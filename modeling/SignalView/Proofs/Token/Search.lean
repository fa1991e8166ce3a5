import SignalView.Proofs.Token.Operators

/-!
# The search for the end of type arguments

The search in front of a `<` goes from byte to byte and leaps over quoted texts, and the brackets
that it counts are only compared with each other by kind. It comes to the `>` behind a stretch when
nothing in the stretch ends it, so that what lies behind the `>` decides. Of the stretch this says
which bytes it has outside of quoted texts, and that these texts end inside of it.
-/

namespace SignalView.Angle

variable {left : Nat} {last b : UInt8} {nesting : Nesting} {stretch front rest : Bytes}

/-- From some state on, the search comes to the `>` behind a stretch. -/
def ComesTo (left : Nat) (last : UInt8) (nesting : Nesting) (stretch : Bytes) : Prop :=
  ∀ behind, closes left 0 last nesting (stretch ++ byte '>' :: behind) = canFollow behind

/-- The search in front of a `<` comes to the `>` behind a stretch. -/
def Spans (stretch : Bytes) : Prop :=
  ∀ behind, startsTypeArguments (byte '<' :: (stretch ++ byte '>' :: behind)) = canFollow behind

theorem Spans.comesTo (h : Spans stretch) :
    ComesTo (window - 1) (byte '<') { angle := 1 } stretch := fun behind ↦ h behind

/-! ## What the search passes over -/

def isQuote (b : UInt8) : Bool :=
  b == Quoted.doubleQuote || b == Quoted.singleQuote || b == Quoted.backtick

/-- The bytes that the search treats on their own. -/
def isSpecial (b : UInt8) : Bool := (bytes "<>()[]\x7b\x7d;&|=").contains b

/-- The bytes that may stand in a stretch outside of quoted texts. -/
def isPassed (b : UInt8) : Bool := isSpecial b || isNeutral b

/-- A stretch that the search may pass over, by the byte in front of it. -/
inductive Passed : UInt8 → Bytes → Prop
  | nil {last : UInt8} : last ≠ byte '=' → Passed last []
  | plain {last b : UInt8} {rest : Bytes} : isPassed b = true →
    (b = byte '=' → rest.head? ≠ some (byte '=')) → Passed b rest → Passed last (b :: rest)
  | quoted {last quote : UInt8} {body rest : Bytes} : isQuote quote = true → quote ∉ body →
    Passed quote rest → Passed last (quote :: (body ++ quote :: rest))

theorem Passed.of_cons (h : Passed last (b :: rest)) (hb : isQuote b = false) :
    isPassed b = true ∧ (b = byte '=' → rest.head? ≠ some (byte '=')) ∧ Passed b rest := by
  generalize htext : b :: rest = text at h
  cases h with
  | nil _ => cases htext
  | plain hpassed hdouble hrest =>
    obtain ⟨rfl, rfl⟩ := List.cons.inj htext
    exact ⟨hpassed, hdouble, hrest⟩
  | quoted hquote _ _ =>
    obtain ⟨rfl, -⟩ := List.cons.inj htext
    rw [hb] at hquote
    cases hquote

theorem isPassed_of_isQuote (b : UInt8) : isQuote b = true → isPassed b = false := by
  revert b
  exact Literal.forall_byte (by decide +kernel)

theorem Passed.of_quote (h : Passed last (b :: rest)) (hb : isQuote b = true) :
    ∃ body behind, rest = body ++ b :: behind ∧ b ∉ body ∧ Passed b behind := by
  generalize htext : b :: rest = text at h
  cases h with
  | nil _ => cases htext
  | plain hpassed _ _ =>
    obtain ⟨rfl, -⟩ := List.cons.inj htext
    rw [isPassed_of_isQuote b hb] at hpassed
    cases hpassed
  | quoted _ hbody hrest =>
    obtain ⟨rfl, rfl⟩ := List.cons.inj htext
    exact ⟨_, _, rfl, hbody, hrest⟩

/-- Behind bytes that open no quoted text. -/
theorem Passed.behind (h : Passed last (front ++ rest))
    (hfront : ∀ b ∈ front, isQuote b = false) : ∃ last', Passed last' rest := by
  induction front generalizing last with
  | nil => exact ⟨last, h⟩
  | cons b front ih =>
    obtain ⟨hb, hfront⟩ := List.forall_mem_cons.mp hfront
    exact ih (h.of_cons hb).2.2 hfront

/-! ## A step of the search -/

/-- The rest of a text in front of a `>` does not depend on what lies behind that. -/
theorem canFollow_close (rest behind behind' : Bytes) :
    canFollow (rest ++ byte '>' :: behind) = canFollow (rest ++ byte '>' :: behind') := by
  have hdrop (behind : Bytes) : (rest ++ byte '>' :: behind).dropWhile Byte.isBlank =
      rest.dropWhile Byte.isBlank ++ byte '>' :: behind := by
    rw [List.dropWhile_append]
    split
    · next hblank =>
      rw [List.isEmpty_iff.mp hblank]
      rfl
    · rfl
  have hprefix {word : Bytes} (hword : byte '>' ∉ word) (text behind : Bytes) :
      word.isPrefixOf (text ++ byte '>' :: behind) = word.isPrefixOf text := by
    apply Lexes.isPrefixOf_append
    rintro b more hmore ⟨⟩
    exact hword (by simp [hmore])
  unfold canFollow
  rw [hdrop, hdrop]
  cases rest.dropWhile Byte.isBlank with
  | nil => rfl
  | cons b after =>
    have hhead : (after ++ byte '>' :: behind).head? = (after ++ byte '>' :: behind').head? := by
      cases after <;> rfl
    simp only [List.cons_append, hhead]
    rw [← List.cons_append, ← List.cons_append, hprefix (by decide), hprefix (by decide),
      hprefix (by decide), hprefix (by decide)]

/-- What lies behind a `>` in the stretch cannot decide. -/
theorem not_forall_canFollow_close (rest : Bytes) :
    ¬ ∀ behind, canFollow (rest ++ byte '>' :: behind) = canFollow behind := by
  intro h
  have hsame := (h []).symm.trans ((canFollow_close rest [] (bytes "x")).trans (h (bytes "x")))
  cases hsame

/-- A condition in front of the search holds when the search can succeed. -/
theorem of_and {c : Bool} {f : Bytes → Bool} (h : ∀ behind, (c && f behind) = canFollow behind) :
    c = true ∧ ∀ behind, f behind = canFollow behind := by
  have hc : c = true := (Bool.and_eq_true_iff.mp (h [])).1
  subst hc
  exact ⟨rfl, h⟩

theorem head?_append_close (rest behind : Bytes) :
    (rest ++ byte '>' :: behind).head? = (rest ++ [byte '>']).head? := by
  cases rest <;> rfl

theorem of_not_isSpecial (b : UInt8) : isSpecial b = false ∧ isQuote b = false →
    (b == byte '<') = false ∧ (b == byte '>') = false ∧ (b == byte '(') = false ∧
      (b == byte ')') = false ∧ (b == byte '[') = false ∧ (b == byte ']') = false ∧
      (b == Quoted.openBrace) = false ∧ (b == Quoted.closeBrace) = false ∧
      (b == byte ';') = false ∧ (b == byte '&' || b == byte '|') = false ∧
      (b == byte '=') = false ∧
      (b == Quoted.doubleQuote || b == Quoted.singleQuote || b == Quoted.backtick) = false := by
  revert b
  exact Literal.forall_byte (by decide +kernel)

/-- At a byte that is not special, the search goes on when it is neutral. -/
theorem closes_other (hspecial : isSpecial b = false) (hquote : isQuote b = false) :
    closes (left + 1) 0 last nesting (b :: rest) =
      (isNeutral b && closes left 0 b nesting rest) := by
  obtain ⟨hlt, hgt, hparen, hparen', hbracket, hbracket', hbrace, hbrace', hsemicolon, hpair,
    hassign, hquote⟩ := of_not_isSpecial b ⟨hspecial, hquote⟩
  rw [closes]
  simp only [hlt, hgt, hparen, hparen', hbracket, hbracket', hbrace, hbrace', hsemicolon, hpair,
    hassign, hquote, Bool.false_eq_true, if_false]

theorem ComesTo.not_zero (h : ComesTo 0 last nesting stretch) : False := by
  have hnil := h []
  rw [closes_zero] at hnil
  cases hnil

/-- The search goes on behind a byte of the stretch that opens no quoted text. -/
theorem ComesTo.tail (h : ComesTo left last nesting (b :: rest)) (hquote : isQuote b = false) :
    isPassed b = true ∧ (b = byte '=' → rest.head? ≠ some (byte '=')) ∧
      ∃ left' nesting', ComesTo left' b nesting' rest := by
  cases left with
  | zero => exact h.not_zero.elim
  | succ left =>
  by_cases hspecial : isSpecial b = false
  · obtain ⟨hneutral, hrest⟩ := of_and fun behind ↦
      (closes_other hspecial hquote).symm.trans (h behind)
    refine ⟨by rw [isPassed, hneutral, Bool.or_true], ?_, left, nesting, hrest⟩
    rintro rfl
    cases hspecial
  · have hspecial : isSpecial b = true := by simpa using hspecial
    -- A byte that may not be doubled is compared with the next one, which is known without what
    -- lies behind the stretch.
    have hdouble (c : UInt8) (h : ∀ behind, ((rest ++ byte '>' :: behind).head? != some c &&
          closes left 0 c nesting (rest ++ byte '>' :: behind)) = canFollow behind) :
        (rest ++ [byte '>']).head? ≠ some c ∧ ComesTo left c nesting rest := by
      obtain ⟨hnext, hrest⟩ := of_and fun behind ↦ head?_append_close rest behind ▸ h behind
      exact ⟨by simpa using hnext, hrest⟩
    have hequals : b = byte '=' → rest.head? ≠ some (byte '=') := by
      rintro rfl hhead
      obtain ⟨more, rfl⟩ := List.head?_eq_some_iff.mp hhead
      exact (hdouble (byte '=') h).1 rfl
    refine ⟨by rw [isPassed, hspecial, Bool.true_or], hequals, left, ?_⟩
    have hmem : b ∈ [byte '<', byte '>', byte '(', byte ')', byte '[', byte ']',
        Quoted.openBrace, Quoted.closeBrace, byte ';', byte '&', byte '|', byte '='] :=
      List.contains_iff_mem.mp hspecial
    simp only [List.mem_cons, List.not_mem_nil, or_false] at hmem
    rcases hmem with rfl | rfl | rfl | rfl | rfl | rfl | rfl | rfl | rfl | rfl | rfl | rfl
    · exact ⟨{ nesting with angle := nesting.angle + 1 }, h⟩
    · by_cases hlast : last = byte '='
      · subst hlast
        exact ⟨nesting, h⟩
      by_cases hangle : nesting.angle ≤ 1
      · refine absurd (fun behind ↦ ?_) (not_forall_canFollow_close rest)
        have hstop := h behind
        rw [List.cons_append, closes_close hlast, if_pos hangle] at hstop
        simpa using hstop
      · refine ⟨{ nesting with angle := nesting.angle - 1 }, fun behind ↦ ?_⟩
        have hgo := h behind
        rwa [List.cons_append, closes_close hlast, if_neg hangle] at hgo
    · exact ⟨{ nesting with paren := nesting.paren + 1 }, h⟩
    · exact ⟨{ nesting with paren := nesting.paren - 1 }, (of_and h).2⟩
    · exact ⟨{ nesting with bracket := nesting.bracket + 1 }, h⟩
    · exact ⟨{ nesting with bracket := nesting.bracket - 1 }, (of_and h).2⟩
    · exact ⟨{ nesting with brace := nesting.brace + 1 }, h⟩
    · exact ⟨{ nesting with brace := nesting.brace - 1 }, (of_and h).2⟩
    · exact ⟨nesting, (of_and h).2⟩
    · exact ⟨nesting, (hdouble _ h).2⟩
    · exact ⟨nesting, (hdouble _ h).2⟩
    · exact ⟨nesting, (hdouble _ h).2⟩

/-! ## Quoted texts -/

theorem takeWhile_body {quote : UInt8} {body : Bytes} (hbody : quote ∉ body) (rest : Bytes) :
    (body ++ quote :: rest).takeWhile (· != quote) = body := by
  have hall : ∀ b ∈ body, (b != quote) = true := by
    intro b hb
    rw [bne_iff_ne]
    rintro rfl
    exact hbody hb
  rw [List.takeWhile_append_of_pos hall, List.takeWhile_cons_of_neg (by simp), List.append_nil]

theorem closes_skip (front : Bytes) (b : UInt8) :
    closes left (front.length + 1) last nesting (front ++ b :: rest) =
      closes (left - (front.length + 1)) 0 b nesting rest := by
  induction front generalizing left last with
  | nil =>
    cases left with
    | zero => exact (closes_zero _ _ _ _).trans (closes_zero _ _ _ _).symm
    | succ left => rfl
  | cons c front ih =>
    cases left with
    | zero =>
      rw [Nat.zero_sub]
      exact (closes_zero _ _ _ _).trans (closes_zero _ _ _ _).symm
    | succ left =>
      have hleft : left + 1 - ((c :: front).length + 1) = left - (front.length + 1) := by
        simp
      rw [hleft, ← ih]
      rfl

/-- A quoted text ends inside of the stretch, and the search goes on behind it. -/
theorem ComesTo.quoted (h : ComesTo left last nesting (b :: rest)) (hquote : isQuote b = true) :
    ∃ body behind, rest = body ++ b :: behind ∧ b ∉ body ∧
      ∃ left' nesting', ComesTo left' b nesting' behind := by
  cases left with
  | zero => exact h.not_zero.elim
  | succ left =>
  have hclose : b ≠ byte '>' := by
    rintro rfl
    cases hquote
  have hstep (text : Bytes) : closes (left + 1) 0 last nesting (b :: text) =
      (decide ((text.takeWhile (· != b)).length < text.length) &&
        decide ((text.takeWhile (· != b)).length < left) &&
        closes left ((text.takeWhile (· != b)).length + 1) b nesting text) := by
    have hmem : b = Quoted.doubleQuote ∨ b = Quoted.singleQuote ∨ b = Quoted.backtick := by
      simpa [isQuote, or_assoc] using hquote
    rcases hmem with rfl | rfl | rfl <;> rfl
  have hmem : b ∈ rest := by
    have hnil := h []
    rw [List.cons_append, hstep] at hnil
    obtain ⟨hshorter, -⟩ := Bool.and_eq_true_iff.mp (Bool.and_eq_true_iff.mp hnil).1
    by_contra hnot
    rw [List.takeWhile_eq_self_iff.mpr] at hshorter
    · simp at hshorter
    · intro c hc
      rw [bne_iff_ne]
      rintro rfl
      rcases List.mem_append.mp hc with hc | hc
      · exact hnot hc
      · exact hclose (List.mem_singleton.mp hc)
  obtain ⟨body, behind, rfl, hbody⟩ := List.eq_append_cons_of_mem hmem
  refine ⟨body, behind, rfl, hbody, left - (body.length + 1), nesting, fun after ↦ ?_⟩
  have hinside (after : Bytes) : (decide (body.length < left) &&
      closes left (body.length + 1) b nesting (body ++ b :: (behind ++ byte '>' :: after))) =
        canFollow after := by
    rw [← h after, List.cons_append, List.append_assoc, List.cons_append, hstep,
      takeWhile_body hbody]
    simp
  rw [← (of_and hinside).2 after, closes_skip]

/-- What the search passes over on its way to the `>` behind a stretch. -/
theorem ComesTo.passed (h : ComesTo left last nesting stretch) : Passed last stretch := by
  -- The quoted texts make leaps, so the induction is on the length.
  induction hlength : stretch.length using Nat.strong_induction_on
    generalizing left last nesting stretch with
  | _ length ih =>
    cases stretch with
    | nil =>
      refine .nil ?_
      rintro rfl
      cases left with
      | zero => exact h.not_zero
      | succ left =>
        have hnil : closes left 0 (byte '>') nesting [] = true := h []
        rw [closes] at hnil
        cases hnil
    | cons b rest =>
      rw [List.length_cons] at hlength
      by_cases hquote : isQuote b = true
      · obtain ⟨body, behind, rfl, hbody, left', nesting', hbehind⟩ := h.quoted hquote
        refine .quoted hquote hbody (ih behind.length ?_ hbehind rfl)
        rw [List.length_append, List.length_cons] at hlength
        omega
      · have hquote : isQuote b = false := by simpa using hquote
        obtain ⟨hpassed, hdouble, left', nesting', hrest⟩ := h.tail hquote
        exact .plain hpassed hdouble (ih rest.length (by omega) hrest rfl)

theorem Spans.passed (h : Spans stretch) : Passed (byte '<') stretch := h.comesTo.passed

end SignalView.Angle
