import SignalView.Proofs.Expression.Passed
import SignalView.Proofs.Token.Origin

/-!
# The tokens of a written term

The text of a term is cut into the tokens of the term. Spaces keep operators apart, and what
follows a part of a term never goes on with its last token: behind a number this asks that no dot
follows. Words need to know that no dot stands in front of them, and a slash that an operand does.
-/

namespace SignalView

/-- A term ends with a token of the kind. -/
def Ends (last : Option TokenKind) : Prop := ∃ kind, last = some kind ∧ kind.endsTerm = true

theorem Ends.isDot {last : Option TokenKind} (h : Ends last) : isDot last = false := by
  obtain ⟨kind, rfl, hkind⟩ := h
  unfold TokenKind.endsTerm at hkind
  split at hkind <;> first | rfl | cases hkind

theorem Ends.allowsOperand {last : Option TokenKind} (h : Ends last) :
    Scan.allowsOperand last = false := by
  obtain ⟨kind, rfl, hkind⟩ := h
  unfold TokenKind.endsTerm at hkind
  split at hkind <;> first | rfl | cases hkind

/-! ## Operators -/

theorem InfixOp.lexes (op : InfixOp) {previous : Option TokenKind} (h : Ends previous)
    (after : Bytes) : Lexes previous op.text (32 :: after) op.sign := by
  have hword (w : Word) : Lexes previous (bytes w.spelling) (32 :: after)
      ⟨.word w, bytes w.spelling⟩ := by
    refine .word w ?_ h.isDot
    rintro b ⟨⟩
    rfl
  have hmark (m : Mark) (hm : Lexes.isFree m = true)
      (hspace : (Lexes.longer m).contains 32 = false) :
      Lexes previous (bytes m.text) (32 :: after) m.sign := by
    refine .mark hm ?_
    rintro b ⟨⟩
    exact hspace
  cases op with
  | instanceof => exact hword .instanceof
  | in_ => exact hword .in_
  | slash => exact .slash h.allowsOperand
  | or => exact hmark .or (by decide) (by decide)
  | nullish => exact hmark .nullish (by decide) (by decide)
  | and => exact hmark .and (by decide) (by decide)
  | pipe => exact hmark .pipe (by decide) (by decide)
  | caret => exact hmark .caret (by decide) (by decide)
  | ampersand => exact hmark .ampersand (by decide) (by decide)
  | eq => exact hmark .eq (by decide) (by decide)
  | neq => exact hmark .neq (by decide) (by decide)
  | strictEq => exact hmark .strictEq (by decide) (by decide)
  | strictNeq => exact hmark .strictNeq (by decide) (by decide)
  | gt => exact hmark .gt (by decide) (by decide)
  | ge => exact hmark .ge (by decide) (by decide)
  | shr => exact hmark .shr (by decide) (by decide)
  | ushr => exact hmark .ushr (by decide) (by decide)
  | plus => exact hmark .plus (by decide) (by decide)
  | minus => exact hmark .minus (by decide) (by decide)
  | star => exact hmark .star (by decide) (by decide)
  | percent => exact hmark .percent (by decide) (by decide)
  | power => exact hmark .power (by decide) (by decide)

/-- Whether an operand that starts with a byte is set off from a prefix operator. -/
def PrefixOp.needsSpace (op : PrefixOp) (b : UInt8) : Bool :=
  op.kind.isWord || ((b == byte '-' || b == byte '+') && op.text.getLast? == some b)

/-- The space between a prefix operator and an operand that starts with a byte. -/
def PrefixOp.gap (op : PrefixOp) (b : UInt8) : Bytes := if op.needsSpace b then [32] else []

theorem PrefixOp.leadingText_eq (op : PrefixOp) {b : UInt8} {operand : Bytes}
    (h : operand.head? = some b) :
    Emission.leadingText op.text operand = op.text ++ (op.gap b ++ operand) := by
  have hword :
      [bytes "typeof", bytes "void", bytes "delete"].contains op.text = op.kind.isWord := by
    cases op <;> rfl
  simp only [Emission.leadingText, h, hword]
  rw [PrefixOp.gap, PrefixOp.needsSpace]
  split
  · rw [List.append_assoc]
    rfl
  · rfl

/-- A prefix operator is read in front of its operand. -/
theorem PrefixOp.lexes (op : PrefixOp) {previous : Option TokenKind} (h : isDot previous = false)
    {b : UInt8} (hb : b ≠ byte '=') (rest : Bytes) :
    Lexes previous op.text (op.gap b ++ b :: rest) op.sign := by
  have hword (w : Word) (behind : Bytes) : Lexes previous (bytes w.spelling) (32 :: behind)
      ⟨.word w, bytes w.spelling⟩ := by
    refine .word w ?_ h
    rintro c ⟨⟩
    rfl
  have hmark (m : Mark) (hm : Lexes.isFree m = true) {next : UInt8} (behind : Bytes)
      (hnext : (Lexes.longer m).contains next = false) :
      Lexes previous (bytes m.text) (next :: behind) m.sign := by
    refine .mark hm ?_
    rintro c ⟨⟩
    exact hnext
  unfold PrefixOp.gap
  split
  · cases op with
    | typeof => exact hword .typeof _
    | void => exact hword .void _
    | delete => exact hword .delete _
    | not => exact hmark .bang (by decide) _ (by decide)
    | complement => exact hmark .tilde (by decide) _ (by decide)
    | plus => exact hmark .plus (by decide) _ (by decide)
    | minus => exact hmark .minus (by decide) _ (by decide)
  · next hspace =>
    -- A sign that is not set off differs from the byte behind it.
    have hsame (c : UInt8) (hc : c = byte '-' ∨ c = byte '+')
        (hlast : op.text.getLast? = some c) : b ≠ c := by
      rintro rfl
      apply hspace
      rcases hc with rfl | rfl <;> simp [PrefixOp.needsSpace, hlast]
    cases op with
    | typeof | void | delete => exact absurd rfl hspace
    | not =>
      have hlonger : Lexes.longer .bang = [byte '=', byte '='] := by decide
      exact hmark .bang (by decide) rest (by simp [hlonger, hb])
    | complement => exact hmark .tilde (by decide) rest rfl
    | plus =>
      have hlonger : Lexes.longer .plus = [byte '+', byte '='] := by decide
      have hne := hsame (byte '+') (.inr rfl) rfl
      exact hmark .plus (by decide) rest (by simp [hlonger, hb, hne])
    | minus =>
      have hlonger : Lexes.longer .minus = [byte '-', byte '='] := by decide
      have hne := hsame (byte '-') (.inl rfl) rfl
      exact hmark .minus (by decide) rest (by simp [hlonger, hb, hne])

namespace Term

/-! ## What may follow -/

/-- The bytes that the last token of a term could go on with. -/
def goesOn : Term → UInt8 → Bool
  | .number _ isBigint => if isBigint then continues else continuesNumber
  | .unary _ operand => operand.goesOn
  | .binary _ _ right => right.goesOn
  | .conditional _ _ alternate => alternate.goesOn
  | .spread argument => argument.goesOn
  | _ => continues

theorem continuesNumber_of_continues {b : UInt8} (h : continues b = true) :
    continuesNumber b = true := by
  simp [continuesNumber, h]

theorem continuesNumber_of_goesOn (t : Term) {b : UInt8} (h : t.goesOn b = true) :
    continuesNumber b = true := by
  fun_induction goesOn t with
  | case1 => exact continuesNumber_of_continues h
  | case2 => exact h
  | case3 _ _ ih | case4 _ _ _ ih | case5 _ _ _ ih | case6 _ ih => exact ih h
  | case7 => exact continuesNumber_of_continues h

/-- What follows a part of a term, unless it is a dot. -/
theorem avoids_goesOn (t : Term) (b : UInt8) (hb : continuesNumber b = false) (after : Bytes) :
    Avoids t.goesOn (b :: after) := by
  rintro c ⟨⟩
  cases hgoes : t.goesOn b with
  | false => rfl
  | true => exact absurd (t.continuesNumber_of_goesOn hgoes) (by simp [hb])

theorem Fits.goesOn_operand {rank : Rank} {t : Term} (h : Fits rank t) (hrank : rank = .operand)
    (hnumber : t.isBareNumber = false) : t.goesOn = continues := by
  cases h with
  | number _ isBigint =>
    cases isBigint with
    | false => cases hnumber
    | true => rfl
  | name _ | string _ | paren _ | array _ | call _ _ | index _ _ | member _ _ => rfl
  | _ => cases hrank

/-! ## Terms -/

/-- Whatever is in front of a term and behind it, its text is cut into its tokens. -/
def Lexed (t : Term) : Prop :=
  ∀ ⦃previous after⦄, isDot previous = false → Avoids t.goesOn after →
    ∃ last, Cuts after previous t.text t.signs last ∧ isDot last = false ∧
      (t.isHole = false → Ends last)

theorem Lexed.ends {t : Term} (h : t.Lexed) (hhole : t.isHole = false) {previous : Option TokenKind}
    {after : Bytes} (hprevious : isDot previous = false) (hafter : Avoids t.goesOn after) :
    ∃ last, Cuts after previous t.text t.signs last ∧ Ends last := by
  obtain ⟨last, hcuts, -, hends⟩ := h hprevious hafter
  exact ⟨last, hcuts, hends hhole⟩

/-- A term that is a single token. -/
theorem Lexed.of_token {t : Term} {sign : Sign} (hsigns : t.signs = [sign])
    (hends : sign.kind.endsTerm = true) (hne : t.text ≠ [])
    (h : ∀ ⦃previous after⦄, isDot previous = false → Avoids t.goesOn after →
      Lexes previous t.text after sign) : t.Lexed := by
  intro previous after hprevious hafter
  have hlast : Ends (some sign.kind) := ⟨sign.kind, rfl, hends⟩
  refine ⟨some sign.kind, ?_, hlast.isDot, fun _ ↦ hlast⟩
  rw [hsigns]
  exact .single hne (h hprevious hafter)

/-- A term that ends with a closing bracket. -/
theorem Lexed.of_cuts {t : Term} (h : ∀ ⦃previous after⦄, isDot previous = false →
      Avoids t.goesOn after → ∃ last, Cuts after previous t.text t.signs last ∧ Ends last) :
    t.Lexed := by
  intro previous after hprevious hafter
  obtain ⟨last, hcuts, hends⟩ := h hprevious hafter
  exact ⟨last, hcuts, hends.isDot, fun _ ↦ hends⟩

theorem cuts_solid (m : Mark) {previous : Option TokenKind} {after : Bytes}
    (hm : Lexes.isFree m = true) (hlonger : Lexes.longer m = []) :
    Cuts after previous (bytes m.text) [m.sign] (some (.mark m)) :=
  .single (by cases m <;> decide) (.solid hm hlonger)

/-- The bytes that a term may start with: none of them goes on with the operator in front or opens a
block. -/
def opensTerm (b : UInt8) : Bool := b != byte '=' && b != 32 && b != Quoted.openBrace

/-- A text that starts as a term does. -/
def HeadFree (text : Bytes) : Prop := ∃ b, text.head? = some b ∧ opensTerm b = true

theorem HeadFree.append {text : Bytes} (h : HeadFree text) (after : Bytes) :
    HeadFree (text ++ after) := by
  obtain ⟨b, hhead, hb⟩ := h
  obtain ⟨more, rfl⟩ := List.head?_eq_some_iff.mp hhead
  exact ⟨b, rfl, hb⟩

theorem opensTerm_of_opensName (b : UInt8) : Literal.opensName b = true → opensTerm b = true := by
  revert b
  exact Literal.forall_byte (by decide +kernel)

theorem opensTerm_of_isDigit (b : UInt8) :
    Byte.isDigit b = true ∨ b = byte '.' → opensTerm b = true := by
  revert b
  exact Literal.forall_byte (by decide +kernel)

theorem headFree_name {name : Bytes} (h : Literal.IsName name) : HeadFree name := by
  obtain ⟨b, more, rfl⟩ := List.exists_cons_of_ne_nil (Literal.ne_nil_of_startsName h.starts)
  exact ⟨b, rfl, opensTerm_of_opensName b (Literal.opensName_of_startsName h.starts)⟩

theorem headFree_number {number : Bytes} (h : Scan.startsNumber number = true) :
    HeadFree number := by
  match number with
  | [] => cases h
  | b :: more =>
    simp only [Scan.startsNumber, Bool.or_eq_true, Bool.and_eq_true, beq_iff_eq] at h
    exact ⟨b, rfl, opensTerm_of_isDigit b (h.imp id And.left)⟩

theorem Readable.startsNumber {sign : Sign} (h : sign.Readable)
    (hkind : sign.kind = .number ∨ sign.kind = .bigint) :
    Scan.startsNumber sign.value = true := by
  obtain ⟨rest, length, hstarts, hscan⟩ := h.number hkind
  have hagain := Literal.scanNumber_append hstarts hscan (.inr (Avoids.nil _))
  simpa using hagain.1

theorem number_kind (isBigint : Bool) :
    (if isBigint then TokenKind.bigint else .number) = .number ∨
      (if isBigint then TokenKind.bigint else .number) = .bigint := by
  cases isBigint
  · exact .inl rfl
  · exact .inr rfl

theorem Fits.headFree {rank : Rank} {t : Term} (h : Fits rank t) (hrank : rank ≠ .element)
    (hread : ∀ sign ∈ t.signs, sign.Readable) : HeadFree t.text := by
  induction h with
  | name _ => exact headFree_name ((hread _ List.mem_cons_self).name rfl)
  | number _ isBigint =>
    have hstarts := Readable.startsNumber (hread _ List.mem_cons_self) (number_kind isBigint)
    exact headFree_number hstarts
  | string _ => exact ⟨_, rfl, by decide⟩
  | paren _ _ | array _ _ => exact ⟨_, rfl, by decide⟩
  | spread _ _ => exact ⟨_, rfl, by decide⟩
  | call _ _ ih _ =>
    have hfree := ih (by rintro ⟨⟩) fun sign h ↦ hread sign (by simp [signs, h])
    exact ((hfree.append _).append _).append _
  | index _ _ ih _ =>
    have hfree := ih (by rintro ⟨⟩) fun sign h ↦ hread sign (by simp [signs, h])
    exact ((hfree.append _).append _).append _
  | member _ _ ih =>
    exact ((ih (by rintro ⟨⟩) fun sign h ↦ hread sign (by simp [signs, h])).append _).append _
  | binary _ _ _ ih _ =>
    have hfree := ih (by rintro ⟨⟩) fun sign h ↦ hread sign (by simp [signs, h])
    exact (((hfree.append _).append _).append _).append _
  | conditional _ _ _ ih _ _ =>
    have hfree := ih (by rintro ⟨⟩) fun sign h ↦ hread sign (by simp [signs, h])
    exact (((hfree.append _).append _).append _).append _
  | unary op _ ih =>
    obtain ⟨b, hhead, -⟩ := ih (by rintro ⟨⟩) fun sign h ↦ hread sign (by simp [signs, h])
    rw [text, op.leadingText_eq hhead]
    refine HeadFree.append ?_ _
    cases op <;> exact ⟨_, rfl, by decide⟩
  | ofOperand _ ih | ofUnary _ ih | ofBinary _ ih | ofAssignment _ ih =>
    exact ih (by rintro ⟨⟩) hread
  | ofItem _ _ | hole => exact absurd rfl hrank

/-- Items that are cut into their tokens are so as a list. -/
theorem cuts_list {items : List Term} (h : ∀ t ∈ items, t.Lexed) {previous : Option TokenKind}
    (hprevious : isDot previous = false) {b : UInt8} (hb : continuesNumber b = false)
    (after : Bytes) :
    ∃ last, Cuts (b :: after) previous (listText items) (listSigns items) last := by
  induction items generalizing previous with
  | nil => exact ⟨previous, .nil previous⟩
  | cons t rest ih =>
    have hrest : ∀ t ∈ rest, t.Lexed := fun t hmem ↦ h t (by simp [hmem])
    have hcomma {behind : Bytes} {last : Option TokenKind} :
        Cuts behind last (bytes ",") [Mark.comma.sign] (some (.mark .comma)) :=
      cuts_solid .comma (by decide) (by decide)
    have hitem (b : UInt8) (hb : continuesNumber b = false) (behind : Bytes) :
        ∃ last, Cuts (b :: behind) previous t.text t.signs last := by
      obtain ⟨last, hcuts, -⟩ := h t (by simp) hprevious (t.avoids_goesOn b hb behind)
      exact ⟨last, hcuts⟩
    rw [listText, listSigns]
    cases rest with
    | nil =>
      rw [gapText, gapSigns, listText, listSigns, List.append_nil, List.append_nil]
      cases hhole : t.isHole with
      | true =>
        obtain ⟨last, hcuts⟩ := hitem (byte ',') (by decide) (b :: after)
        exact ⟨_, hcuts.append hcomma⟩
      | false =>
        obtain ⟨last, hcuts⟩ := hitem b hb after
        refine ⟨last, ?_⟩
        simpa using hcuts
    | cons next rest =>
      have hdot : isDot (some (.mark .comma)) = false := rfl
      obtain ⟨last, hrest⟩ := ih hrest hdot
      obtain ⟨middle, hcuts⟩ := hitem (byte ',') (by decide)
        (32 :: (listText (next :: rest) ++ b :: after))
      have hgap {behind : Bytes} : Cuts behind middle (t.gapText (next :: rest))
          (t.gapSigns (next :: rest)) (some (.mark .comma)) :=
        hcomma.append (.space (.nil _))
      exact ⟨last, (hcuts.append hgap).append hrest⟩

/-- A text between two brackets. -/
theorem cuts_between (first final : Mark) {previous last : Option TokenKind} {text after : Bytes}
    {signs : List Sign} (hfirst : Lexes.isFree first = true ∧ Lexes.longer first = [])
    (hfinal : Lexes.isFree final = true ∧ Lexes.longer final = [])
    (h : Cuts (bytes final.text ++ after) (some (.mark first)) text signs last) :
    Cuts after previous (bytes first.text ++ (text ++ bytes final.text))
      (first.sign :: (signs ++ [final.sign])) (some (.mark final)) :=
  (cuts_solid first hfirst.1 hfirst.2).append (h.append (cuts_solid final hfinal.1 hfinal.2))

section Parts

variable {inner callee receiver operand left right test consequent alternate argument : Term}
  {items : List Term}

theorem ends_closeParen : Ends (some (.mark .closeParen)) := ⟨_, rfl, rfl⟩

theorem ends_closeBracket : Ends (some (.mark .closeBracket)) := ⟨_, rfl, rfl⟩

theorem Lexed.paren (h : inner.Lexed) : (Term.paren inner).Lexed := by
  refine .of_cuts fun previous after _ _ ↦ ⟨_, ?_, ends_closeParen⟩
  have hdot : isDot (some (.mark .openParen)) = false := rfl
  obtain ⟨last, hcuts, -⟩ := h hdot (inner.avoids_goesOn (byte ')') rfl after)
  rw [text, signs, List.append_assoc]
  exact cuts_between .openParen .closeParen (by decide) (by decide) hcuts

theorem Lexed.array (h : ∀ t ∈ items, t.Lexed) : (Term.array items).Lexed := by
  refine .of_cuts fun previous after _ _ ↦ ⟨_, ?_, ends_closeBracket⟩
  have hdot : isDot (some (.mark .openBracket)) = false := rfl
  obtain ⟨last, hcuts⟩ := cuts_list h hdot (b := byte ']') rfl after
  rw [text, signs, List.append_assoc]
  exact cuts_between .openBracket .closeBracket (by decide) (by decide) hcuts

theorem Lexed.call (hcallee : callee.Lexed) (hargs : ∀ t ∈ items, t.Lexed) :
    (Term.call callee items).Lexed := by
  refine .of_cuts fun previous after hprevious _ ↦ ⟨_, ?_, ends_closeParen⟩
  have hdot : isDot (some (.mark .openParen)) = false := rfl
  obtain ⟨last, hcuts⟩ := cuts_list hargs hdot (b := byte ')') rfl after
  obtain ⟨middle, hfront, -⟩ := hcallee hprevious (callee.avoids_goesOn (byte '(') rfl
    (listText items ++ bytes ")" ++ after))
  have hback : Cuts after middle _ _ _ :=
    cuts_between .openParen .closeParen (by decide) (by decide) hcuts
  simpa only [text, signs, Mark.text, List.append_assoc, List.cons_append] using
    hfront.append hback

theorem Lexed.index (hreceiver : receiver.Lexed) (hkey : inner.Lexed) :
    (Term.index receiver inner).Lexed := by
  refine .of_cuts fun previous after hprevious _ ↦ ⟨_, ?_, ends_closeBracket⟩
  have hdot : isDot (some (.mark .openBracket)) = false := rfl
  obtain ⟨last, hcuts, -⟩ := hkey hdot (inner.avoids_goesOn (byte ']') rfl after)
  obtain ⟨middle, hfront, -⟩ := hreceiver hprevious (receiver.avoids_goesOn (byte '[') rfl
    (inner.text ++ bytes "]" ++ after))
  have hback : Cuts after middle _ _ _ :=
    cuts_between .openBracket .closeBracket (by decide) (by decide) hcuts
  simpa only [text, signs, Mark.text, List.append_assoc, List.cons_append] using
    hfront.append hback

/-- A dot and a name, behind whatever stands in front of them. -/
theorem cuts_dotName {key after : Bytes} (hkey : Literal.IsName key)
    (hafter : Avoids continues after) (previous : Option TokenKind) :
    Cuts after previous (bytes "." ++ key) [Mark.dot.sign, ⟨.identifier, key⟩]
      (some .identifier) := by
  obtain ⟨b, more, rfl⟩ := List.exists_cons_of_ne_nil (Literal.ne_nil_of_startsName hkey.starts)
  have hmark : Cuts (b :: more ++ after) previous (bytes ".") [Mark.dot.sign]
      (some (.mark .dot)) :=
    .single nofun (.dot (Literal.opensName_of_startsName hkey.starts))
  have hname : Cuts after (some (.mark .dot)) (b :: more) [⟨.identifier, b :: more⟩]
      (some .identifier) :=
    .single nofun (.name hkey hafter (.inl rfl))
  exact hmark.append hname

/-- Nothing goes on with the receiver of a member at its dot. -/
theorem Lexed.member {key : Bytes} (hreceiver : receiver.Lexed)
    (hcontinues : receiver.goesOn = continues) (hkey : Literal.IsName key) :
    (Term.member receiver key).Lexed := by
  refine .of_cuts fun previous after hprevious hafter ↦ ⟨some .identifier, ?_, _, rfl, rfl⟩
  have hdot : Avoids receiver.goesOn (bytes "." ++ key ++ after) := by
    rw [hcontinues]
    rintro c ⟨⟩
    rfl
  obtain ⟨middle, hfront, -⟩ := hreceiver hprevious hdot
  rw [text, signs, List.append_assoc]
  exact hfront.append (cuts_dotName hkey hafter middle)

theorem isDot_prefixOp (op : PrefixOp) : isDot (some op.kind) = false := by cases op <;> rfl

theorem isDot_infixOp (op : InfixOp) : isDot (some op.kind) = false := by cases op <;> rfl

theorem Lexed.unary (op : PrefixOp) (h : operand.Lexed) (hhole : operand.isHole = false)
    (hfree : HeadFree operand.text) : (Term.unary op operand).Lexed := by
  refine .of_cuts fun previous after hprevious hafter ↦ ?_
  obtain ⟨last, hcuts, hends⟩ := h.ends hhole (isDot_prefixOp op) hafter
  obtain ⟨b, hhead, hopens⟩ := hfree
  have hb : b ≠ byte '=' := by
    rintro rfl
    cases hopens
  obtain ⟨more, hmore⟩ := List.head?_eq_some_iff.mp hhead
  have hne : op.text ≠ [] := by cases op <;> nofun
  have hlexes : Lexes previous op.text (op.gap b ++ operand.text ++ after) op.sign := by
    rw [hmore, List.append_assoc]
    exact op.lexes hprevious hb (more ++ after)
  have hspaced : Cuts after (some op.kind) (op.gap b ++ operand.text) operand.signs last := by
    unfold PrefixOp.gap
    split
    · exact .space hcuts
    · exact hcuts
  refine ⟨last, ?_, hends⟩
  rw [text, op.leadingText_eq hhead]
  exact .token hne hlexes hspaced

/-- An operator between spaces. -/
theorem cuts_infixOp (op : InfixOp) {previous : Option TokenKind} (h : Ends previous)
    (after : Bytes) : Cuts after previous (bytes " " ++ (op.text ++ bytes " ")) [op.sign]
      (some op.kind) := by
  have hne : op.text ≠ [] := by cases op <;> nofun
  have hop : Cuts (bytes " " ++ after) previous op.text [op.sign] (some op.kind) :=
    .single hne (op.lexes h after)
  exact .space (hop.append (.space (.nil _)))

theorem Lexed.binary (op : InfixOp) (hleft : left.Lexed) (hlefthole : left.isHole = false)
    (hright : right.Lexed) (hrighthole : right.isHole = false) :
    (Term.binary op left right).Lexed := by
  refine .of_cuts fun previous after hprevious hafter ↦ ?_
  obtain ⟨last, hsecond, hends⟩ := hright.ends hrighthole (isDot_infixOp op) hafter
  have hspace : Avoids left.goesOn (bytes " " ++ (op.text ++ bytes " ") ++ right.text ++ after) :=
    left.avoids_goesOn 32 rfl _
  obtain ⟨middle, hfirst, hmiddle⟩ := hleft.ends hlefthole hprevious hspace
  have hback := (cuts_infixOp op hmiddle (right.text ++ after)).append hsecond
  refine ⟨last, ?_, hends⟩
  simpa only [text, signs, List.append_assoc, List.cons_append, List.nil_append] using
    hfirst.append hback

theorem cuts_question {previous : Option TokenKind} (after : Bytes) :
    Cuts after previous (bytes " ? ") [Mark.question.sign] (some (.mark .question)) := by
  have hmark : Cuts (bytes " " ++ after) previous (bytes "?") [Mark.question.sign]
      (some (.mark .question)) := .single nofun .question
  exact .space (hmark.append (.space (.nil _)))

theorem cuts_colon {previous : Option TokenKind} (after : Bytes) :
    Cuts after previous (bytes " : ") [Mark.colon.sign] (some (.mark .colon)) := by
  have hmark : Cuts (bytes " " ++ after) previous (bytes ":") [Mark.colon.sign]
      (some (.mark .colon)) := cuts_solid .colon (by decide) (by decide)
  exact .space (hmark.append (.space (.nil _)))

theorem Lexed.conditional (htest : test.Lexed) (hconsequent : consequent.Lexed)
    (halternate : alternate.Lexed) (hhole : alternate.isHole = false) :
    (Term.conditional test consequent alternate).Lexed := by
  refine .of_cuts fun previous after hprevious hafter ↦ ?_
  have hcolon : isDot (some (.mark .colon)) = false := rfl
  have hquestion : isDot (some (.mark .question)) = false := rfl
  have hbehindTest : Avoids test.goesOn
      (bytes " ? " ++ (consequent.text ++ (bytes " : " ++ alternate.text)) ++ after) :=
    test.avoids_goesOn 32 rfl _
  have hbehindConsequent : Avoids consequent.goesOn (bytes " : " ++ alternate.text ++ after) :=
    consequent.avoids_goesOn 32 rfl _
  obtain ⟨first, htest, -⟩ := htest hprevious hbehindTest
  obtain ⟨second, hconsequent, -⟩ := hconsequent hquestion hbehindConsequent
  obtain ⟨last, halternate, hends⟩ := halternate.ends hhole hcolon hafter
  have hback := htest.append ((cuts_question _).append
    (hconsequent.append ((cuts_colon _).append halternate)))
  refine ⟨last, ?_, hends⟩
  simpa only [text, signs, List.append_assoc, List.cons_append, List.nil_append] using hback

theorem Lexed.spread (h : argument.Lexed) (hhole : argument.isHole = false) :
    (Term.spread argument).Lexed := by
  refine .of_cuts fun previous after hprevious hafter ↦ ?_
  have hdot : isDot (some (.mark .ellipsis)) = false := rfl
  obtain ⟨last, hcuts, hends⟩ := h.ends hhole hdot hafter
  have hmark : Cuts (argument.text ++ after) previous (bytes "...") [Mark.ellipsis.sign]
      (some (.mark .ellipsis)) := .single nofun .ellipsis
  exact ⟨last, hmark.append hcuts, hends⟩

end Parts

theorem mem_listSigns {items : List Term} {t : Term} (ht : t ∈ items) {sign : Sign}
    (h : sign ∈ t.signs) : sign ∈ listSigns items := by
  induction items with
  | nil => cases ht
  | cons first rest ih =>
    rw [listSigns]
    rcases List.mem_cons.mp ht with rfl | hmem
    · simp [h]
    · simp [ih hmem]

/-- The text of a term of the grammar is cut into the tokens of the term. -/
theorem Fits.lexed {rank : Rank} {t : Term} (h : Fits rank t) (hplain : t.IsPlain)
    (hread : ∀ sign ∈ t.signs, sign.Readable) : t.Lexed := by
  induction h with
  | name spelling =>
    have hname : Literal.IsName spelling := (hread _ List.mem_cons_self).name rfl
    refine .of_token rfl rfl (Literal.ne_nil_of_startsName hname.starts) fun _ _ _ hafter ↦ ?_
    exact .name hname hafter (.inr hplain.1)
  | number raw isBigint =>
    have hsign := hread _ List.mem_cons_self
    obtain ⟨rest, length, hstarts, hscan⟩ := hsign.number (number_kind isBigint)
    have hne : raw ≠ [] := by
      have hnumber := Readable.startsNumber hsign (number_kind isBigint)
      rintro rfl
      cases hnumber
    refine .of_token rfl (by cases isBigint <;> rfl) hne fun _ _ _ hafter ↦ ?_
    refine .number hstarts hscan ?_
    cases isBigint with
    | false => exact .inr hafter
    | true => exact .inl rfl
  | string value => exact .of_token rfl rfl (by rintro ⟨⟩) fun _ _ _ _ ↦ .string value
  | paren _ ih => exact (ih hplain fun sign h ↦ hread sign (by simp [signs, h])).paren
  | array _ ih =>
    exact .array fun t ht ↦ ih t ht (arePlain_iff.mp hplain t ht) fun sign h ↦
      hread sign (by simp [signs, mem_listSigns ht h])
  | call _ _ ih ihargs =>
    exact .call (ih hplain.1 fun sign h ↦ hread sign (by simp [signs, h])) fun t ht ↦
      ihargs t ht (arePlain_iff.mp hplain.2 t ht) fun sign h ↦
        hread sign (by simp [signs, mem_listSigns ht h])
  | index _ _ ih ihkey =>
    exact (ih hplain.1 fun sign h ↦ hread sign (by simp [signs, h])).index
      (ihkey hplain.2 fun sign h ↦ hread sign (by simp [signs, h]))
  | member key hreceiver ih =>
    exact (ih hplain.1 fun sign h ↦ hread sign (by simp [signs, h])).member
      (hreceiver.goesOn_operand rfl hplain.2)
      ((hread ⟨.identifier, key⟩ (by simp [signs])).name rfl)
  | @unary operand op hfits ih =>
    have hoperand : ∀ sign ∈ operand.signs, sign.Readable :=
      fun sign h ↦ hread sign (by simp [signs, h])
    exact (ih hplain hoperand).unary op (hfits.isHole (by rintro ⟨⟩))
      (hfits.headFree (by rintro ⟨⟩) hoperand)
  | @binary _ op _ _ _ hleft hright ihleft ihright =>
    exact (ihleft hplain.1 fun sign h ↦ hread sign (by simp [signs, h])).binary op
      (hleft.isHole (by rintro ⟨⟩)) (ihright hplain.2 fun sign h ↦ hread sign (by simp [signs, h]))
      (hright.isHole (by rintro ⟨⟩))
  | conditional _ _ halternate ihtest ihconsequent ihalternate =>
    exact (ihtest hplain.1 fun sign h ↦ hread sign (by simp [signs, h])).conditional
      (ihconsequent hplain.2.1 fun sign h ↦ hread sign (by simp [signs, h]))
      (ihalternate hplain.2.2 fun sign h ↦ hread sign (by simp [signs, h]))
      (halternate.isHole (by rintro ⟨⟩))
  | spread hargument ih =>
    exact (ih hplain fun sign h ↦ hread sign (by simp [signs, h])).spread
      (hargument.isHole (by rintro ⟨⟩))
  | ofOperand _ ih | ofUnary _ ih | ofBinary _ ih | ofAssignment _ ih | ofItem _ ih =>
    exact ih hplain hread
  | hole => exact fun previous _ hprevious _ ↦ ⟨previous, .nil previous, hprevious, by rintro ⟨⟩⟩

end Term

end SignalView
