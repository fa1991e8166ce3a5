import SignalView.Proofs.Token.Brackets
import SignalView.Proofs.Token.Search

/-!
# Scans in a stretch of type arguments

The brackets of a stretch that the search passes over are mirrored by the surroundings of the scans
in it. Between type brackets every `<` and every `>` is one of them. Inside of braces a `<` is
scanned as in other code: it may open type brackets again, it may be a comparison, whose `>` is one
too, or it may open a tag.
-/

namespace SignalView

open Bracket

/-! ## Frames -/

/-- The brackets of a whole stretch that are open at a place behind the `<` of type arguments, with
the surroundings that a run has there: parentheses and square brackets leave no trace, and in braces
an angle bracket leaves none when it is read as a comparison. -/
inductive Surrounding.Frames (whole : Bytes) (outer : List Surrounding) :
    List Bracket → List Surrounding → Prop
  | base : Frames whole outer [] (.typeBrackets 1 :: outer)
  | paren {pending : List Bracket} {surroundings : List Surrounding} :
    Frames whole outer pending surroundings → Frames whole outer (.paren :: pending) surroundings
  | square {pending : List Bracket} {surroundings : List Surrounding} :
    Frames whole outer pending surroundings → Frames whole outer (.square :: pending) surroundings
  | curly {pending : List Bracket} {surroundings : List Surrounding} :
    Quoted.openBrace ∈ whole → Frames whole outer pending surroundings →
      Frames whole outer (.curly :: pending) (.brace :: surroundings)
  | deeper {pending : List Bracket} {depth : Nat} {surroundings : List Surrounding} :
    Frames whole outer pending (.typeBrackets depth :: surroundings) →
      Frames whole outer (.angle :: pending) (.typeBrackets (depth + 1) :: surroundings)
  | opened {pending : List Bracket} {surroundings : List Surrounding} :
    Frames whole outer pending (.brace :: surroundings) →
      Frames whole outer (.angle :: pending) (.typeBrackets 1 :: .brace :: surroundings)
  | compared {pending : List Bracket} {surroundings : List Surrounding} :
    Frames whole outer pending (.brace :: surroundings) →
      Frames whole outer (.angle :: pending) (.brace :: surroundings)

namespace Surrounding.Frames

variable {whole : Bytes} {outer surroundings : List Surrounding} {pending : List Bracket}
  {state : State}

theorem depth_pos {depth : Nat}
    (h : Frames whole outer pending (.typeBrackets depth :: surroundings)) : 0 < depth := by
  generalize hs : Surrounding.typeBrackets depth :: surroundings = all at h
  induction h generalizing depth surroundings with
  | base =>
    cases hs
    exact Nat.one_pos
  | paren _ ih | square _ ih => exact ih hs
  | deeper _ _ =>
    cases hs
    exact Nat.succ_pos _
  | opened _ _ =>
    cases hs
    exact Nat.one_pos
  | curly _ _ _ | compared _ _ => cases hs

/-- The innermost surroundings are type brackets or a brace. -/
theorem top (h : Frames whole outer pending surroundings) :
    (∃ depth below, surroundings = .typeBrackets depth :: below) ∨
      ∃ below, surroundings = .brace :: below := by
  induction h with
  | base | deeper _ _ | opened _ _ => exact .inl ⟨_, _, rfl⟩
  | curly _ _ _ | compared _ _ => exact .inr ⟨_, rfl⟩
  | paren _ ih | square _ ih => exact ih

/-- An open brace stands in the stretch and is still to be closed. -/
theorem of_brace (h : Frames whole outer pending (.brace :: surroundings)) :
    Quoted.openBrace ∈ whole ∧ pending ≠ [] := by
  generalize hs : Surrounding.brace :: surroundings = all at h
  induction h generalizing surroundings with
  | curly hbrace _ _ => exact ⟨hbrace, List.cons_ne_nil _ _⟩
  | paren _ ih | square _ ih => exact ⟨(ih hs).1, List.cons_ne_nil _ _⟩
  | compared _ ih => exact ⟨(ih rfl).1, List.cons_ne_nil _ _⟩
  | base | deeper _ _ | opened _ _ => cases hs

/-- A parenthesis or a square bracket leaves the surroundings as they are. -/
theorem step_round {b : UInt8} (hb : b ∈ [byte '(', byte ')', byte '[', byte ']'])
    (h : Frames whole outer pending surroundings) (hstep : stepCode pending b = some state) :
    state.mode = .code ∧ Frames whole outer state.pending surroundings := by
  simp only [List.mem_cons, List.not_mem_nil, or_false] at hb
  rcases hb with rfl | rfl | rfl | rfl
  · cases hstep
    exact ⟨rfl, .paren h⟩
  · have hclose : close .paren pending = some state := hstep
    cases h with
    | paren h =>
      cases hclose
      exact ⟨rfl, h⟩
    | _ => cases hclose
  · cases hstep
    exact ⟨rfl, .square h⟩
  · have hclose : close .square pending = some state := hstep
    cases h with
    | square h =>
      cases hclose
      exact ⟨rfl, h⟩
    | _ => cases hclose

/-- The modes outside of literals. -/
def isCodeMode (mode : Mode) : Prop := mode = .code ∨ mode = .equals

/-- In a brace, the bytes of comparisons leave the surroundings as they are. -/
theorem step_comparison {b : UInt8} {mode : Mode} (hb : b ∈ [byte '<', byte '>', byte '='])
    (h : Frames whole outer pending (.brace :: surroundings)) (hmode : isCodeMode mode)
    (hstep : step ⟨mode, pending⟩ b = some state) :
    isCodeMode state.mode ∧ Frames whole outer state.pending (.brace :: surroundings) := by
  simp only [List.mem_cons, List.not_mem_nil, or_false] at hb
  rcases hb with rfl | rfl | rfl
  · rcases hmode with rfl | rfl
    all_goals
      cases hstep
      exact ⟨.inl rfl, .compared h⟩
  · rcases hmode with rfl | rfl
    · have hclose : close .angle pending = some state := hstep
      cases h with
      | compared h =>
        cases hclose
        exact ⟨.inl rfl, h⟩
      | _ => cases hclose
    · cases hstep
      exact ⟨.inl rfl, h⟩
  · rcases hmode with rfl | rfl
    all_goals
      cases hstep
      exact ⟨.inr rfl, h⟩

theorem read_comparisons {text : Bytes} {mode : Mode}
    (htext : ∀ b ∈ text, b ∈ [byte '<', byte '>', byte '='])
    (h : Frames whole outer pending (.brace :: surroundings)) (hmode : isCodeMode mode)
    (hread : read ⟨mode, pending⟩ text = some state) :
    isCodeMode state.mode ∧ Frames whole outer state.pending (.brace :: surroundings) := by
  induction text generalizing mode pending with
  | nil =>
    cases hread
    exact ⟨hmode, h⟩
  | cons b text ih =>
    obtain ⟨hb, htext⟩ := List.forall_mem_cons.mp htext
    rw [read_cons] at hread
    obtain ⟨next, hstep, hread⟩ := Option.bind_eq_some_iff.mp hread
    obtain ⟨hmode, h⟩ := h.step_comparison hb hmode hstep
    exact ih htext h hmode hread

end Surrounding.Frames

/-! ## Places in a stretch -/

namespace Angle

/-- What the search and the run read differently: escapes and substitutions, which the search does
not know, and an equals sign that belongs to an operator in front of a `>`. -/
def unclear : List Bytes :=
  [[Quoted.backslash], bytes "$\x7b", bytes "-=>", bytes "&=>", bytes "|=>", bytes "?=>"]

def IsClear (stretch : Bytes) : Prop := ∀ piece ∈ unclear, ¬ piece <:+: stretch

instance (stretch : Bytes) : Decidable (IsClear stretch) :=
  inferInstanceAs (Decidable (∀ piece ∈ unclear, ¬ piece <:+: stretch))

theorem IsClear.mono {part whole : Bytes} (h : IsClear whole) (hpart : part <:+: whole) :
    IsClear part :=
  fun piece hpiece hin ↦ h piece hpiece (hin.trans hpart)

theorem IsClear.backslash {stretch : Bytes} (h : IsClear stretch) :
    Quoted.backslash ∉ stretch := by
  intro hmem
  obtain ⟨front, back, rfl⟩ := List.append_of_mem hmem
  exact h [Quoted.backslash] (by decide) ⟨front, back, by simp⟩

/-- A place of a run in a whole stretch, by what lies ahead of it in the stretch. Behind an equals
sign there is no `>`, unless a brace is open, where it is part of a comparison. -/
structure Place (whole : Bytes) (outer : List Surrounding) (pending : List Bracket)
    (surroundings : List Surrounding) (stretch : Bytes) : Prop where
  inside : stretch <:+ whole
  frames : Surrounding.Frames whole outer pending surroundings
  passed : ∃ last, Passed last stretch
  clear : IsClear stretch
  read_eq : ∃ mode, (mode = .code ∨ mode = .equals ∧ ∃ below, surroundings = .brace :: below) ∧
    read ⟨mode, pending⟩ stretch = some {}

theorem read_of_equals {pending : List Bracket} {stretch : Bytes}
    (hhead : stretch.head? ≠ some (byte '>')) (h : read ⟨.equals, pending⟩ stretch = some {}) :
    read ⟨.code, pending⟩ stretch = some {} := by
  cases stretch with
  | nil => cases h
  | cons b rest =>
    have hb : ¬ (b == byte '>') = true := by simpa using hhead
    have hstep : step ⟨.equals, pending⟩ b = step ⟨.code, pending⟩ b := if_neg hb
    rwa [read_cons, hstep, ← read_cons] at h

namespace Place

variable {whole stretch text rest : Bytes} {outer surroundings : List Surrounding}
  {pending : List Bracket}

theorem read_code (h : Place whole outer pending surroundings stretch)
    (hhead : stretch.head? ≠ some (byte '>')) : read ⟨.code, pending⟩ stretch = some {} := by
  obtain ⟨mode, rfl | ⟨rfl, -⟩, hread⟩ := h.read_eq
  · exact hread
  · exact read_of_equals hhead hread

theorem read_code_cons {b : UInt8} (h : Place whole outer pending surroundings (b :: rest))
    (hb : b ≠ byte '>') : read ⟨.code, pending⟩ (b :: rest) = some {} :=
  h.read_code fun hhead ↦ hb (Option.some.inj hhead)

theorem behind (h : Place whole outer pending surroundings (text ++ rest))
    (htext : IsBracketed text) (hhead : (text ++ rest).head? ≠ some (byte '>'))
    (hpassed : ∃ last, Passed last rest) : Place whole outer pending surroundings rest where
  inside := (List.suffix_append text rest).trans h.inside
  frames := h.frames
  passed := hpassed
  clear := h.clear.mono (List.suffix_append text rest).isInfix
  read_eq := ⟨.code, .inl rfl, by
    rw [← h.read_code hhead, read_append_of (htext.read_eq pending)]⟩

/-- Behind one byte that opens no quoted text. -/
theorem behind_byte {b : UInt8} {inner : List Surrounding} {mode : Mode} {open_ : List Bracket}
    (h : Place whole outer pending surroundings (b :: rest)) (hb : isQuote b = false)
    (hframes : Surrounding.Frames whole outer open_ inner)
    (hmode : mode = .code ∨ mode = .equals ∧ ∃ below, inner = .brace :: below)
    (hread : read ⟨mode, open_⟩ rest = some {}) : Place whole outer open_ inner rest where
  inside := (List.suffix_cons b rest).trans h.inside
  frames := hframes
  passed := by
    obtain ⟨last, hpassed⟩ := h.passed
    exact ⟨b, (hpassed.of_cons hb).2.2⟩
  clear := h.clear.mono (List.suffix_cons b rest).isInfix
  read_eq := ⟨mode, hmode, hread⟩

end Place

end Angle

theorem of_isSpace (b : UInt8) (h : Byte.isSpace b = true) : IsBracketed [b] ∧
    some b ≠ some (byte '>') ∧ Angle.isQuote b = false := by
  have hall : ∀ b, Byte.isSpace b = true →
      stepCode [] b = some {} ∧ b ≠ byte '>' ∧ Angle.isQuote b = false :=
    Literal.forall_byte (by decide +kernel)
  obtain ⟨hstep, hne, hquote⟩ := hall b h
  exact ⟨.of_forall (by simpa using hstep), fun hsome ↦ hne (Option.some.inj hsome), hquote⟩

/-! ## Scans in a stretch -/

/-- The faults of strings and numbers. -/
def LexicalFault.isMalformedLiteral : LexicalFault → Bool
  | .unterminatedString | .missingDigits _ | .identifierAfterNumber _ => true
  | _ => false

namespace Scan

open Angle Literal

/-- What a scan in a stretch comes to: a literal is malformed, a tag is opened in a brace, or the
scan takes a token and leaves a place further on. -/
inductive Takes (whole : Bytes) (outer : List Surrounding) (stretch : Bytes) : Scanned → Prop
  | malformed {cause : LexicalFault} {length : Nat} {surroundings : List Surrounding} :
    cause.isMalformedLiteral = true → Takes whole outer stretch ⟨.fault cause length, surroundings⟩
  | tag {below : List Surrounding} : Quoted.openBrace ∈ whole →
    Takes whole outer stretch ⟨markToken .tagOpen, .tag false :: .brace :: below⟩
  | token {kind : TokenKind} {value text rest : Bytes} {pending : List Bracket}
    {surroundings : List Surrounding} : text ≠ [] → stretch = text ++ rest →
    Angle.Place whole outer pending surroundings rest →
      Takes whole outer stretch ⟨.token kind value text.length, surroundings⟩

variable {outer surroundings : List Surrounding} {pending : List Bracket}
  {whole stretch text rest behind : Bytes}

theorem Takes.mark {m : Mark} {open_ : List Bracket} {inner : List Surrounding}
    (h : Angle.Place whole outer open_ inner rest) (hstretch : stretch = bytes m.text ++ rest) :
    Takes whole outer stretch ⟨markToken m, inner⟩ := by
  have hne : bytes m.text ≠ [] := by cases m <;> decide
  have htakes : Takes whole outer stretch
      ⟨.token (.mark m) (bytes m.text) (bytes m.text).length, inner⟩ := .token hne hstretch h
  have hlength : (bytes m.text).length = m.text.length := by simp [bytes, String.length_toList]
  rwa [hlength] at htakes

/-- What stands in front of the `>` behind a stretch reaches beyond it only with that `>`. -/
theorem isPrefix_or_exists (h : text <+: stretch ++ byte '>' :: behind) :
    text <+: stretch ∨ ∃ more, text = stretch ++ byte '>' :: more := by
  rcases List.prefix_or_prefix_of_prefix h (List.prefix_append stretch _) with hin | ⟨more, rfl⟩
  · exact .inl hin
  · cases more with
    | nil => exact .inl (by simp)
    | cons b more =>
      obtain ⟨rfl, -⟩ := List.cons_prefix_cons.mp ((List.prefix_append_right_inj stretch).mp h)
      exact .inr ⟨more, rfl⟩

theorem isPrefix_of_not_mem (h : text <+: stretch ++ byte '>' :: behind)
    (hmem : byte '>' ∉ text) : text <+: stretch := by
  rcases isPrefix_or_exists h with hin | ⟨more, rfl⟩
  · exact hin
  · exact absurd (by simp) hmem

/-- Bytes that change nothing, neither in brackets nor to the search. -/
theorem of_stepCode (b : UInt8) : stepCode [] b = some {} →
    isQuote b = false ∧ b ≠ byte '>' := by
  revert b
  exact forall_byte (by decide +kernel)

/-- A token without brackets and quotes. -/
theorem takes_plain {kind : TokenKind} {value : Bytes}
    (h : Angle.Place whole outer pending surroundings stretch) (hne : text ≠ [])
    (htext : text <+: stretch ++ byte '>' :: behind)
    (hplain : ∀ b ∈ text, stepCode [] b = some {}) :
    Takes whole outer stretch ⟨.token kind value text.length, surroundings⟩ := by
  have hmem : byte '>' ∉ text := fun hmem ↦ (of_stepCode _ (hplain _ hmem)).2 rfl
  obtain ⟨rest, rfl⟩ := isPrefix_of_not_mem htext hmem
  refine .token hne rfl (h.behind (.of_forall hplain) ?_ ?_)
  · obtain ⟨b, text, rfl⟩ := List.exists_cons_of_ne_nil hne
    intro hhead
    obtain rfl : b = byte '>' := Option.some.inj hhead
    exact hmem List.mem_cons_self
  · obtain ⟨last, hpassed⟩ := h.passed
    exact hpassed.behind fun b hb ↦ (of_stepCode b (hplain b hb)).1

/-! ### Numbers and names -/

theorem isMalformedLiteral_of_scanNumber {text : Bytes} {cause : LexicalFault} {length : Nat}
    (h : scanNumber text = .fault cause length) : cause.isMalformedLiteral = true := by
  have hend {kind : TokenKind} {number after : Bytes}
      (h : endNumber kind number after = .fault cause length) :
      cause.isMalformedLiteral = true := by
    unfold endNumber at h
    split at h
    · cases h
      rfl
    · cases h
  have hdecimal {text : Bytes} (h : scanDecimal text = .fault cause length) :
      cause.isMalformedLiteral = true := by
    unfold scanDecimal at h
    dsimp only at h
    split at h
    · cases h
    · exact hend h
  unfold scanNumber at h
  split at h
  · split at h
    · unfold scanBased at h
      dsimp only at h
      split at h
      · split at h
        · cases h
        · exact hend h
      · cases h
        rfl
    · exact hdecimal h
  · exact hdecimal h

theorem takes_number (h : Angle.Place whole outer pending surroundings stretch)
    (hstarts : startsNumber (stretch ++ byte '>' :: behind) = true) :
    Takes whole outer stretch ⟨scanNumber (stretch ++ byte '>' :: behind), surroundings⟩ := by
  have hreads : (scanNumber (stretch ++ byte '>' :: behind)).Reads false _ :=
    scanNumber_reads hstarts
  cases hscan : scanNumber (stretch ++ byte '>' :: behind) with
  | fault cause length => exact .malformed (isMalformedLiteral_of_scanNumber hscan)
  | token kind value length =>
    rw [hscan] at hreads
    obtain ⟨hpos, hle, hspells⟩ := hreads
    have htake : (stretch ++ byte '>' :: behind).take length = value := by
      rcases scanNumber_kind hscan with rfl | rfl <;> exact hspells
    have hlength : value.length = length := by rw [← htake, List.length_take_of_le hle]
    rw [← hlength]
    have hprefix : value <+: stretch ++ byte '>' :: behind := htake ▸ List.take_prefix _ _
    refine takes_plain h ?_ hprefix fun b hb ↦ ?_
    · exact List.ne_nil_of_length_pos (hlength ▸ hpos)
    · exact isPlain_of_isNumberByte b (all_scanNumber hscan b hb)

/-- Where no backslash stands, a name reaches as far as its bytes do. -/
theorem take_nameLength (hslash : Quoted.backslash ∉ stretch) (behind : Bytes) :
    (stretch ++ byte '>' :: behind).take (nameLength 0 (stretch ++ byte '>' :: behind)) =
      stretch.takeWhile Byte.isIdentifierPart := by
  induction stretch with
  | nil => rfl
  | cons b stretch ih =>
    obtain ⟨hb, hslash⟩ := not_or.mp (fun h ↦ hslash (List.mem_cons.mpr h))
    rw [List.cons_append, nameLength]
    by_cases hpart : Byte.isIdentifierPart b = true
    · rw [if_pos hpart, List.take_succ_cons, ih hslash, List.takeWhile_cons_of_pos hpart]
    · have hescape : (b == Quoted.backslash) = false := beq_false_of_ne (Ne.symm hb)
      rw [if_neg hpart, hescape, Bool.false_and, if_neg Bool.false_ne_true, List.take_zero,
        List.takeWhile_cons_of_neg hpart]

theorem takes_name {b : UInt8} (h : Angle.Place whole outer pending surroundings (b :: rest))
    (hb : Byte.isIdentifierStart b = true) (afterDot : Bool) :
    Takes whole outer (b :: rest)
      ⟨scanName afterDot (b :: rest ++ byte '>' :: behind), surroundings⟩ := by
  have hlead : ((b :: rest ++ byte '>' :: behind).head? == some (byte '#')) = false := by
    rw [List.cons_append, List.head?_cons]
    apply beq_false_of_ne
    rintro ⟨⟩
    cases hb
  have hpart : Byte.isIdentifierPart b = true := by rw [Byte.isIdentifierPart, hb, Bool.true_or]
  have htake := take_nameLength h.clear.backslash behind
  have hlength : ((b :: rest).takeWhile Byte.isIdentifierPart).length =
      nameLength 0 (b :: rest ++ byte '>' :: behind) := by
    rw [← htake, List.length_take_of_le (nameLength_le 0 _)]
  have hplain : ∀ kind value, Takes whole outer (b :: rest) ⟨.token kind value
      (nameLength 0 (b :: rest ++ byte '>' :: behind)), surroundings⟩ := by
    intro kind value
    rw [← hlength]
    have hprefix : (b :: rest).takeWhile Byte.isIdentifierPart <+:
        b :: rest ++ byte '>' :: behind := (List.takeWhile_prefix _).trans (List.prefix_append _ _)
    refine takes_plain h ?_ hprefix fun c hc ↦ ?_
    · rw [List.takeWhile_cons_of_pos hpart]
      exact List.cons_ne_nil _ _
    · apply isPlain_of_isNumberByte
      rw [isNumberByte, List.mem_takeWhile_imp hc]
      rfl
  unfold scanName
  rw [hlead]
  simp only [Bool.false_eq_true, if_false, Nat.zero_add, List.drop_zero]
  split
  · exact hplain _ _
  · exact hplain _ _

/-! ### Quoted texts -/

theorem stringBody_append {quote : UInt8} {body : Bytes} (hquote : quote ∉ body)
    (hslash : Quoted.backslash ∉ body) (value : Bytes) (length : Nat) (after : Bytes) :
    (∃ length', stringBody quote 0 value length (body ++ quote :: after) =
        .fault .unterminatedString length') ∨
      stringBody quote 0 value length (body ++ quote :: after) =
        .token .string (value ++ body) (length + body.length + 1) := by
  induction body generalizing value length with
  | nil =>
    right
    rw [List.nil_append, stringBody, if_pos (beq_self_eq_true quote), List.append_nil]
    rfl
  | cons b body ih =>
    obtain ⟨hb, hquote⟩ := not_or.mp (fun h ↦ hquote (List.mem_cons.mpr h))
    obtain ⟨hb', hslash⟩ := not_or.mp (fun h ↦ hslash (List.mem_cons.mpr h))
    rw [List.cons_append, stringBody, if_neg (by simpa using Ne.symm hb)]
    by_cases hline : (b == 10) = true
    · rw [if_pos hline]
      exact .inl ⟨_, rfl⟩
    · rw [if_neg hline, if_neg (by simpa using Ne.symm hb')]
      have hrest := ih hquote hslash (value ++ [b]) (length + 1)
      rw [List.append_assoc, List.singleton_append] at hrest
      have hlength : length + (b :: body).length + 1 = length + 1 + body.length + 1 := by
        rw [List.length_cons]
        omega
      rwa [hlength]

/-- A template without backslashes and substitutions is read as a whole. -/
theorem templateBody_append {body : Bytes} (hquote : Quoted.backtick ∉ body)
    (hslash : Quoted.backslash ∉ body) (hhole : ¬ bytes "$\x7b" <:+: body) (raw : Bytes)
    (length : Nat) (after : Bytes) :
    templateBody false raw length (body ++ Quoted.backtick :: after) =
      .token (.template .whole) (raw ++ body) (length + body.length + 1) := by
  induction body generalizing raw length with
  | nil =>
    rw [List.append_nil]
    cases after <;> rfl
  | cons b body ih =>
    obtain ⟨hb, hquote⟩ := not_or.mp (fun h ↦ hquote (List.mem_cons.mpr h))
    obtain ⟨hb', hslash⟩ := not_or.mp (fun h ↦ hslash (List.mem_cons.mpr h))
    have hrest := ih hquote hslash (fun h ↦ hhole (h.trans (List.suffix_cons b body).isInfix))
      (raw ++ [b]) (length + 1)
    have hlength : length + (b :: body).length + 1 = length + 1 + body.length + 1 := by
      rw [List.length_cons]
      omega
    rw [List.append_assoc, List.singleton_append] at hrest
    rw [hlength, ← hrest]
    obtain ⟨c, more, hmore⟩ : ∃ c more, body ++ Quoted.backtick :: after = c :: more := by
      cases body <;> exact ⟨_, _, rfl⟩
    have hdollar : ¬ (b == byte '$' && c == Quoted.openBrace) = true := by
      intro hboth
      obtain ⟨rfl, rfl⟩ : b = byte '$' ∧ c = Quoted.openBrace := by simpa using hboth
      cases body with
      | nil => cases hmore
      | cons d body =>
        obtain ⟨rfl, -⟩ := List.cons.inj hmore
        exact hhole ⟨[], body, rfl⟩
    rw [List.cons_append, hmore, templateBody,
      if_neg (by simpa using Ne.symm hb), if_neg hdollar, if_neg (by simpa using Ne.symm hb')]

/-- A quoted text without escapes and substitutions. -/
theorem isBracketed_quote {quote : UInt8} {body : Bytes} (h : isQuote quote = true)
    (hquote : quote ∉ body) (hslash : Quoted.backslash ∉ body)
    (hhole : ¬ bytes "$\x7b" <:+: body) : IsBracketed (quote :: (body ++ [quote])) := by
  by_cases htick : quote = Quoted.backtick
  · subst htick
    have hraw : IsRaw body := isRaw_of_templateBody
      (templateBody_append hquote hslash hhole [] 0 []) (.inl rfl)
    have hclosed := hraw.open.closed
    rwa [List.append_assoc] at hclosed
  · have hmem : quote = Quoted.doubleQuote ∨ quote = Quoted.singleQuote := by
      simpa [isQuote, htick] using h
    have hbody : read ⟨.quoted quote, []⟩ body = some ⟨.quoted quote, []⟩ := by
      clear hhole
      induction body with
      | nil => rfl
      | cons b body ih =>
        obtain ⟨hb, hquote⟩ := not_or.mp (fun h ↦ hquote (List.mem_cons.mpr h))
        obtain ⟨hb', hslash⟩ := not_or.mp (fun h ↦ hslash (List.mem_cons.mpr h))
        have hstep : step ⟨.quoted quote, []⟩ b = some ⟨.quoted quote, []⟩ := by
          simp only [step]
          rw [if_neg (by simpa using Ne.symm hb'), if_neg (by simpa using Ne.symm hb)]
        rw [read_cons, hstep]
        exact ih hquote hslash
    have hopen : read {} [quote] = some ⟨.quoted quote, []⟩ := by
      rcases hmem with rfl | rfl <;> rfl
    have hclose : read ⟨.quoted quote, []⟩ [quote] = some {} := by
      rcases hmem with rfl | rfl <;> rfl
    rw [IsBracketed, ← List.singleton_append, read_append_of hopen, read_append_of hbody]
    exact hclose

theorem quote_of_place {b : UInt8} (h : Angle.Place whole outer pending surroundings (b :: rest))
    (hb : isQuote b = true) :
    ∃ body after, rest = body ++ b :: after ∧ b ∉ body ∧ Quoted.backslash ∉ body ∧
      ¬ bytes "$\x7b" <:+: body ∧ Angle.Place whole outer pending surroundings after := by
  obtain ⟨last, hpassed⟩ := h.passed
  obtain ⟨body, after, rfl, hbody, hafter⟩ := hpassed.of_quote hb
  have hclear : IsClear body := h.clear.mono ⟨[b], b :: after, by simp⟩
  have hhole : ¬ bytes "$\x7b" <:+: body := hclear _ (by decide)
  have hne : b ≠ byte '>' := by
    rintro rfl
    cases hb
  have hsplit : b :: (body ++ b :: after) = b :: (body ++ [b]) ++ after := by simp
  refine ⟨body, after, rfl, hbody, hclear.backslash, hhole, ?_⟩
  rw [hsplit] at h
  refine h.behind (isBracketed_quote hb hbody hclear.backslash hhole) ?_ ⟨b, hafter⟩
  simpa using hne

theorem takes_string {b : UInt8} (h : Angle.Place whole outer pending surroundings (b :: rest))
    (hb : isQuote b = true) :
    Takes whole outer (b :: rest) ⟨scanString (b :: rest ++ byte '>' :: behind), surroundings⟩ := by
  obtain ⟨body, after, rfl, hbody, hslash, -, hafter⟩ := quote_of_place h hb
  rw [List.cons_append, List.append_assoc, scanString, List.cons_append]
  rcases stringBody_append hbody hslash [] 1 (after ++ byte '>' :: behind) with
    ⟨length, hfault⟩ | htoken
  · rw [hfault]
    exact .malformed rfl
  · have hlength : 1 + body.length + 1 = (b :: (body ++ [b])).length := by
      simp
      omega
    rw [htoken, hlength]
    exact .token (List.cons_ne_nil _ _) (by simp) hafter

theorem takes_template
    (h : Angle.Place whole outer pending surroundings (Quoted.backtick :: rest)) :
    Takes whole outer (Quoted.backtick :: rest)
      (template false surroundings (Quoted.backtick :: rest ++ byte '>' :: behind)) := by
  obtain ⟨body, after, rfl, hbody, hslash, hhole, hafter⟩ := quote_of_place h rfl
  have htoken := templateBody_append hbody hslash hhole [] 1 (after ++ byte '>' :: behind)
  have hlength : 1 + body.length + 1 =
      (Quoted.backtick :: (body ++ [Quoted.backtick])).length := by
    simp
    omega
  rw [List.cons_append, List.append_assoc, List.cons_append, template, scanTemplate,
    List.drop_succ_cons, List.drop_zero, htoken, hlength]
  exact .token (List.cons_ne_nil _ _) (by simp) hafter

/-! ### Operators -/

/-- The marks that the scan of an operator gives. -/
def operatorMarks : List Mark := .question :: .questionDot :: operators

theorem isPrefix_of_operator {m : Mark} (hm : m ∈ operatorMarks)
    (h : operator text = markToken m) : bytes m.text <+: text := by
  obtain ⟨-, -, hspells⟩ : (markToken m).Reads _ text := h ▸ (operator_sound [] text).reads
  have htake : text.take m.text.length = bytes m.text := by
    cases m <;> first | exact hspells | exact absurd hm (by decide)
  rw [← htake]
  exact List.take_prefix _ _

theorem exists_single (b : UInt8) : (bytes "()[];,:.&|=-<>").contains b = true →
    (operators.any fun m ↦ bytes m.text == [b]) = true := by
  have hall : ((bytes "()[];,:.&|=-<>").all fun b ↦
      operators.any fun m ↦ bytes m.text == [b]) = true := by
    decide
  exact fun hb ↦ List.all_eq_true.mp hall b (List.contains_iff_mem.mp hb)

/-- Where an operator starts, the scan finds one. -/
theorem exists_operator {b : UInt8} (hb : (bytes "()[];,:.&|=-<>?").contains b = true)
    (rest : Bytes) : ∃ m ∈ operatorMarks, operator (b :: rest) = markToken m ∧
      bytes m.text <+: b :: rest := by
  suffices h : ∃ m ∈ operatorMarks, operator (b :: rest) = markToken m by
    obtain ⟨m, hm, hmark⟩ := h
    exact ⟨m, hm, hmark, isPrefix_of_operator hm hmark⟩
  unfold operator
  dsimp only
  split
  · exact ⟨_, by decide, rfl⟩
  split
  · exact ⟨_, by decide, rfl⟩
  next hdot hquestion =>
  split
  · next m hfind =>
    have hmem := List.mem_of_find?_eq_some hfind
    exact ⟨m, List.mem_cons_of_mem _ (List.mem_cons_of_mem _ hmem), rfl⟩
  · next hnone =>
    rw [List.find?_eq_none] at hnone
    by_cases hmark : b = byte '?'
    · subst hmark
      have hnext : rest[0]? = some (byte '?') := by simpa using hquestion
      rw [← List.head?_eq_getElem?] at hnext
      obtain ⟨more, rfl⟩ := List.head?_eq_some_iff.mp hnext
      exact absurd rfl (hnone .nullish (by decide))
    · have hcontains : (bytes "()[];,:.&|=-<>").contains b = true := by
        have hmem : b ∈ bytes "()[];,:.&|=-<>" ++ [byte '?'] := List.contains_iff_mem.mp hb
        rcases List.mem_append.mp hmem with hmem | hmem
        · exact List.contains_iff_mem.mpr hmem
        · exact absurd (List.mem_singleton.mp hmem) hmark
      obtain ⟨m, hm, hsingle⟩ := List.any_eq_true.mp (exists_single b hcontains)
      refine absurd ?_ (hnone m hm)
      rw [beq_iff_eq.mp hsingle]
      simp

/-- The operators that end with an equals sign behind something else than one. -/
def joinsEquals (m : Mark) : Bool :=
  [Mark.nullishAssign, .andAssign, .orAssign, .minusAssign, .andBitsAssign,
    .orBitsAssign].contains m

theorem exists_of_joinsEquals {m : Mark} (h : joinsEquals m = true) :
    ∃ front x, bytes m.text = front ++ [x, byte '='] ∧ [x, byte '=', byte '>'] ∈ unclear ∧
      read {} (bytes m.text) = some ⟨.equals, []⟩ := by
  cases m
  case nullishAssign => exact ⟨bytes "?", byte '?', rfl, by decide, rfl⟩
  case andAssign => exact ⟨bytes "&", byte '&', rfl, by decide, rfl⟩
  case orAssign => exact ⟨bytes "|", byte '|', rfl, by decide, rfl⟩
  case minusAssign => exact ⟨[], byte '-', rfl, by decide, rfl⟩
  case andBitsAssign => exact ⟨[], byte '&', rfl, by decide, rfl⟩
  case orBitsAssign => exact ⟨[], byte '|', rfl, by decide, rfl⟩
  all_goals cases h

/-- The bytes with which the operators in a stretch start, those of comparisons apart. -/
def opensOperator (b : UInt8) : Bool := (bytes "()[];,:.&|=-?").contains b

theorem of_opensOperator (b : UInt8) : opensOperator b = true →
    (bytes "()[];,:.&|=-<>?").contains b = true ∧ isQuote b = false ∧ b ≠ byte '>' := by
  have hall : ((bytes "()[];,:.&|=-?").all fun b ↦
      (bytes "()[];,:.&|=-<>?").contains b && !isQuote b && b != byte '>') = true := by
    decide
  intro hb
  simpa [and_assoc] using List.all_eq_true.mp hall b (List.contains_iff_mem.mp hb)

/-- What the operators are made of: none has a quote, those that start with an angle bracket are
comparisons, and those in a stretch are single brackets, or have no brackets, or end with an equals
sign. -/
theorem operator_bytes : ∀ m ∈ operatorMarks,
    (∀ b ∈ bytes m.text, isQuote b = false) ∧
      ((bytes m.text).head?.getD 0 ∈ [byte '<', byte '>'] →
        ∀ b ∈ bytes m.text, b ∈ [byte '<', byte '>', byte '=']) ∧
      (opensOperator ((bytes m.text).head?.getD 0) = true →
        (byte '>' ∈ bytes m.text → m = .arrow) ∧
          ((∃ b ∈ [byte '(', byte ')', byte '[', byte ']'], bytes m.text = [b]) ∨
            IsBracketed (bytes m.text) ∨ m = .assign ∨ m = .eq ∨ m = .strictEq ∨
              joinsEquals m = true)) := by
  decide +kernel

theorem head?_of_isPrefix {b : UInt8} {m : Mark} (h : bytes m.text <+: b :: rest) :
    (bytes m.text).head?.getD 0 = b := by
  have hne : bytes m.text ≠ [] := by cases m <;> decide
  obtain ⟨c, more, hmore⟩ := List.exists_cons_of_ne_nil hne
  rw [hmore] at h ⊢
  exact (List.cons_prefix_cons.mp h).1

/-- A comparison in a brace. -/
theorem takes_comparison {b : UInt8} {below : List Surrounding}
    (h : Angle.Place whole outer pending (.brace :: below) (b :: rest))
    (hb : b ∈ [byte '<', byte '>']) :
    Takes whole outer (b :: rest)
      ⟨operator (b :: rest ++ byte '>' :: behind), .brace :: below⟩ := by
  have hcontains : (bytes "()[];,:.&|=-<>?").contains b = true := by
    simp only [List.mem_cons, List.not_mem_nil, or_false] at hb
    rcases hb with rfl | rfl <;> decide
  obtain ⟨m, hm, hoperator, hprefix⟩ := exists_operator hcontains (rest ++ byte '>' :: behind)
  rw [List.cons_append, hoperator]
  have hbytes := (operator_bytes m hm).2.1 (by rwa [head?_of_isPrefix hprefix])
  obtain ⟨mode, hmode, hread⟩ := h.read_eq
  have hcode : Surrounding.Frames.isCodeMode mode := hmode.imp id And.left
  have hprefix : bytes m.text <+: b :: rest ++ byte '>' :: behind := hprefix
  rcases isPrefix_or_exists hprefix with ⟨after, hafter⟩ | ⟨more, hmore⟩
  · rw [← hafter, read_append] at hread
    obtain ⟨⟨next, open_⟩, hnext, hread⟩ := Option.bind_eq_some_iff.mp hread
    obtain ⟨hcode, hframes⟩ := h.frames.read_comparisons hbytes hcode hnext
    obtain ⟨last, hpassed⟩ := h.passed
    rw [← hafter] at hpassed
    refine .mark ⟨?_, hframes, hpassed.behind (operator_bytes m hm).1, ?_, next, ?_, hread⟩
      hafter.symm
    · exact (hafter ▸ List.suffix_append _ after).trans h.inside
    · exact h.clear.mono (hafter ▸ List.suffix_append _ after).isInfix
    · exact hcode.imp id fun hequals ↦ ⟨hequals, below, rfl⟩
  · -- The operator would reach over the end, with all braces of the stretch closed before it.
    have hstretch : ∀ c ∈ b :: rest, c ∈ [byte '<', byte '>', byte '='] := by
      intro c hc
      apply hbytes
      rw [hmore]
      exact List.mem_append_left _ hc
    exact absurd rfl (h.frames.read_comparisons hstretch hcode hread).2.of_brace.2

/-- Two equals signs do not stand in a stretch. -/
theorem not_isPrefix_equals (h : Angle.Place whole outer pending surroundings (byte '=' :: rest)) :
    ¬ bytes "==" <+: byte '=' :: (rest ++ byte '>' :: behind) := by
  intro hprefix
  obtain ⟨last, hpassed⟩ := h.passed
  obtain ⟨-, hdouble, -⟩ := hpassed.of_cons rfl
  have hnext := (List.cons_prefix_cons.mp hprefix).2
  cases rest with
  | nil => exact absurd (List.cons_prefix_cons.mp hnext).1 (by decide)
  | cons c rest =>
    obtain ⟨rfl, -⟩ := List.cons_prefix_cons.mp hnext
    exact hdouble rfl rfl

/-- A stretch does not end with an equals sign. -/
theorem not_equals_end : ¬ Angle.Place whole outer pending surroundings [byte '='] := by
  intro h
  obtain ⟨last, hpassed⟩ := h.passed
  cases (hpassed.of_cons rfl).2.2 with
  | nil hlast => exact hlast rfl

/-- An operator that is no comparison reaches at most up to the end of the stretch. -/
theorem isPrefix_operator {m : Mark} {b : UInt8}
    (h : Angle.Place whole outer pending surroundings (b :: rest)) (hm : m ∈ operatorMarks)
    (hopens : opensOperator ((bytes m.text).head?.getD 0) = true)
    (hbegins : bytes m.text <+: b :: rest ++ byte '>' :: behind) :
    bytes m.text <+: b :: rest := by
  rcases isPrefix_or_exists hbegins with hin | ⟨more, hmore⟩
  · exact hin
  · have hmem : byte '>' ∈ bytes m.text := by rw [hmore]; simp
    obtain rfl := ((operator_bytes m hm).2.2 hopens).1 hmem
    obtain ⟨rfl, hrest⟩ := List.cons.inj (hmore : byte '=' :: [byte '>'] = _)
    cases rest with
    | nil => exact absurd h not_equals_end
    | cons c rest =>
      have hlength := congrArg List.length hrest
      simp at hlength

/-- An operator that is no comparison. -/
theorem takes_operator {b : UInt8} (h : Angle.Place whole outer pending surroundings (b :: rest))
    (hb : opensOperator b = true) :
    Takes whole outer (b :: rest)
      ⟨operator (b :: rest ++ byte '>' :: behind), surroundings⟩ := by
  obtain ⟨hcontains, hnoQuote, hclose⟩ := of_opensOperator b hb
  obtain ⟨m, hm, hoperator, hprefix⟩ := exists_operator hcontains (rest ++ byte '>' :: behind)
  have hhead := head?_of_isPrefix hprefix
  have hopens : opensOperator ((bytes m.text).head?.getD 0) = true := by rwa [hhead]
  obtain ⟨after, hafter⟩ := isPrefix_operator h hm hopens hprefix
  obtain ⟨last, hpassed⟩ := h.passed
  rw [← hafter] at hpassed
  have hbehind := hpassed.behind (operator_bytes m hm).1
  have hread := h.read_code_cons hclose
  rw [List.cons_append, hoperator]
  rcases ((operator_bytes m hm).2.2 hopens).2 with
    ⟨c, hc, htext⟩ | hplain | rfl | rfl | rfl | hjoins
  · obtain rfl : c = b := by rwa [htext] at hhead
    rw [read_cons] at hread
    obtain ⟨⟨mode, open_⟩, hnext, hread⟩ := Option.bind_eq_some_iff.mp hread
    obtain ⟨hmode, hframes⟩ := h.frames.step_round hc hnext
    exact .mark (h.behind_byte hnoQuote hframes (.inl hmode) hread) (by rw [htext]; rfl)
  · rw [← hafter] at h
    refine .mark (h.behind hplain ?_ hbehind) hafter.symm
    rw [hafter, List.head?_cons]
    exact fun hgreater ↦ hclose (Option.some.inj hgreater)
  · obtain rfl : byte '=' = b := hhead
    have hnext : rest.head? ≠ some (byte '>') := by
      intro hgreater
      obtain ⟨more, rfl⟩ := List.head?_eq_some_iff.mp hgreater
      have harrow : operator (byte '=' :: (byte '>' :: more ++ byte '>' :: behind)) =
          markToken .arrow := rfl
      rw [harrow] at hoperator
      exact absurd hoperator (by decide)
    have hread : read ⟨.equals, pending⟩ rest = some {} := hread
    exact .mark (h.behind_byte hnoQuote h.frames (.inl rfl) (read_of_equals hnext hread)) rfl
  · obtain rfl : byte '=' = b := hhead
    exact absurd hprefix (not_isPrefix_equals h)
  · obtain rfl : byte '=' = b := hhead
    have hdouble : bytes "==" <+: bytes Mark.strictEq.text := ⟨bytes "=", rfl⟩
    exact absurd (hdouble.trans hprefix) (not_isPrefix_equals h)
  · obtain ⟨front, x, htext, hunclear, hequals⟩ := exists_of_joinsEquals hjoins
    have hequals : read ⟨.code, pending⟩ (bytes m.text) = some ⟨.equals, pending⟩ :=
      read_within hequals pending
    rw [← hafter, read_append_of hequals] at hread
    have hnext : after.head? ≠ some (byte '>') := by
      intro hgreater
      obtain ⟨more, rfl⟩ := List.head?_eq_some_iff.mp hgreater
      refine h.clear _ hunclear ⟨front, more, ?_⟩
      rw [← hafter, htext]
      simp
    refine .mark ⟨?_, h.frames, hbehind, ?_, .code, .inl rfl, read_of_equals hnext hread⟩
      hafter.symm
    · exact (hafter ▸ List.suffix_append _ after).trans h.inside
    · exact h.clear.mono (hafter ▸ List.suffix_append _ after).isInfix

/-! ### Brackets -/

theorem takes_openBrace
    (h : Angle.Place whole outer pending surroundings (Quoted.openBrace :: rest)) :
    Takes whole outer (Quoted.openBrace :: rest)
      ⟨markToken .openBrace, .brace :: surroundings⟩ := by
  have hread : read ⟨.code, .curly :: pending⟩ rest = some {} := h.read_code_cons (by decide)
  have hbrace : Quoted.openBrace ∈ whole := h.inside.subset List.mem_cons_self
  exact .mark (h.behind_byte rfl (.curly hbrace h.frames) (.inl rfl) hread) rfl

theorem takes_closeBrace
    (h : Angle.Place whole outer pending surroundings (Quoted.closeBrace :: rest)) :
    Takes whole outer (Quoted.closeBrace :: rest)
      (closingBrace surroundings (Quoted.closeBrace :: rest ++ byte '>' :: behind)) := by
  have hread : (close .curly pending).bind (read · rest) = some {} := h.read_code_cons (by decide)
  have hframes := h.frames
  cases hframes with
  | curly _ hframes => exact .mark (h.behind_byte rfl hframes (.inl rfl) hread) rfl
  | _ => cases hread

theorem takes_less (h : Angle.Place whole outer pending surroundings (byte '<' :: rest))
    (previous : Option TokenKind) : Takes whole outer (byte '<' :: rest)
      (lessThan previous surroundings (byte '<' :: rest ++ byte '>' :: behind)) := by
  have hread : read ⟨.code, .angle :: pending⟩ rest = some {} := h.read_code_cons (by decide)
  rcases h.frames.top with ⟨depth, below, rfl⟩ | ⟨below, rfl⟩
  · exact .mark (h.behind_byte rfl (.deeper h.frames) (.inl rfl) hread) rfl
  · have hopened : Takes whole outer (byte '<' :: rest)
        ⟨markToken .typeOpen, .typeBrackets 1 :: .brace :: below⟩ :=
      .mark (h.behind_byte rfl (.opened h.frames) (.inl rfl) hread) rfl
    have hcompared : Takes whole outer (byte '<' :: rest)
        ⟨operator (byte '<' :: rest ++ byte '>' :: behind), .brace :: below⟩ :=
      takes_comparison h List.mem_cons_self
    unfold lessThan
    dsimp only
    split
    · split
      · exact hopened
      split
      · exact .tag h.frames.of_brace.1
      · exact hcompared
    split
    · exact hopened
    · exact hcompared

theorem takes_greater (h : Angle.Place whole outer pending surroundings (byte '>' :: rest)) :
    Takes whole outer (byte '>' :: rest)
      (greaterThan surroundings (byte '>' :: rest ++ byte '>' :: behind)) := by
  rcases h.frames.top with ⟨depth, below, rfl⟩ | ⟨below, rfl⟩
  · obtain ⟨mode, rfl | ⟨-, _, hbrace⟩, hread⟩ := h.read_eq
    · have hclose : (close .angle pending).bind (read · rest) = some {} := hread
      have hframes := h.frames
      cases hframes with
      | deeper hframes =>
        have hdepth := hframes.depth_pos
        rw [greaterThan, if_neg (by omega), Nat.add_sub_cancel]
        exact .mark (h.behind_byte rfl hframes (.inl rfl) hclose) rfl
      | opened hframes => exact .mark (h.behind_byte rfl hframes (.inl rfl) hclose) rfl
      | _ => cases hclose
    · cases hbrace
  · exact takes_comparison h (by decide)

/-! ### All scans -/

theorem opensOperator_of (b : UInt8) : isPassed b = true ∧ Byte.isIdentifierStart b = false ∧
    Byte.isDigit b = false ∧ Byte.isSpace b = false ∧ (b == Quoted.openBrace) = false ∧
      (b == Quoted.closeBrace) = false ∧ (b == byte '<') = false ∧ (b == byte '>') = false →
    opensOperator b = true := by
  revert b
  exact forall_byte (by decide +kernel)

/-- A scan of code in a stretch. -/
theorem takes_code {b : UInt8} (h : Angle.Place whole outer pending surroundings (b :: rest))
    (hspace : Byte.isSpace b = false) (previous : Option TokenKind) (behind : Bytes) :
    Takes whole outer (b :: rest)
      (code previous surroundings (b :: rest ++ byte '>' :: behind)) := by
  have hb : (b :: rest ++ byte '>' :: behind).head?.getD 0 = b := rfl
  have hpassed (hnoQuote : isQuote b = false) : isPassed b = true := by
    obtain ⟨last, hstretch⟩ := h.passed
    exact (hstretch.of_cons hnoQuote).1
  apply code_cases (motive := Takes whole outer (b :: rest)) hb
  case number => exact fun hnumber ↦ takes_number h hnumber
  case string =>
    intro hquote
    refine takes_string h ?_
    simp only [isQuote, Bool.or_eq_true, beq_iff_eq]
    exact .inl hquote
  case template =>
    rintro rfl
    exact takes_template h
  case name =>
    intro hquote hname
    have hpassed := hpassed (by simpa [isQuote, and_assoc] using hquote)
    refine takes_name h ?_ _
    simp only [List.cons_append, startsName, Bool.or_eq_true, Bool.and_eq_true,
      beq_iff_eq] at hname
    rcases hname with (hstart | ⟨rfl, -⟩) | ⟨rfl, -⟩
    · exact hstart
    · cases hpassed
    · cases hpassed
  case openBrace =>
    rintro rfl
    exact takes_openBrace h
  case closeBrace =>
    rintro rfl
    exact takes_closeBrace h
  case less =>
    rintro rfl
    exact takes_less h previous
  case greater =>
    rintro rfl
    exact takes_greater h
  case regex =>
    rintro rfl
    cases hpassed rfl
  case operator =>
    intro hnumber hname hother
    simp only [List.mem_cons, List.not_mem_nil, or_false, not_or] at hother
    obtain ⟨hdouble, hsingle, htick, hopen, hclose, hless, hgreater⟩ := hother
    have hpassed := hpassed (by simp [isQuote, hdouble, hsingle, htick])
    rw [List.cons_append, startsName, Bool.or_eq_false_iff, Bool.or_eq_false_iff] at hname
    rw [List.cons_append, startsNumber, Bool.or_eq_false_iff] at hnumber
    exact takes_operator h (opensOperator_of b ⟨hpassed, hname.1.1, hnumber.1, hspace,
      beq_false_of_ne hopen, beq_false_of_ne hclose, beq_false_of_ne hless,
      beq_false_of_ne hgreater⟩)

end Scan

end SignalView
