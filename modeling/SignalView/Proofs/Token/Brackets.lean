import SignalView.Proofs.Text.Brackets
import SignalView.Proofs.Token.Origin

/-!
# Brackets in tokens

Words and numbers hold no brackets, and the raw text of a template piece leaves its template open. A
name may hold anything inside of an escape with braces, and is the one kind of token that may upset
the brackets of a text.
-/

namespace SignalView

open Bracket

namespace Literal

/-! ## Numbers -/

/-- The bytes of numbers: digits, letters, separators, dots and the signs of exponents. -/
def isNumberByte (b : UInt8) : Bool :=
  Byte.isIdentifierPart b || b == byte '.' || b == byte '+' || b == byte '-'

theorem isNumberByte_of_isDigitOrSeparator {base : Nat} {b : UInt8}
    (h : isDigitOrSeparator base b = true) : isNumberByte b = true := by
  rw [isNumberByte, isIdentifierPart_of_isDigitOrSeparator h]
  rfl

theorem isNumberByte_of_baseOf (b : UInt8) : (baseOf b).isSome = true → isNumberByte b = true := by
  revert b
  exact forall_byte (by decide +kernel)

theorem all_takeWhile {p : UInt8 → Bool} (hp : ∀ b, p b = true → isNumberByte b = true)
    (rest : Bytes) : ∀ b ∈ rest.takeWhile p, isNumberByte b = true :=
  fun b hb ↦ hp b (List.mem_takeWhile_imp hb)

theorem all_decimalBody (seenDot : Bool) (rest : Bytes) :
    ∀ b ∈ (decimalBody seenDot rest).1, isNumberByte b = true := by
  induction rest generalizing seenDot with
  | nil => exact List.forall_mem_nil _
  | cons b rest ih =>
    simp only [decimalBody]
    split
    · next hdot =>
      split
      · exact List.forall_mem_nil _
      · obtain rfl := beq_iff_eq.mp hdot
        exact List.forall_mem_cons.mpr ⟨by decide, ih true⟩
    · split
      · next hdigit =>
        exact List.forall_mem_cons.mpr ⟨isNumberByte_of_isDigitOrSeparator hdigit, ih seenDot⟩
      · exact List.forall_mem_nil _

theorem all_exponent (rest : Bytes) : ∀ b ∈ exponent rest, isNumberByte b = true := by
  unfold exponent
  split
  · next e after =>
    split
    · next he =>
      dsimp only
      split
      · have hsign : ∀ b : UInt8, (b == byte '+' || b == byte '-') = true →
            isNumberByte b = true := by
          intro b hb
          rw [isNumberByte, Bool.or_assoc, hb, Bool.or_true]
        have hletter : isNumberByte e = true := by
          rcases Bool.or_eq_true_iff.mp he with h | h <;> rw [beq_iff_eq.mp h] <;> decide
        refine List.forall_mem_append.mpr ⟨List.forall_mem_cons.mpr ⟨hletter, ?_⟩, ?_⟩
        · exact fun b hb ↦ all_takeWhile hsign after b (List.mem_of_mem_take hb)
        · exact all_takeWhile (fun b ↦ isNumberByte_of_isDigitOrSeparator) _
      · exact List.forall_mem_nil _
    · exact List.forall_mem_nil _
  · exact List.forall_mem_nil _

theorem all_endNumber {kind kind' : TokenKind} {number after value : Bytes} {length : Nat}
    (hnumber : ∀ b ∈ number, isNumberByte b = true)
    (h : endNumber kind number after = .token kind' value length) :
    ∀ b ∈ value, isNumberByte b = true := by
  unfold endNumber at h
  split at h
  · cases h
  · cases h
    exact hnumber

theorem all_bigint {number : Bytes} (hnumber : ∀ b ∈ number, isNumberByte b = true) :
    ∀ b ∈ number ++ bytes "n", isNumberByte b = true :=
  List.forall_mem_append.mpr ⟨hnumber, List.forall_mem_singleton.mpr rfl⟩

theorem all_scanDecimal {rest value : Bytes} {kind : TokenKind} {length : Nat}
    (h : scanDecimal rest = .token kind value length) : ∀ b ∈ value, isNumberByte b = true := by
  unfold scanDecimal at h
  dsimp only at h
  have hnumber := List.forall_mem_append.mpr ⟨all_decimalBody false rest,
    all_exponent (rest.drop (decimalBody false rest).1.length)⟩
  split at h
  · cases h
    exact all_bigint hnumber
  · exact all_endNumber hnumber h

theorem all_scanNumber {rest value : Bytes} {kind : TokenKind} {length : Nat}
    (h : scanNumber rest = .token kind value length) : ∀ b ∈ value, isNumberByte b = true := by
  unfold scanNumber at h
  split at h
  · next zero letter digits =>
    split at h
    · next base hbase =>
      have hlead : isNumberByte zero = true ∧ isNumberByte letter = true := by
        split at hbase
        · next hzero =>
          rw [beq_iff_eq.mp hzero]
          exact ⟨by decide, isNumberByte_of_baseOf letter (by rw [hbase]; rfl)⟩
        · cases hbase
      have hnumber : ∀ b ∈ [zero, letter] ++ digits.takeWhile (isDigitOrSeparator base),
          isNumberByte b = true := by
        refine List.forall_mem_append.mpr ⟨by simpa using hlead, ?_⟩
        exact all_takeWhile (fun b ↦ isNumberByte_of_isDigitOrSeparator) digits
      unfold scanBased at h
      split at h
      · dsimp only at h
        split at h
        · cases h
          exact all_bigint hnumber
        · exact all_endNumber hnumber h
      · cases h
    · exact all_scanDecimal h
  · exact all_scanDecimal h

/-! ## Templates -/

/-- The raw text of a template piece leaves the template open. -/
theorem isRaw_of_templateBody {continued : Bool} {raw value text : Bytes} {length length' : Nat}
    {kind : TokenKind} (h : templateBody continued raw length text = .token kind value length')
    (hraw : read ⟨.template, []⟩ raw = some ⟨.template, []⟩ ∨
      read ⟨.template, []⟩ raw = some ⟨.dollar, []⟩ ∧ text.head? ≠ some Quoted.openBrace) :
    IsRaw value := by
  have hopen : IsRaw raw := hraw.imp_right And.left
  fun_induction templateBody continued raw length text with
  | case1 => cases h
  | case2 raw length b hb =>
    cases h
    exact hopen
  | case3 => cases h
  | case4 raw length b c rest hb =>
    cases h
    exact hopen
  | case5 raw length b c rest _ hb =>
    cases h
    exact hopen
  | case6 raw length b c rest hbacktick hdollar hb ih =>
    obtain rfl := beq_iff_eq.mp hb
    have hread : read ⟨.template, []⟩ (raw ++ [Quoted.backslash, c]) = some ⟨.template, []⟩ := by
      rw [read_append]
      rcases hraw with hraw | ⟨hraw, -⟩ <;> rw [hraw] <;> rfl
    exact ih h (.inl hread) (.inl hread)
  | case7 raw length b c rest hbacktick hdollar hb ih =>
    have hread : read ⟨.template, []⟩ (raw ++ [b]) = some (stepTemplate [] b) := by
      rw [read_append]
      rcases hraw with hraw | ⟨hraw, hbrace⟩
      · rw [hraw]
        rfl
      · have hstep : step ⟨.dollar, []⟩ b = some (stepTemplate [] b) :=
          if_neg (by simpa using hbrace)
        rw [hraw, Option.bind_some, read_cons, hstep]
        rfl
    rw [stepTemplate, if_neg hbacktick, if_neg hb] at hread
    split at hread
    · next heq => exact ih h (.inr ⟨hread, by simpa [heq] using hdollar⟩) (.inr hread)
    · exact ih h (.inl hread) (.inl hread)

end Literal

/-! ## Tokens -/

/-- Words and numbers are free of brackets, marks are written as they are, and template pieces are
raw text. -/
def Token.IsOrderly (token : Token) : Prop :=
  match token.kind with
  | .mark m => token.value = bytes m.text
  | .word _ | .number | .bigint => IsBracketed token.value
  | .template _ => IsRaw token.value
  | _ => True

theorem isPlain_of_isNumberByte (b : UInt8) :
    Literal.isNumberByte b = true → stepCode [] b = some {} := by
  revert b
  exact Literal.forall_byte (by decide +kernel)

theorem isBracketed_spelling (w : Word) : IsBracketed (bytes w.spelling) := by
  cases w <;> decide +kernel

namespace Scan

variable {previous : Option TokenKind} {surroundings : List Surrounding} {rest value : Bytes}
  {kind : TokenKind} {length : Nat}

theorem operator_kind (h : operator rest = .token kind value length) : ∃ m, kind = .mark m := by
  unfold operator at h
  dsimp only at h
  split at h
  · cases h
    exact ⟨_, rfl⟩
  split at h
  · cases h
    exact ⟨_, rfl⟩
  split at h
  · cases h
    exact ⟨_, rfl⟩
  · cases h

theorem lessThan_kind
    (h : (lessThan previous surroundings rest).lexeme = .token kind value length) :
    ∃ m, kind = .mark m := by
  unfold lessThan at h
  split at h
  · cases h
    exact ⟨_, rfl⟩
  dsimp only at h
  split at h
  · split at h
    · cases h
      exact ⟨_, rfl⟩
    split at h
    · cases h
      exact ⟨_, rfl⟩
    · exact operator_kind h
  split at h
  · cases h
    exact ⟨_, rfl⟩
  · exact operator_kind h

theorem greaterThan_kind (h : (greaterThan surroundings rest).lexeme = .token kind value length) :
    ∃ m, kind = .mark m := by
  unfold greaterThan at h
  split at h
  · cases h
    exact ⟨_, rfl⟩
  · exact operator_kind h

/-- A template piece comes from the scan of a template. -/
theorem isRaw_of_code {piece : TemplatePiece}
    (h : (code previous surroundings rest).lexeme = .token (.template piece) value length) :
    IsRaw value := by
  have hraw {continued : Bool} {outer : List Surrounding}
      (h : (template continued outer rest).lexeme = .token (.template piece) value length) :
      IsRaw value := Literal.isRaw_of_templateBody h (.inl rfl)
  revert h
  have hb : rest.head?.getD 0 = rest.head?.getD 0 := rfl
  apply code_cases (motive := fun scanned ↦ scanned.lexeme = _ → IsRaw value) hb
  case number =>
    intro _ h
    rcases Literal.scanNumber_kind h with hkind | hkind <;> cases hkind
  case string =>
    intro _ h
    dsimp only [Literal.scanString] at h
    split at h
    · cases (Literal.stringBody_eq_token h).1
    · cases h
  case template => exact fun _ ↦ hraw
  case name =>
    intro _ hname h
    obtain ⟨text, -, -, htext, -⟩ := Literal.exists_scanName_eq hname (isDot previous)
    rw [isDot] at htext
    dsimp only at h
    rw [htext] at h
    rcases (Literal.nameLexeme_eq_token h).2 with hkind | ⟨-, w, hkind, -⟩ <;> cases hkind
  case openBrace => exact nofun
  case closeBrace =>
    intro _ h
    unfold closingBrace at h
    split at h
    · exact hraw h
    all_goals cases h
  case less =>
    intro _ h
    obtain ⟨_, hkind⟩ := lessThan_kind h
    cases hkind
  case greater =>
    intro _ h
    obtain ⟨_, hkind⟩ := greaterThan_kind h
    cases hkind
  case regex =>
    intro _ h
    dsimp only [Literal.scanRegex] at h
    split at h <;> cases h
  case operator =>
    intro _ _ _ h
    obtain ⟨_, hkind⟩ := operator_kind h
    cases hkind

theorem mark_eq {m : Mark} (h : CodeToken previous rest (.mark m) value) :
    value = bytes m.text := by
  cases h with
  | number _ hscan => rcases Literal.scanNumber_kind hscan with hkind | hkind <;> cases hkind
  | name hname hscan =>
    obtain ⟨text, -, -, htext, -⟩ := Literal.exists_scanName_eq hname (isDot previous)
    rw [htext] at hscan
    rcases (Literal.nameLexeme_eq_token hscan).2 with hkind | ⟨-, w, hkind, -⟩ <;> cases hkind
  | mark => rfl

/-- What a scan of code gives is orderly. -/
theorem isOrderly_of_code {token : Token}
    (h : (code previous surroundings rest).lexeme = .token token.kind token.value length) :
    token.IsOrderly := by
  obtain ⟨kind, value, start, stop, newlineBefore⟩ := token
  dsimp only at h
  have hnumber : ∀ {rest : Bytes} {length : Nat},
      Literal.scanNumber rest = .token kind value length → IsBracketed value := fun hscan ↦
    .of_forall fun b hb ↦ isPlain_of_isNumberByte b (Literal.all_scanNumber hscan b hb)
  cases kind with
  | word w =>
    obtain ⟨rfl, -⟩ := (code_codeToken h).word_eq
    exact isBracketed_spelling w
  | template piece => exact isRaw_of_code h
  | mark m => exact mark_eq (code_codeToken h)
  | number | bigint =>
    cases code_codeToken h with
    | number _ hscan => exact hnumber hscan
    | name hname hscan =>
      obtain ⟨text, -, -, htext, -⟩ := Literal.exists_scanName_eq hname (isDot previous)
      rw [htext] at hscan
      rcases (Literal.nameLexeme_eq_token hscan).2 with hkind | ⟨-, w, hkind, -⟩ <;> cases hkind
  | _ => trivial

theorem isOrderly_of_markup {token : Token} (h : MarkupToken token.kind token.value) :
    token.IsOrderly := by
  obtain ⟨kind, value, start, stop, newlineBefore⟩ := token
  cases h <;> first | rfl | trivial

end Scan

/-- All tokens of a strict run are orderly. -/
theorem isOrderly_of_mem {options : LexerOptions} {source : Bytes} {tokens : List Token}
    (hstrict : options.mode = .strict) (h : (tokenize options source).result = .ok tokens) :
    ∀ token ∈ tokens, token.IsOrderly := by
  obtain ⟨front, final, rfl, hfinal, hscanned, -, -⟩ := tokenize_allScanned hstrict h
  have hlast : final.IsOrderly := by
    rw [Token.IsOrderly, hfinal]
    trivial
  refine List.forall_mem_append.mpr ⟨fun token hmem ↦ ?_, by simpa using hlast⟩
  obtain ⟨before, after, hfront⟩ := List.append_of_mem hmem
  obtain ⟨lexer, -, -, -, hscan⟩ := hscanned before token after hfront
  unfold Lexer.scan at hscan
  split at hscan
  · exact Scan.isOrderly_of_markup (Scan.children_markupToken hscan)
  · exact Scan.isOrderly_of_markup (Scan.tag_markupToken hscan)
  · exact Scan.isOrderly_of_code hscan

end SignalView
