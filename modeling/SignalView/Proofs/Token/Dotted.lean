import SignalView.Proofs.Token.Origin

/-!
# Numbers with a dot behind them

A dot that is written behind a number is read as a token of its own, unless the number is whole:
digits, perhaps with a dot behind them. Digits alone take the dot in, and a number that ends with a
dot loses it to the one behind.
-/

namespace SignalView

namespace Literal

/-! ## Digits and dots -/

/-- The digits of a decimal number, perhaps with a dot behind them. -/
def isWhole (number : Bytes) : Bool :=
  number.dropWhile (isDigitOrSeparator 10) == [] ||
    number.dropWhile (isDigitOrSeparator 10) == bytes "."

theorem isWhole_iff {number : Bytes} : isWhole number = true ↔
    ∃ digits, (∀ b ∈ digits, isDigitOrSeparator 10 b = true) ∧
      (number = digits ∨ number = digits ++ bytes ".") := by
  have hdot : Avoids (isDigitOrSeparator 10) (bytes ".") := by rintro b ⟨⟩; rfl
  simp only [isWhole, Bool.or_eq_true, beq_iff_eq]
  constructor
  · intro h
    refine ⟨number.takeWhile (isDigitOrSeparator 10), fun b ↦ List.mem_takeWhile_imp, ?_⟩
    have hsplit := List.takeWhile_append_dropWhile (p := isDigitOrSeparator 10) (l := number)
    rcases h with hnil | hdot
    · rw [hnil, List.append_nil] at hsplit
      exact .inl hsplit.symm
    · rw [hdot] at hsplit
      exact .inr hsplit.symm
  · rintro ⟨digits, hdigits, rfl | rfl⟩
    · exact .inl (List.dropWhile_eq_nil_iff.mpr hdigits)
    · exact .inr (dropWhile_append_of_avoids hdigits hdot)

theorem ne_dot_of_digit {b : UInt8} (h : isDigitOrSeparator 10 b = true) : b ≠ byte '.' := by
  rintro rfl
  cases h

theorem decimalBody_digits {digits : Bytes}
    (h : ∀ b ∈ digits, isDigitOrSeparator 10 b = true) (seenDot : Bool) (tail : Bytes) :
    decimalBody seenDot (digits ++ tail) =
      (digits ++ (decimalBody seenDot tail).1, (decimalBody seenDot tail).2) := by
  induction digits with
  | nil => rfl
  | cons b digits ih =>
    rw [List.forall_mem_cons] at h
    rw [List.cons_append, decimalBody_digit _ (ne_dot_of_digit h.1) h.1, ih h.2]
    rfl

/-- Behind its dot, a decimal number is made of digits. -/
theorem decimalBody_true (rest : Bytes) :
    ∀ b ∈ (decimalBody true rest).1, isDigitOrSeparator 10 b = true := by
  induction rest with
  | nil => exact List.forall_mem_nil _
  | cons c rest ih =>
    by_cases hdigit : isDigitOrSeparator 10 c = true
    · rw [decimalBody_digit rest (ne_dot_of_digit hdigit) hdigit]
      exact List.forall_mem_cons.mpr ⟨hdigit, ih⟩
    · have hnil : (decimalBody true (c :: rest)).1 = [] := by simp [decimalBody, hdigit]
      rw [hnil]
      exact List.forall_mem_nil _

/-- A decimal number is made of digits, or of digits in front of and behind a dot. -/
theorem decimalBody_cases (rest : Bytes) :
    (∀ b ∈ (decimalBody false rest).1, isDigitOrSeparator 10 b = true) ∨
      ∃ whole fraction, (decimalBody false rest).1 = whole ++ byte '.' :: fraction ∧
        (∀ b ∈ whole, isDigitOrSeparator 10 b = true) ∧
        ∀ b ∈ fraction, isDigitOrSeparator 10 b = true := by
  induction rest with
  | nil => exact .inl nofun
  | cons c rest ih =>
    by_cases hdigit : isDigitOrSeparator 10 c = true
    · rw [decimalBody_digit rest (ne_dot_of_digit hdigit) hdigit]
      rcases ih with hall | ⟨whole, fraction, hbody, hwhole, hfraction⟩
      · exact .inl (List.forall_mem_cons.mpr ⟨hdigit, hall⟩)
      · exact .inr ⟨c :: whole, fraction, congrArg (c :: ·) hbody,
          List.forall_mem_cons.mpr ⟨hdigit, hwhole⟩, hfraction⟩
    · by_cases hdot : c = byte '.' ∧ rest.head? ≠ some (byte '.')
      · obtain ⟨rfl, hrest⟩ := hdot
        rw [decimalBody_dot hrest]
        exact .inr ⟨[], _, rfl, nofun, decimalBody_true rest⟩
      · have hnil : (decimalBody false (c :: rest)).1 = [] := by
          simp only [decimalBody, hdigit]
          split
          · next hc => simp_all
          · rfl
        rw [hnil]
        exact .inl nofun

/-! ## Numbers that are not whole -/

theorem avoids_dot {p : UInt8 → Bool} (hp : p (byte '.') = false) (after : Bytes) :
    Avoids p (byte '.' :: after) := by
  rintro b ⟨⟩
  exact hp

/-- A number with a fraction takes in no other dot. -/
theorem decimalBody_fraction {whole fraction : Bytes}
    (hwhole : ∀ b ∈ whole, isDigitOrSeparator 10 b = true)
    (hfraction : ∀ b ∈ fraction, isDigitOrSeparator 10 b = true) (hne : fraction ≠ [])
    (after : Bytes) :
    decimalBody false (whole ++ byte '.' :: fraction ++ byte '.' :: after) =
      (whole ++ byte '.' :: fraction, true) := by
  have hhead : (fraction ++ byte '.' :: after).head? ≠ some (byte '.') := by
    obtain ⟨b, fraction, rfl⟩ := List.exists_cons_of_ne_nil hne
    simpa using ne_dot_of_digit (hfraction b List.mem_cons_self)
  have hstop : decimalBody true (byte '.' :: after) = ([], true) := rfl
  rw [List.append_assoc, List.cons_append, decimalBody_digits hwhole, decimalBody_dot hhead,
    decimalBody_digits hfraction, hstop, List.append_nil]

/-- A decimal number that is not whole ends in front of a dot. -/
theorem scanDecimal_dot {number : Bytes} {length : Nat}
    (h : scanDecimal number = .token .number number length) (hwhole : isWhole number = false)
    (after : Bytes) :
    scanDecimal (number ++ byte '.' :: after) = .token .number number number.length := by
  have hnotWhole {digits : Bytes} (hdigits : ∀ b ∈ digits, isDigitOrSeparator 10 b = true)
      (hnumber : number = digits ∨ number = digits ++ bytes ".") : False := by
    rw [isWhole_iff.mpr ⟨digits, hdigits, hnumber⟩] at hwhole
    cases hwhole
  obtain ⟨more, hnumber⟩ : ∃ more, number = (decimalBody false number).1 ++ exponent more := by
    unfold scanDecimal at h
    dsimp only at h
    split at h
    · cases h
    · exact ⟨_, (endNumber_eq_token h).2⟩
  have hexponent : Avoids opensExponent (byte '.' :: after) := avoids_dot rfl after
  have hdigit : Avoids (isDigitOrSeparator 10) (byte '.' :: after) := avoids_dot rfl after
  obtain ⟨seenDot, hbody, hpower⟩ : ∃ seenDot,
      decimalBody false ((decimalBody false number).1 ++ exponent more ++ byte '.' :: after) =
        ((decimalBody false number).1, seenDot) ∧
      exponent (exponent more ++ byte '.' :: after) = exponent more := by
    by_cases hnone : exponent more = []
    · rw [hnone, List.append_nil] at hnumber ⊢
      rw [List.nil_append, exponent_eq_nil hexponent]
      rcases decimalBody_cases number with hdigits | ⟨whole, fraction, hparts, hleft, hright⟩
      · exact absurd hnumber fun hnumber ↦ hnotWhole hdigits (.inl hnumber)
      · have hne : fraction ≠ [] := by
          rintro rfl
          exact hnotWhole hleft (.inr (hnumber.trans hparts))
        rw [hparts]
        exact ⟨true, decimalBody_fraction hleft hright hne after, rfl⟩
    · obtain ⟨hopens, hagain⟩ := exponent_append hnone hdigit
      refine ⟨(decimalBody false number).2, ?_, hagain⟩
      rw [List.append_assoc, decimalBody_append]
      obtain ⟨e, power, he, hletter⟩ := startsWhere_iff.mp hopens
      rw [he]
      rintro b ⟨⟩
      exact continuesDecimal_of_opensExponent e hletter
  have hscan := scanDecimal_eq hbody hpower
  have hletter : startsWhere (· == byte 'n') (byte '.' :: after) = false := rfl
  rw [hletter, Bool.false_and, Bool.false_and, if_neg Bool.false_ne_true, ← hnumber] at hscan
  rw [hscan]
  exact endNumber_of_avoids .number number (avoids_dot rfl after)

/-- A number that is not whole ends in front of a dot. -/
theorem scanNumber_dot {number : Bytes} {kind : TokenKind} {length : Nat}
    (hstarts : Scan.startsNumber number = true)
    (h : scanNumber number = .token kind number length) (hwhole : isWhole number = false)
    (after : Bytes) :
    scanNumber (number ++ byte '.' :: after) = .token kind number number.length := by
  rcases scanNumber_kind h with rfl | rfl
  · have hcontinues : Avoids continues (byte '.' :: after) := avoids_dot rfl after
    cases hbase : baseAhead number with
    | none =>
      have hne : number ≠ [] := by
        rintro rfl
        cases hstarts
      have hagain : baseAhead (number ++ byte '.' :: after) = none :=
        baseAhead_append hne ((congrArg baseAhead (List.append_nil number)).trans hbase)
          (.inr hcontinues)
      rw [scanNumber_decimal hbase] at h
      rw [scanNumber_decimal hagain, scanDecimal_dot h hwhole]
    | some base =>
      obtain ⟨zero, letter, digits, rfl⟩ :
          ∃ zero letter digits, number = zero :: letter :: digits := by
        match number with
        | [] | [_] => cases hbase
        | zero :: letter :: digits => exact ⟨zero, letter, digits, rfl⟩
      have hbase' : (if zero == byte '0' then baseOf letter else none) = some base := hbase
      simp only [scanNumber, hbase'] at h
      obtain ⟨more, hmore, hscan⟩ := scanBased_append h
      obtain rfl : digits = more := by simpa using hmore
      simp only [List.cons_append, scanNumber, hbase']
      exact hscan _ (.inr hcontinues)
  · exact (scanNumber_append hstarts h (.inl rfl)).2

/-! ## Whole numbers -/

theorem baseAhead_digits {digits : Bytes} (h : ∀ b ∈ digits, isDigitOrSeparator 10 b = true)
    (after : Bytes) : baseAhead (digits ++ byte '.' :: after) = none := by
  have hnone (b : UInt8) : isDigitOrSeparator 10 b = true → baseOf b = none := by
    revert b
    exact forall_byte (by decide +kernel)
  match digits with
  | [] => cases after <;> rfl
  | [b] => exact ite_self none
  | b :: c :: digits =>
    change (if b == byte '0' then baseOf c else none) = none
    rw [hnone c (h c (by simp)), ite_self]

/-- A whole number is not what is read in front of a dot. -/
theorem scanNumber_whole {number : Bytes} (h : isWhole number = true) {b : UInt8}
    (hb : b ≠ byte '.') (after : Bytes) {kind : TokenKind} {value : Bytes} {length : Nat}
    (hscan : scanNumber (number ++ byte '.' :: b :: after) = .token kind value length) :
    value ≠ number := by
  obtain ⟨digits, hdigits, rfl | rfl⟩ := isWhole_iff.mp h
  · -- The dot belongs to the digits.
    rw [scanNumber_decimal (baseAhead_digits hdigits _)] at hscan
    obtain ⟨-, ⟨more, hvalue, -⟩, -⟩ := scanDecimal_append hscan (.inr (.nil _))
    rw [decimalBody_digits hdigits, decimalBody_dot (by simpa using hb)] at hvalue
    rw [hvalue, List.append_assoc]
    simp
  · -- The first of two dots does not belong to the digits.
    have hsplit : digits ++ bytes "." ++ byte '.' :: b :: after =
        digits ++ [] ++ byte '.' :: byte '.' :: b :: after := by simp [bytes]
    have hbody : decimalBody false (digits ++ [] ++ byte '.' :: byte '.' :: b :: after) =
        (digits, false) := by
      have hstop : decimalBody false (byte '.' :: byte '.' :: b :: after) = ([], false) := rfl
      rw [List.append_nil, decimalBody_digits hdigits, hstop, List.append_nil]
    have hpower : exponent ([] ++ byte '.' :: byte '.' :: b :: after) = [] := rfl
    have hletter : startsWhere (· == byte 'n') (byte '.' :: byte '.' :: b :: after) = false := rfl
    rw [hsplit, List.append_nil, scanNumber_decimal (baseAhead_digits hdigits _),
      ← List.append_nil digits, scanDecimal_eq hbody hpower, hletter, Bool.false_and,
      Bool.false_and, if_neg Bool.false_ne_true, List.append_nil] at hscan
    rw [(endNumber_eq_token hscan).2]
    simp [bytes]

end Literal

/-! ## Tokens of numbers -/

/-- A number that is not whole, in front of a dot. -/
theorem Lexes.numberDot {previous : Option TokenKind} {number : Bytes} {kind : TokenKind}
    {length : Nat} (hstarts : Scan.startsNumber number = true)
    (h : Literal.scanNumber number = .token kind number length)
    (hwhole : Literal.isWhole number = false) (after : Bytes) :
    Lexes previous number (byte '.' :: after) ⟨kind, number⟩ :=
  of_scanNumber (Literal.startsNumber_append hstarts _)
    (Literal.scanNumber_dot hstarts h hwhole after)

/-- No gap is in front of a token. -/
theorem Gap.eq_nil {isLast : Bool} {gap rest : Bytes} (h : Gap isLast gap)
    (hstarts : StartsToken (gap ++ rest)) : gap = [] := by
  obtain ⟨b, more, hsource, hspace, hslash⟩ := hstarts
  have hcomment {c : UInt8} {body : Bytes} (hopen : gap = byte '/' :: c :: body) :
      c ≠ byte '/' ∧ c ≠ byte '*' := by
    rw [hopen] at hsource
    obtain ⟨rfl, rfl⟩ := List.cons.inj hsource
    simpa using hslash rfl
  cases h with
  | nil => rfl
  | space hb _ =>
    obtain ⟨rfl, -⟩ := List.cons.inj hsource
    rw [hspace] at hb
    cases hb
  | lineComment _ _ | lastComment _ _ => exact absurd rfl (hcomment rfl).1
  | blockComment _ _ => exact absurd rfl (hcomment rfl).2

/-- The first token of a source without a gap in front is scanned at its start. -/
theorem AllScanned.scan_first {source : Bytes} {token : Token} {after : List Token}
    (h : AllScanned source (token :: after)) (htiles : Tiles source (token :: after))
    (hstarts : StartsToken source) :
    ∃ length, (Scan.code none [] source).lexeme = .token token.kind token.value length := by
  have hplaced := htiles [] token after rfl
  have hgap : Gap (token.kind == .eof) (source.take token.start.offset) := hplaced.gap
  have hnil : source.take token.start.offset = [] :=
    hgap.eq_nil ((List.take_append_drop token.start.offset source).symm ▸ hstarts)
  have hoffset : token.start.offset = 0 := by
    obtain ⟨b, more, rfl, -⟩ := hstarts
    simpa using hnil
  obtain ⟨lexer, hlist, hsurroundings, hrest, hscan⟩ := h [] token after rfl
  have hempty : lexer.surroundings = [] := hsurroundings
  have hcode : lexer.scan = Scan.code _ _ _ := Lexer.scan_eq_code (by rw [hempty]; exact nofun)
  rw [hlist, hempty, hrest, hoffset, List.drop_zero] at hcode
  exact ⟨_, by rw [← hscan, hcode]; rfl⟩

/-- A number that is the only token of its source. -/
theorem TurnsInto.scanNumber {options : LexerOptions} {number : Bytes} {kind : TokenKind}
    (hstrict : options.mode = .strict) (h : TurnsInto options number [⟨kind, number⟩])
    (hkind : kind = .number ∨ kind = .bigint) :
    Scan.startsNumber number = true ∧
      Literal.scanNumber number = .token kind number number.length := by
  obtain ⟨front, final, htokens, -, hsigns⟩ := h
  obtain ⟨front', final', hsplit, -, hscanned, -⟩ := tokenize_allScanned hstrict htokens
  obtain ⟨rfl, -⟩ := List.append_inj' hsplit rfl
  obtain ⟨token, rfl, hsign⟩ := List.map_eq_singleton_iff.mp hsigns
  obtain ⟨rfl, rfl⟩ := Sign.mk.inj hsign
  obtain ⟨lexer, -, -, -, hscan⟩ := hscanned [] token [] rfl
  have hnumber : ∃ rest length, Scan.startsNumber rest = true ∧
      Literal.scanNumber rest = .token token.kind token.value length := by
    rcases lexer.scan_token hscan with hcode | hmarkup
    · refine (hcode.readable.resolve_right ?_).number hkind
      rintro ⟨hname, -⟩
      rcases hkind with hkind | hkind <;> cases hname.symm.trans hkind
    · generalize token.kind = kind, token.value = value at hmarkup hkind
      cases hmarkup <;> rcases hkind with hkind | hkind <;> cases hkind
  obtain ⟨rest, length, hstarts, hrest⟩ := hnumber
  have hagain := Literal.scanNumber_append hstarts hrest (.inr (.nil _))
  rwa [List.append_nil] at hagain

end SignalView
