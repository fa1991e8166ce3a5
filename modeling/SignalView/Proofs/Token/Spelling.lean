import SignalView.Proofs.Token.Place
import SignalView.Token.Scan

/-!
# What tokens stand for

Every scan reads its token from the bytes in front of it. Most tokens stand for exactly these
bytes; a template piece and the string of an attribute stand for them without their delimiters, and
white space may stand inside the start of a closing tag. The statements here are about single
scans; none of them depends on where in the source a scan happens.
-/

namespace SignalView

/-! ## Spellings -/

/-- The byte in front of the text of a template piece. -/
def TemplatePiece.opening : TemplatePiece → UInt8
  | .whole | .head => Quoted.backtick
  | .middle | .tail => Quoted.closeBrace

/-- The bytes behind the text of a template piece. -/
def TemplatePiece.closing : TemplatePiece → Bytes
  | .whole | .tail => [Quoted.backtick]
  | .head | .middle => [byte '$', Quoted.openBrace]

/-- Whether a template piece stands behind a substitution. -/
def TemplatePiece.isContinued : TemplatePiece → Bool
  | .whole | .head => false
  | .middle | .tail => true

/-- Whether a token of a kind and a value is spelled by a text. A string of code is decoded, so
that its value and the text between its quotes may differ. -/
def Spells (inTag : Bool) (kind : TokenKind) (value text : Bytes) : Prop :=
  match kind with
  | .string =>
    ∃ quote body, (quote = Quoted.singleQuote ∨ quote = Quoted.doubleQuote) ∧
      text = quote :: body ++ [quote] ∧ (inTag = true → body = value)
  | .template piece => text = piece.opening :: value ++ piece.closing
  | .mark .closingTagOpen =>
    ∃ space : Bytes, space.all Byte.isSpace = true ∧ text = byte '<' :: space ++ [byte '/']
  | _ => text = value

/-- A lexeme takes up some of the bytes ahead, and they spell its token. -/
def Lexeme.Reads (inTag : Bool) (rest : Bytes) : Lexeme → Prop
  | .token kind value length =>
    0 < length ∧ length ≤ rest.length ∧ Spells inTag kind value (rest.take length)
  | .fault _ _ => True

/-- A token that is spelled by the bytes at the front of a text. -/
theorem Lexeme.reads_of_append {inTag : Bool} {rest value : Bytes} {kind : TokenKind}
    {length : Nat} (text after : Bytes) (hrest : rest = text ++ after) (htext : text ≠ [])
    (hlength : length = text.length) (hspells : Spells inTag kind value text) :
    (Lexeme.token kind value length).Reads inTag rest := by
  subst hrest hlength
  refine ⟨List.length_pos_iff.mpr htext, by simp, ?_⟩
  rwa [List.take_left]

/-- A token that stands for the bytes at the front of a text. -/
theorem Lexeme.reads_of_prefix {inTag : Bool} {rest value : Bytes} {kind : TokenKind} {length : Nat}
    (hkind : Spells inTag kind value value) (hvalue : value ≠ []) (hfront : value <+: rest)
    (hlength : length = value.length) : (Lexeme.token kind value length).Reads inTag rest := by
  obtain ⟨after, rfl⟩ := hfront
  exact Lexeme.reads_of_append value after rfl hvalue hlength hkind

namespace Literal

/-! ## Numbers -/

theorem decimalBody_prefix (seenDot : Bool) (rest : Bytes) :
    (decimalBody seenDot rest).1 <+: rest := by
  induction rest generalizing seenDot with
  | nil => simp [decimalBody]
  | cons b rest ih =>
    simp only [decimalBody]
    split
    · split
      · exact List.nil_prefix
      · exact List.cons_prefix_cons.mpr ⟨rfl, ih true⟩
    · split
      · exact List.cons_prefix_cons.mpr ⟨rfl, ih seenDot⟩
      · exact List.nil_prefix

theorem exponent_prefix (rest : Bytes) : exponent rest <+: rest := by
  unfold exponent
  split
  · next e after =>
    split
    · dsimp only
      split
      · refine List.cons_prefix_cons.mpr ⟨rfl, ?_⟩
        generalize hsign : List.take 1 _ = sign
        have hfront : sign <+: after := by
          rw [← hsign]
          exact (List.take_prefix 1 _).trans (List.takeWhile_prefix _)
        obtain ⟨digits, rfl⟩ := hfront
        rw [List.drop_left]
        exact (List.prefix_append_right_inj sign).mpr (List.takeWhile_prefix _)
      · exact List.nil_prefix
    · exact List.nil_prefix
  · exact List.nil_prefix

/-- The token that a number ends in is spelled by the number. -/
theorem endNumber_reads {inTag : Bool} {kind : TokenKind} {number after rest : Bytes}
    (hkind : kind = .number ∨ kind = .bigint) (hnumber : number ≠ []) (hfront : number <+: rest) :
    (endNumber kind number after).Reads inTag rest := by
  unfold endNumber
  split
  · trivial
  · refine Lexeme.reads_of_prefix ?_ hnumber hfront rfl
    rcases hkind with rfl | rfl <;> rfl

theorem startsWhere_iff {p : UInt8 → Bool} {rest : Bytes} :
    startsWhere p rest = true ↔ ∃ b after, rest = b :: after ∧ p b = true := by
  cases rest <;> simp [startsWhere]

/-- The letter behind a number makes it a big integer. -/
theorem bigint_reads {inTag : Bool} {number after rest : Bytes} (hrest : rest = number ++ after)
    (hafter : startsWhere (· == byte 'n') after = true) :
    (Lexeme.token .bigint (number ++ bytes "n") (number.length + 1)).Reads inTag rest := by
  obtain ⟨b, after, rfl, hb⟩ := startsWhere_iff.mp hafter
  obtain rfl : b = byte 'n' := by simpa using hb
  subst hrest
  refine Lexeme.reads_of_prefix rfl (by simp [bytes]) ⟨after, ?_⟩ (by simp [bytes])
  simp [bytes]

theorem scanBased_reads {inTag : Bool} (base : Nat) {lead rest : Bytes} (hlead : lead ≠ []) :
    (scanBased base lead rest).Reads inTag (lead ++ rest) := by
  unfold scanBased
  split
  · dsimp only
    have hsplit : lead ++ rest = lead ++ rest.takeWhile (isDigitOrSeparator base) ++
        rest.dropWhile (isDigitOrSeparator base) := by
      rw [List.append_assoc, List.takeWhile_append_dropWhile]
    split
    · next hbig => exact bigint_reads hsplit hbig
    · exact endNumber_reads (.inl rfl) (by simp [hlead]) ⟨_, hsplit.symm⟩
  · trivial

theorem scanDecimal_reads {inTag : Bool} {rest : Bytes}
    (hbody : (decimalBody false rest).1 ≠ []) : (scanDecimal rest).Reads inTag rest := by
  unfold scanDecimal
  obtain ⟨after, hafter⟩ := decimalBody_prefix false rest
  generalize decimalBody false rest = parts at *
  obtain ⟨body, seenDot⟩ := parts
  dsimp only at *
  subst hafter
  rw [List.drop_left]
  obtain ⟨behind, hbehind⟩ := exponent_prefix after
  have hsplit : body ++ after = (body ++ exponent after) ++ behind := by
    rw [List.append_assoc, hbehind]
  have hdrop : (body ++ after).drop (body ++ exponent after).length = behind := by
    rw [hsplit, List.drop_left]
  rw [hdrop]
  split
  · next hbig => exact bigint_reads hsplit (by simp_all)
  · exact endNumber_reads (.inl rfl) (by simp [hbody]) ⟨_, hsplit.symm⟩

theorem decimalBody_ne_nil {rest : Bytes} (h : Scan.startsNumber rest = true) :
    (decimalBody false rest).1 ≠ [] := by
  unfold Scan.startsNumber at h
  split at h
  · simp at h
  · next b after =>
    simp only [decimalBody]
    by_cases hdot : b = byte '.'
    · subst hdot
      have hdigit : startsWhere Byte.isDigit after = true := by
        simpa [show Byte.isDigit (byte '.') = false from rfl] using h
      obtain ⟨d, after, rfl, hd⟩ := startsWhere_iff.mp hdigit
      have hd' : d ≠ byte '.' := by
        rintro rfl
        exact absurd hd (by decide)
      simp [hd']
    · have hdigit : isDigitOrSeparator 10 b = true := by
        simp [hdot] at h
        simp [isDigitOrSeparator, isDigitOf, h]
      simp [hdot, hdigit]

theorem scanNumber_reads {inTag : Bool} {rest : Bytes} (h : Scan.startsNumber rest = true) :
    (scanNumber rest).Reads inTag rest := by
  have hdecimal : (scanDecimal rest).Reads inTag rest := scanDecimal_reads (decimalBody_ne_nil h)
  unfold scanNumber
  split
  · split
    · exact scanBased_reads _ (by simp)
    · exact hdecimal
  · exact hdecimal

theorem endNumber_kind {number after value : Bytes} {kind : TokenKind} {length : Nat}
    (h : endNumber .number number after = .token kind value length) : kind = .number := by
  unfold endNumber at h
  split at h
  · cases h
  · simpa using congrArg (fun | .token kind _ _ => kind | .fault _ _ => .number) h.symm

theorem scanNumber_kind {rest value : Bytes} {kind : TokenKind} {length : Nat}
    (h : scanNumber rest = .token kind value length) : kind = .number ∨ kind = .bigint := by
  have hdecimal (h : scanDecimal rest = .token kind value length) :
      kind = .number ∨ kind = .bigint := by
    unfold scanDecimal at h
    dsimp only at h
    split at h
    · exact .inr (by simpa using (Lexeme.token.inj h).1.symm)
    · exact .inl (endNumber_kind h)
  unfold scanNumber at h
  split at h
  · split at h
    · unfold scanBased at h
      split at h
      · dsimp only at h
        split at h
        · exact .inr (Lexeme.token.inj h).1.symm
        · exact .inl (endNumber_kind h)
      · cases h
    · exact hdecimal h
  · exact hdecimal h

/-! ## Strings -/

/-- A string ends at a quote. -/
theorem stringBody_eq_token {quote : UInt8} {skip length length' : Nat} {value value' text : Bytes}
    {kind : TokenKind} (h : stringBody quote skip value length text = .token kind value' length') :
    kind = .string ∧ ∃ body after, text = body ++ quote :: after ∧
      length' = length + body.length + 1 := by
  induction text generalizing skip value length with
  | nil => simp [stringBody] at h
  | cons b rest ih =>
    have hnext {skip length : Nat} {value : Bytes}
        (h : stringBody quote skip value (length + 1) rest = .token kind value' length') :
        kind = .string ∧ ∃ body after, b :: rest = body ++ quote :: after ∧
          length' = length + body.length + 1 := by
      obtain ⟨hkind, body, after, rfl, rfl⟩ := ih h
      exact ⟨hkind, b :: body, after, rfl, by simp; omega⟩
    cases skip with
    | succ skip => exact hnext h
    | zero =>
      simp only [stringBody] at h
      split at h
      · next hquote =>
        obtain ⟨rfl, rfl, rfl⟩ := by simpa using h
        exact ⟨rfl, [], rest, by simpa using hquote, by simp⟩
      split at h
      · cases h
      split at h
      · split at h
        · exact hnext h
        · cases h
      · exact hnext h

theorem scanString_reads {rest : Bytes} {b : UInt8} (hhead : rest.head? = some b)
    (hquote : b = Quoted.singleQuote ∨ b = Quoted.doubleQuote) :
    (scanString rest).Reads false rest := by
  obtain ⟨rest, rfl⟩ := List.head?_eq_some_iff.mp hhead
  simp only [scanString]
  cases hbody : stringBody b 0 [] 1 rest with
  | fault cause length => trivial
  | token kind value length =>
    obtain ⟨rfl, body, after, rfl, rfl⟩ := stringBody_eq_token hbody
    refine Lexeme.reads_of_append (b :: body ++ [b]) after (by simp) (by simp)
      (by simp; omega) ?_
    exact ⟨b, body, hquote, rfl, by simp⟩

theorem scanAttributeString_reads {rest : Bytes} {b : UInt8} (hhead : rest.head? = some b)
    (hquote : b = Quoted.singleQuote ∨ b = Quoted.doubleQuote) :
    (scanAttributeString rest).Reads true rest := by
  obtain ⟨rest, rfl⟩ := List.head?_eq_some_iff.mp hhead
  unfold scanAttributeString
  dsimp only
  split
  · next hlength =>
    have hsplit := List.takeWhile_append_dropWhile (p := (· != b)) (l := rest)
    generalize rest.takeWhile (· != b) = value at *
    generalize hdrop : rest.dropWhile (· != b) = behind at *
    subst hsplit
    cases behind with
    | nil => simp at hlength
    | cons c behind =>
      have hc : c = b := by
        have := List.head?_dropWhile_not (· != b) (value ++ c :: behind)
        rw [hdrop] at this
        simpa using this
      subst hc
      refine Lexeme.reads_of_append (c :: value ++ [c]) behind (by simp)
        (by simp) (by simp) ?_
      exact ⟨c, value, hquote, rfl, by simp⟩
  · trivial

/-! ## Templates -/

theorem templateBody_eq_token {continued : Bool} {raw value text : Bytes} {length length' : Nat}
    {kind : TokenKind} (h : templateBody continued raw length text = .token kind value length') :
    ∃ piece body after, kind = .template piece ∧ piece.isContinued = continued ∧
      value = raw ++ body ∧ text = body ++ piece.closing ++ after ∧
      length' = length + body.length + piece.closing.length := by
  fun_induction templateBody continued raw length text with
  | case1 => cases h
  | case2 raw length b hb =>
    obtain ⟨rfl, rfl, rfl⟩ := by simpa using h
    obtain rfl : b = Quoted.backtick := by simpa using hb
    cases continued
    · exact ⟨.whole, [], [], rfl, rfl, by simp, rfl, rfl⟩
    · exact ⟨.tail, [], [], rfl, rfl, by simp, rfl, rfl⟩
  | case3 => cases h
  | case4 raw length b c rest hb =>
    obtain ⟨rfl, rfl, rfl⟩ := by simpa using h
    obtain rfl : b = Quoted.backtick := by simpa using hb
    cases continued
    · exact ⟨.whole, [], c :: rest, rfl, rfl, by simp, rfl, rfl⟩
    · exact ⟨.tail, [], c :: rest, rfl, rfl, by simp, rfl, rfl⟩
  | case5 raw length b c rest _ hb =>
    obtain ⟨rfl, rfl, rfl⟩ := by simpa using h
    obtain ⟨rfl, rfl⟩ : b = byte '$' ∧ c = Quoted.openBrace := by simpa using hb
    cases continued
    · exact ⟨.head, [], rest, rfl, rfl, by simp, rfl, rfl⟩
    · exact ⟨.middle, [], rest, rfl, rfl, by simp, rfl, rfl⟩
  | case6 raw length b c rest _ _ hb ih =>
    obtain ⟨piece, body, after, hkind, hpiece, rfl, rfl, rfl⟩ := ih h
    refine ⟨piece, b :: c :: body, after, hkind, hpiece, ?_, ?_, ?_⟩
    · simp
    · simp
    · simp
      omega
  | case7 raw length b c rest _ _ _ ih =>
    obtain ⟨piece, body, after, hkind, hpiece, rfl, htext, rfl⟩ := ih h
    refine ⟨piece, b :: body, after, hkind, hpiece, ?_, ?_, ?_⟩
    · simp
    · simp [htext]
    · simp
      omega

theorem scanTemplate_reads {inTag continued : Bool} {rest : Bytes} {b : UInt8}
    (hhead : rest.head? = some b)
    (hb : b = if continued then Quoted.closeBrace else Quoted.backtick) :
    (scanTemplate continued rest).Reads inTag rest := by
  obtain ⟨rest, rfl⟩ := List.head?_eq_some_iff.mp hhead
  simp only [scanTemplate, List.drop_succ_cons, List.drop_zero]
  cases hbody : templateBody continued [] 1 rest with
  | fault cause length => trivial
  | token kind value length =>
    obtain ⟨piece, body, after, rfl, hpiece, rfl, rfl, rfl⟩ := templateBody_eq_token hbody
    have hopening : piece.opening = b := by
      subst hpiece
      rw [hb]
      cases piece <;> rfl
    refine Lexeme.reads_of_append (b :: value ++ piece.closing) after (by simp)
      (by simp) (by simp; omega) ?_
    rw [Spells, hopening]

/-! ## Regular expressions -/

theorem regexBody_eq_ok {inClass : Bool} {text rest body : Bytes}
    (h : regexBody inClass text rest = .ok body) : ∃ more, body = text ++ more ∧ more <+: rest := by
  fun_induction regexBody inClass text rest with
  | case1 => cases h
  | case2 inClass text b _ =>
    obtain rfl := by simpa using h
    exact ⟨[b], rfl, List.prefix_rfl⟩
  | case3 => cases h
  | case4 => cases h
  | case5 => cases h
  | case6 => cases h
  | case7 inClass text b c rest _ _ _ ih =>
    obtain ⟨more, rfl, hmore⟩ := ih h
    refine ⟨b :: c :: more, by simp, ?_⟩
    exact List.cons_prefix_cons.mpr ⟨rfl, List.cons_prefix_cons.mpr ⟨rfl, hmore⟩⟩
  | case8 inClass text b c rest _ _ _ =>
    obtain rfl := by simpa using h
    exact ⟨[b], rfl, List.cons_prefix_cons.mpr ⟨rfl, List.nil_prefix⟩⟩
  | case9 inClass text b c rest _ _ _ inClass' ih =>
    obtain ⟨more, rfl, hmore⟩ := ih h
    exact ⟨b :: more, by simp, List.cons_prefix_cons.mpr ⟨rfl, hmore⟩⟩

theorem scanRegex_reads {inTag : Bool} {rest : Bytes} (hrest : rest ≠ []) :
    (scanRegex rest).Reads inTag rest := by
  obtain ⟨b, rest, rfl⟩ := List.exists_cons_of_ne_nil hrest
  simp only [scanRegex, List.take_succ_cons, List.take_zero, List.drop_succ_cons, List.drop_zero]
  split
  · trivial
  · next body hbody =>
    obtain ⟨more, rfl, after, rfl⟩ := regexBody_eq_ok hbody
    have hdrop : List.drop ([b] ++ more).length (b :: (more ++ after)) = after := by simp
    rw [hdrop]
    refine Lexeme.reads_of_prefix rfl (by simp) ?_ rfl
    rw [← List.cons_append]
    exact (List.prefix_append_right_inj _).mpr (List.takeWhile_prefix _)

/-! ## Names -/

theorem nameLength_le (skip : Nat) (rest : Bytes) : nameLength skip rest ≤ rest.length := by
  fun_induction nameLength skip rest with
  | case1 => simp
  | case2 b rest skip ih => simpa using ih
  | case3 b rest _ ih => simpa using ih
  | case4 b rest _ _ ih => simpa using ih
  | case5 => simp

theorem nameLength_pos {b : UInt8} (rest : Bytes)
    (h : Byte.isIdentifierStart b = true ∨
      (b == Quoted.backslash && rest.head? == some (byte 'u')) = true) :
    0 < nameLength 0 (b :: rest) := by
  simp only [nameLength]
  split
  · exact Nat.succ_pos _
  · next hpart =>
    rcases h with hstart | hescape
    · simp [Byte.isIdentifierPart, hstart] at hpart
    · rw [if_pos hescape]
      exact Nat.succ_pos _

/-- Where a name starts, it takes up at least one byte. -/
theorem scanName_reads {inTag afterDot : Bool} {rest : Bytes} (h : startsName rest = true) :
    (scanName afterDot rest).Reads inTag rest := by
  unfold scanName
  dsimp only
  generalize hlead : (if rest.head? == some (byte '#') then 1 else 0) = lead
  have hlength : lead + nameLength 0 (rest.drop lead) ≤ rest.length := by
    have hname := nameLength_le 0 (rest.drop lead)
    rw [List.length_drop] at hname
    cases rest with
    | nil => simp [startsName] at h
    | cons b after =>
      have : lead ≤ 1 := by
        rw [← hlead]
        split <;> simp
      simp at hname ⊢
      omega
  have hpos : 0 < lead + nameLength 0 (rest.drop lead) := by
    cases rest with
    | nil => simp [startsName] at h
    | cons b after =>
      by_cases hhash : b = byte '#'
      · subst hhash
        simp at hlead
        omega
      · simp [hhash] at hlead
        subst hlead
        simp [startsName, hhash] at h
        have := nameLength_pos after (by simpa using h)
        simpa using this
  generalize lead + nameLength 0 (rest.drop lead) = length at *
  have htake : (rest.take length).length = length := List.length_take_of_le hlength
  have hvalue : rest.take length ≠ [] := by
    intro hnil
    rw [hnil] at htake
    exact absurd htake (Nat.ne_of_lt hpos)
  split
  · exact Lexeme.reads_of_prefix rfl hvalue (List.take_prefix _ _) htake.symm
  · exact Lexeme.reads_of_prefix rfl hvalue (List.take_prefix _ _) htake.symm

end Literal

/-! ## Surroundings -/

/-- The surroundings behind a token, told by its kind. -/
def Surrounding.after (surroundings : List Surrounding) : TokenKind → List Surrounding
  | .mark .openBrace =>
    match surroundings with
    | .tag _ :: _ | .children :: _ => .markupExpression :: surroundings
    | _ => .brace :: surroundings
  | .mark .closeBrace =>
    match surroundings with
    | .brace :: outer | .markupExpression :: outer => outer
    | _ => surroundings
  | .template .head => .substitution :: surroundings
  | .template .tail => surroundings.drop 1
  | .mark .typeOpen =>
    match surroundings with
    | .typeBrackets depth :: outer => .typeBrackets (depth + 1) :: outer
    | _ => .typeBrackets 1 :: surroundings
  | .mark .typeClose =>
    match surroundings with
    | .typeBrackets depth :: outer =>
      if depth ≤ 1 then outer else .typeBrackets (depth - 1) :: outer
    | _ => surroundings
  | .mark .tagOpen => .tag false :: surroundings
  | .mark .closingTagOpen => .tag true :: surroundings.drop 1
  | .mark .tagEnd =>
    match surroundings with
    | .tag false :: outer => .children :: outer
    | _ => surroundings.drop 1
  | .mark .tagSelfClose => surroundings.drop 1
  | _ => surroundings

/-- Whether the tokens go on inside a tag. -/
def Surrounding.inTag : List Surrounding → Bool
  | .tag _ :: _ => true
  | _ => false

/-- A scan that found a token: the token is spelled by the bytes ahead, it is none that marks the
end, and it changes the surroundings by its kind. -/
structure Scanned.Sound (surroundings : List Surrounding) (rest : Bytes) (scanned : Scanned) :
    Prop where
  reads : scanned.lexeme.Reads (Surrounding.inTag surroundings) rest
  kind_ne {kind : TokenKind} {value : Bytes} {length : Nat}
    (h : scanned.lexeme = .token kind value length) : kind ≠ .eof
  surroundings_eq {kind : TokenKind} {value : Bytes} {length : Nat}
    (h : scanned.lexeme = .token kind value length) :
    scanned.surroundings = Surrounding.after surroundings kind

namespace Scan

theorem markToken_reads {inTag : Bool} {m : Mark} {rest : Bytes} (hm : m ≠ .closingTagOpen)
    (hfront : bytes m.text <+: rest) : (markToken m).Reads inTag rest := by
  have hspells : Spells inTag (.mark m) (bytes m.text) (bytes m.text) := by
    unfold Spells
    split <;> simp_all
  have hne : bytes m.text ≠ [] := by cases m <;> decide
  exact Lexeme.reads_of_prefix hspells hne hfront (by simp [bytes, String.length_toList])

theorem markToken_sound {surroundings outer : List Surrounding} {m : Mark} {rest : Bytes}
    (hm : m ≠ .closingTagOpen) (hfront : bytes m.text <+: rest)
    (houter : outer = Surrounding.after surroundings (.mark m)) :
    (⟨markToken m, outer⟩ : Scanned).Sound surroundings rest where
  reads := markToken_reads hm hfront
  kind_ne h := by
    obtain ⟨rfl, -, -⟩ := by simpa [markToken] using h
    simp
  surroundings_eq h := by
    obtain ⟨rfl, -, -⟩ := by simpa [markToken] using h
    exact houter

theorem front_of_head {m : Mark} {rest : Bytes} {b : UInt8} (hhead : rest.head? = some b)
    (hm : bytes m.text = [b]) : bytes m.text <+: rest := by
  obtain ⟨rest, rfl⟩ := List.head?_eq_some_iff.mp hhead
  rw [hm]
  exact ⟨rest, rfl⟩

/-- Operators and delimiters leave the surroundings as they are. -/
theorem after_operator {surroundings : List Surrounding} {m : Mark} (hm : m ∈ operators) :
    Surrounding.after surroundings (.mark m) = surroundings := by
  cases m <;> first | rfl | exact absurd hm (by decide)

theorem operator_sound (surroundings : List Surrounding) (rest : Bytes) :
    (⟨operator rest, surroundings⟩ : Scanned).Sound surroundings rest := by
  unfold operator
  dsimp only
  split
  · next h =>
    obtain ⟨⟨hquestion, hdot⟩, -⟩ :
        (rest.head? = some (byte '?') ∧ rest[1]? = some (byte '.')) ∧ _ := by simpa using h
    obtain ⟨rest, rfl⟩ := List.head?_eq_some_iff.mp hquestion
    rw [List.getElem?_cons_succ, ← List.head?_eq_getElem?] at hdot
    obtain ⟨rest, rfl⟩ := List.head?_eq_some_iff.mp hdot
    exact markToken_sound (by simp) ⟨rest, rfl⟩ rfl
  split
  · next h =>
    have hquestion : rest.head? = some (byte '?') := by simp_all
    exact markToken_sound (by simp) (front_of_head hquestion rfl) rfl
  split
  · next m hfind =>
    have hfront : bytes m.text <+: rest := by simpa using List.find?_some hfind
    have hm := List.mem_of_find?_eq_some hfind
    exact markToken_sound (by rintro rfl; exact absurd hm (by decide)) hfront
      (after_operator hm).symm
  · exact ⟨trivial, nofun, nofun⟩

/-! ## Code -/

theorem lessThan_sound {previous : Option TokenKind} {surroundings : List Surrounding}
    {rest : Bytes} (hhead : rest.head? = some (byte '<')) :
    (lessThan previous surroundings rest).Sound surroundings rest := by
  have htypeOpen : bytes Mark.typeOpen.text <+: rest := front_of_head hhead rfl
  unfold lessThan
  split
  · exact markToken_sound (by simp) htypeOpen rfl
  · next hsurroundings =>
    have hopen : Surrounding.after surroundings (.mark .typeOpen) =
        .typeBrackets 1 :: surroundings := by
      unfold Surrounding.after
      split <;> simp_all
    dsimp only
    split
    · split
      · exact markToken_sound (by simp) htypeOpen hopen.symm
      split
      · exact markToken_sound (by simp) (front_of_head hhead rfl) rfl
      · exact operator_sound surroundings rest
    split
    · exact markToken_sound (by simp) htypeOpen hopen.symm
    · exact operator_sound surroundings rest

theorem greaterThan_sound {surroundings : List Surrounding} {rest : Bytes}
    (hhead : rest.head? = some (byte '>')) :
    (greaterThan surroundings rest).Sound surroundings rest := by
  unfold greaterThan
  split
  · exact markToken_sound (by simp) (front_of_head hhead rfl) rfl
  · exact operator_sound surroundings rest

/-- A template piece, given the surroundings in which its template was opened. -/
theorem template_sound {continued : Bool} {surroundings outer : List Surrounding} {rest : Bytes}
    {b : UInt8} (hhead : rest.head? = some b)
    (hb : b = if continued then Quoted.closeBrace else Quoted.backtick)
    (houter : surroundings = if continued then .substitution :: outer else outer) :
    (template continued outer rest).Sound surroundings rest := by
  have hreads : (Literal.scanTemplate continued rest).Reads (Surrounding.inTag surroundings) rest :=
    Literal.scanTemplate_reads hhead hb
  refine ⟨hreads, ?_, ?_⟩
  all_goals
    intro kind value length h
    dsimp only [template] at h ⊢
    obtain ⟨piece, body, after, rfl, hpiece, -⟩ := Literal.templateBody_eq_token h
  · simp
  · rw [h]
    subst hpiece houter
    cases piece <;> rfl

theorem closingBrace_sound {surroundings : List Surrounding} {rest : Bytes}
    (hhead : rest.head? = some Quoted.closeBrace) :
    (closingBrace surroundings rest).Sound surroundings rest := by
  unfold closingBrace
  split
  · exact template_sound hhead rfl rfl
  · exact markToken_sound (by simp) (front_of_head hhead rfl) rfl
  · exact markToken_sound (by simp) (front_of_head hhead rfl) rfl
  · next hsubstitution hbrace hmarkup =>
    refine markToken_sound (by simp) (front_of_head hhead rfl) ?_
    unfold Surrounding.after
    split <;> simp_all

/-- A literal or a name, which leaves the surroundings as they are. -/
theorem sound_of_reads {surroundings : List Surrounding} {rest : Bytes} {lexeme : Lexeme}
    (hreads : lexeme.Reads (Surrounding.inTag surroundings) rest)
    (hkind : ∀ {kind value length}, lexeme = .token kind value length →
      kind ≠ .eof ∧ Surrounding.after surroundings kind = surroundings) :
    (⟨lexeme, surroundings⟩ : Scanned).Sound surroundings rest where
  reads := hreads
  kind_ne h := (hkind h).1
  surroundings_eq h := (hkind h).2.symm

/-- What a scan of code can be, by the byte in front. -/
theorem code_cases {motive : Scanned → Prop} {previous : Option TokenKind}
    {surroundings : List Surrounding} {rest : Bytes} {b : UInt8} (hb : rest.head?.getD 0 = b)
    (number : startsNumber rest = true → motive ⟨Literal.scanNumber rest, surroundings⟩)
    (string : b = Quoted.doubleQuote ∨ b = Quoted.singleQuote →
      motive ⟨Literal.scanString rest, surroundings⟩)
    (template : b = Quoted.backtick → motive (template false surroundings rest))
    (name : b ∉ [Quoted.doubleQuote, Quoted.singleQuote, Quoted.backtick] →
      Literal.startsName rest = true →
        motive ⟨Literal.scanName (previous == some (.mark .dot) ||
          previous == some (.mark .questionDot)) rest, surroundings⟩)
    (openBrace : b = Quoted.openBrace → motive ⟨markToken .openBrace, .brace :: surroundings⟩)
    (closeBrace : b = Quoted.closeBrace → motive (closingBrace surroundings rest))
    (less : b = byte '<' → motive (lessThan previous surroundings rest))
    (greater : b = byte '>' → motive (greaterThan surroundings rest))
    (regex : b = byte '/' → motive ⟨Literal.scanRegex rest, surroundings⟩)
    (operator : startsNumber rest = false → Literal.startsName rest = false →
      b ∉ [Quoted.doubleQuote, Quoted.singleQuote, Quoted.backtick, Quoted.openBrace,
        Quoted.closeBrace, byte '<', byte '>'] → motive ⟨operator rest, surroundings⟩) :
    motive (code previous surroundings rest) := by
  subst hb
  refine iteInduction number fun hnumber ↦ iteInduction (fun h ↦ string (by simpa using h))
    fun hquote ↦ iteInduction (fun h ↦ template (beq_iff_eq.mp h)) fun htick ↦
      iteInduction (fun hname ↦ name ?_ hname) fun hname ↦
        iteInduction (fun h ↦ openBrace (beq_iff_eq.mp h)) fun hopen ↦
          iteInduction (fun h ↦ closeBrace (beq_iff_eq.mp h)) fun hclose ↦
            iteInduction (fun h ↦ less (beq_iff_eq.mp h)) fun hless ↦
              iteInduction (fun h ↦ greater (beq_iff_eq.mp h)) fun hgreater ↦
                iteInduction (fun h ↦ regex ?_) fun _ ↦ operator ?_ ?_ ?_
  · simp_all
  · exact beq_iff_eq.mp (Bool.and_eq_true_iff.mp h).1
  · simpa using hnumber
  · simpa using hname
  · simp_all

/-- The next lexeme of code, where no tag and no text between tags surrounds it. -/
theorem code_sound {previous : Option TokenKind} {surroundings : List Surrounding} {rest : Bytes}
    (hrest : rest ≠ []) (htag : Surrounding.inTag surroundings = false)
    (hchildren : surroundings.head? ≠ some .children) :
    (code previous surroundings rest).Sound surroundings rest := by
  obtain ⟨b, after, rfl⟩ := List.exists_cons_of_ne_nil hrest
  have hb : (b :: after).head?.getD 0 = b := rfl
  apply code_cases (motive := (·.Sound surroundings (b :: after))) hb
  case number =>
    intro hnumber
    refine sound_of_reads (Literal.scanNumber_reads hnumber) fun h ↦ ?_
    rcases Literal.scanNumber_kind h with rfl | rfl <;> exact ⟨by simp, rfl⟩
  case string =>
    intro hquote
    refine sound_of_reads ?_ fun h ↦ ?_
    · rw [htag]
      exact Literal.scanString_reads rfl hquote.symm
    · obtain ⟨rfl, -⟩ := Literal.stringBody_eq_token h
      exact ⟨by simp, rfl⟩
  case template =>
    intro htick
    exact template_sound rfl htick rfl
  case name =>
    intro _ hname
    refine sound_of_reads (Literal.scanName_reads hname) fun h ↦ ?_
    unfold Literal.scanName at h
    dsimp only at h
    split at h <;> obtain ⟨rfl, -, -⟩ := by simpa using h
    · exact ⟨by simp, rfl⟩
    · exact ⟨by simp, rfl⟩
  case openBrace =>
    rintro rfl
    refine markToken_sound (by simp) (front_of_head rfl rfl) ?_
    simp only [Surrounding.after]
    split
    · simp [Surrounding.inTag] at htag
    · simp at hchildren
    · rfl
  case closeBrace => exact fun hclose ↦ closingBrace_sound (congrArg some hclose)
  case less => exact fun hless ↦ lessThan_sound (congrArg some hless)
  case greater => exact fun hgreater ↦ greaterThan_sound (congrArg some hgreater)
  case regex =>
    intro _
    refine sound_of_reads (Literal.scanRegex_reads hrest) fun h ↦ ?_
    unfold Literal.scanRegex at h
    split at h
    · cases h
    · obtain ⟨rfl, -, -⟩ := by simpa using h
      exact ⟨by simp, rfl⟩
  case operator => exact fun _ _ _ ↦ operator_sound surroundings _

/-! ## Markup -/

/-- The marks of a tag, with the surroundings behind them. -/
def tagMarks (closing : Bool) (surroundings : List Surrounding) :
    List (Mark × List Surrounding) :=
  [(.openBrace, .markupExpression :: surroundings), (.assign, surroundings), (.dot, surroundings),
    (.colon, surroundings), (.tagOpen, .tag false :: surroundings),
    (.tagSelfClose, surroundings.drop 1),
    (.tagEnd, if closing then surroundings.drop 1 else .children :: surroundings.drop 1)]

/-- What a scan inside a tag can be, by the byte in front. -/
theorem tag_cases {motive : Scanned → Prop} {closing : Bool} {surroundings : List Surrounding}
    {rest : Bytes} {b : UInt8} (hb : rest.head?.getD 0 = b)
    (name : Byte.isIdentifierStart b = true →
      motive ⟨.token .identifier (rest.takeWhile isTagNamePart)
        (rest.takeWhile isTagNamePart).length, surroundings⟩)
    (string : b = Quoted.doubleQuote ∨ b = Quoted.singleQuote →
      motive ⟨Literal.scanAttributeString rest, surroundings⟩)
    (mark : ∀ m next, (m, next) ∈ tagMarks closing surroundings → bytes m.text <+: rest →
      motive ⟨markToken m, next⟩)
    (fault : motive ⟨.fault (.unexpectedInTag b) 0, surroundings⟩) :
    motive (tag closing surroundings rest) := by
  subst hb
  have hfront {m : Mark} {c : UInt8} (hc : (rest.head?.getD 0 == c) = true)
      (hm : bytes m.text = [c]) (hne : (0 == c) = false) : bytes m.text <+: rest := by
    cases rest with
    | nil => exact absurd hc (ne_true_of_eq_false hne)
    | cons b rest => exact front_of_head (congrArg some (beq_iff_eq.mp hc)) hm
  have hselfClose (h : (rest.head?.getD 0 == byte '/' && rest[1]? == some (byte '>')) = true) :
      bytes Mark.tagSelfClose.text <+: rest := by
    obtain ⟨hslash, hclose⟩ := Bool.and_eq_true_iff.mp h
    obtain ⟨more, rfl⟩ := hfront (m := .slash) hslash rfl rfl
    obtain ⟨more, rfl⟩ := List.head?_eq_some_iff.mp
      (List.head?_eq_getElem?.trans (beq_iff_eq.mp hclose))
    exact ⟨more, rfl⟩
  refine iteInduction name fun _ ↦ iteInduction (fun h ↦ string (by simpa using h)) fun _ ↦
    iteInduction (fun h ↦ mark .openBrace _ ?_ (hfront h rfl rfl)) fun _ ↦
      iteInduction (fun h ↦ mark .assign _ ?_ (hfront h rfl rfl)) fun _ ↦
        iteInduction (fun h ↦ mark .dot _ ?_ (hfront h rfl rfl)) fun _ ↦
          iteInduction (fun h ↦ mark .colon _ ?_ (hfront h rfl rfl)) fun _ ↦
            iteInduction (fun h ↦ mark .tagOpen _ ?_ (hfront h rfl rfl)) fun _ ↦
              iteInduction (fun h ↦ mark .tagSelfClose _ ?_ (hselfClose h)) fun _ ↦
                iteInduction (fun h ↦ mark .tagEnd _ ?_ (hfront h rfl rfl)) fun _ ↦ fault
  all_goals simp [tagMarks]

/-- The next lexeme inside a tag. -/
theorem tag_sound {closing : Bool} {outer : List Surrounding} {rest : Bytes} (hrest : rest ≠ []) :
    (tag closing (.tag closing :: outer) rest).Sound (.tag closing :: outer) rest := by
  obtain ⟨b, after, rfl⟩ := List.exists_cons_of_ne_nil hrest
  have hb : (b :: after).head?.getD 0 = b := rfl
  apply tag_cases (motive := (·.Sound (.tag closing :: outer) (b :: after))) hb
  case name =>
    intro hname
    refine sound_of_reads ?_ fun h ↦ ?_
    · refine Lexeme.reads_of_prefix rfl ?_ (List.takeWhile_prefix _) rfl
      simp [isTagNamePart, Byte.isIdentifierPart, hname]
    · obtain ⟨rfl, -, -⟩ := by simpa using h
      exact ⟨by simp, rfl⟩
  case string =>
    intro hquote
    refine sound_of_reads (Literal.scanAttributeString_reads rfl hquote.symm) fun h ↦ ?_
    unfold Literal.scanAttributeString at h
    dsimp only at h
    split at h
    · obtain ⟨rfl, -, -⟩ := by simpa using h
      exact ⟨by simp, rfl⟩
    · cases h
  case mark =>
    intro m next hmem hfront
    have hmark : m ≠ .closingTagOpen ∧
        next = Surrounding.after (.tag closing :: outer) (.mark m) := by
      simp only [tagMarks, List.mem_cons, Prod.mk.injEq, List.not_mem_nil, or_false] at hmem
      rcases hmem with ⟨rfl, rfl⟩ | ⟨rfl, rfl⟩ | ⟨rfl, rfl⟩ | ⟨rfl, rfl⟩ | ⟨rfl, rfl⟩ | ⟨rfl, rfl⟩ |
        ⟨rfl, rfl⟩
      all_goals cases closing <;> exact ⟨nofun, rfl⟩
    exact markToken_sound hmark.1 hfront hmark.2
  case fault => exact ⟨trivial, nofun, nofun⟩

/-- The next lexeme between tags. -/
theorem children_sound {outer : List Surrounding} {rest : Bytes} (hrest : rest ≠ []) :
    (children (.children :: outer) rest).Sound (.children :: outer) rest := by
  obtain ⟨b, after, rfl⟩ := List.exists_cons_of_ne_nil hrest
  unfold children
  dsimp only [List.head?_cons, Option.getD_some]
  split
  · next hb =>
    obtain rfl : b = byte '<' := by simpa using hb
    simp only [List.drop_succ_cons, List.drop_zero]
    split
    · next hslash =>
      have hsplit := List.takeWhile_append_dropWhile (p := Byte.isSpace) (l := after)
      have hspace : (after.takeWhile Byte.isSpace).all Byte.isSpace = true := List.all_takeWhile
      generalize after.takeWhile Byte.isSpace = space at *
      generalize after.dropWhile Byte.isSpace = behind at *
      subst hsplit
      have hhead : behind.head? = some (byte '/') := by
        rw [List.head?_eq_getElem?]
        simpa [List.getElem?_append_right] using hslash
      obtain ⟨behind, rfl⟩ := List.head?_eq_some_iff.mp hhead
      refine ⟨?_, fun h ↦ ?_, fun h ↦ ?_⟩
      · exact Lexeme.reads_of_append (byte '<' :: space ++ [byte '/']) behind
          (by simp) (by simp) (by simp) ⟨space, hspace, rfl⟩
      · simp [← (Lexeme.token.inj h).1]
      · rw [← (Lexeme.token.inj h).1]
        rfl
    · exact markToken_sound (by simp) (front_of_head rfl rfl) rfl
  split
  · next hb =>
    obtain rfl : b = Quoted.openBrace := by simpa using hb
    exact markToken_sound (by simp) (front_of_head rfl rfl) rfl
  · next hless hbrace =>
    refine sound_of_reads ?_ fun h ↦ ?_
    · refine Lexeme.reads_of_prefix rfl ?_ (List.takeWhile_prefix _) rfl
      simp_all
    · obtain ⟨rfl, -, -⟩ := by simpa using h
      exact ⟨by simp, rfl⟩

end Scan

end SignalView
