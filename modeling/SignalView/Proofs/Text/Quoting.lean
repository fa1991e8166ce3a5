import SignalView.Text.Quoted

/-!
# Reading quoted text back

What a quote or a template encloses is read back as the text that was written, byte by byte: a byte
is written as itself or behind a backslash, and the backslash tells the two apart. So a byte can be
read back whatever is written behind it.
-/

namespace SignalView.Quoted

/-- The quotes of strings. -/
def stringQuotes : List UInt8 := [singleQuote, doubleQuote]

/-- The marks that a text can be written between. -/
def quotes : List UInt8 := [singleQuote, doubleQuote, backtick]

/-! ## Escapes -/

/-- A control byte by its two digits. -/
theorem hexDigits_of_lt {b : UInt8} (hb : b < 0x20) :
    Byte.isHexDigit (Byte.hexDigit (b.toNat / 16)) = true ∧
      Byte.isHexDigit (Byte.hexDigit (b.toNat % 16)) = true ∧
      Bytes.toNat 16 [Byte.hexDigit (b.toNat / 16), Byte.hexDigit (b.toNat % 16)] = b.toNat ∧
      CodePoint.encode b.toNat = [b] := by
  have h : ∀ n : Fin 256, UInt8.ofFin n < 0x20 →
      Byte.isHexDigit (Byte.hexDigit ((UInt8.ofFin n).toNat / 16)) = true ∧
        Byte.isHexDigit (Byte.hexDigit ((UInt8.ofFin n).toNat % 16)) = true ∧
        Bytes.toNat 16 [Byte.hexDigit ((UInt8.ofFin n).toNat / 16),
          Byte.hexDigit ((UInt8.ofFin n).toNat % 16)] = (UInt8.ofFin n).toNat ∧
        CodePoint.encode (UInt8.ofFin n).toNat = [UInt8.ofFin n] := by decide +kernel
  exact h b.toFin hb

theorem readEscape_hex {b : UInt8} (hb : b < 0x20) (tail : Bytes) :
    readEscape (byte 'x')
      (Byte.hexDigit (b.toNat / 16) :: Byte.hexDigit (b.toNat % 16) :: tail) = ([b], 2) := by
  obtain ⟨hfirst, hsecond, hvalue, hencode⟩ := hexDigits_of_lt hb
  have hword : b.toNat % 0x10000000000000000 = b.toNat :=
    Nat.mod_eq_of_lt (Nat.lt_of_lt_of_le b.toNat_lt (by decide))
  have hread : readHexPrefixed 2
      (Byte.hexDigit (b.toNat / 16) :: Byte.hexDigit (b.toNat % 16) :: tail) = some b.toNat := by
    change readHex [_, _] = _
    simp [readHex, hfirst, hsecond, hvalue, hword]
  have hunfold (text : Bytes) : readEscape (byte 'x') text =
      ((readHexPrefixed 2 text).map fun value ↦ (CodePoint.encode value, 2)).getD
        ([byte 'x'], 0) := by
    change readEscape 0x78 text = _
    unfold readEscape
    cases readHexPrefixed 2 text <;> rfl
  rw [hunfold, hread, ← hencode]
  rfl

/-! ## Reading on -/

theorem unescapeFrom_skip (front tail : Bytes) :
    unescapeFrom front.length (front ++ tail) = unescapeFrom 0 tail := by
  induction front with
  | nil => rfl
  | cons b front ih => rw [List.length_cons, List.cons_append, unescapeFrom, ih]

theorem unescapeFrom_plain {b : UInt8} (hb : b ≠ backslash) (tail : Bytes) :
    unescapeFrom 0 (b :: tail) = b :: unescapeFrom 0 tail := by
  cases tail with
  | nil => rfl
  | cons c tail => rw [unescapeFrom, beq_false_of_ne hb, if_neg Bool.false_ne_true]

/-- An escape is read as what it stands for. -/
theorem unescapeFrom_escape {first : UInt8} {value : Bytes} (front tail : Bytes)
    (h : readEscape first (front ++ tail) = (value, front.length)) :
    unescapeFrom 0 (backslash :: first :: (front ++ tail)) = value ++ unescapeFrom 0 tail := by
  rw [unescapeFrom, BEq.rfl, if_pos rfl, h]
  exact congrArg (value ++ ·) (unescapeFrom_skip (first :: front) tail)

/-- A backslash with one byte behind it. -/
theorem unescapeFrom_pair {first b : UInt8} (h : ∀ rest, readEscape first rest = ([b], 0))
    (tail : Bytes) : unescapeFrom 0 (backslash :: first :: tail) = b :: unescapeFrom 0 tail :=
  unescapeFrom_escape [] tail (h tail)

/-! ## Strings -/

theorem unescapeFrom_escapeByte {quote : UInt8} (hquote : quote ∈ quotes) (b : UInt8)
    (tail : Bytes) :
    unescapeFrom 0 (escapeByte quote b ++ tail) = b :: unescapeFrom 0 tail := by
  have hread (rest : Bytes) : readEscape quote rest = ([quote], 0) := by
    simp only [quotes, List.mem_cons, List.not_mem_nil, or_false] at hquote
    rcases hquote with rfl | rfl | rfl <;> rfl
  unfold escapeByte
  split
  · next hb =>
    obtain rfl := by simpa using hb
    exact unescapeFrom_pair (fun _ ↦ rfl) tail
  split
  · next hb =>
    obtain rfl := by simpa using hb
    exact unescapeFrom_pair (fun _ ↦ rfl) tail
  split
  · next hb =>
    obtain rfl := by simpa using hb
    exact unescapeFrom_pair (fun _ ↦ rfl) tail
  split
  · next hb =>
    obtain rfl := by simpa using hb
    exact unescapeFrom_pair (fun _ ↦ rfl) tail
  split
  · next hb =>
    obtain rfl := by simpa using hb
    exact unescapeFrom_pair hread tail
  split
  · next hb => exact unescapeFrom_escape [_, _] tail (readEscape_hex hb tail)
  · next hslash _ _ _ _ _ => exact unescapeFrom_plain (by simpa using hslash) tail

/-- What is escaped for a quote is read back. -/
theorem unescape_escape {quote : UInt8} (hquote : quote ∈ quotes) (text : Bytes) :
    unescape (escape quote text) = text := by
  unfold unescape escape
  induction text with
  | nil => rfl
  | cons b text ih => rw [List.flatMap_cons, unescapeFrom_escapeByte hquote, ih]

/-! ## Templates -/

/-- What is escaped for a template is read back. -/
theorem unescape_escapeTemplate (text : Bytes) : unescape (escapeTemplate text) = text := by
  unfold unescape
  fun_induction escapeTemplate text with
  | case1 => rfl
  | case2 b text hslash ih =>
    obtain rfl := by simpa using hslash
    rw [unescapeFrom_pair fun _ ↦ rfl, ih]
  | case3 b text _ htick ih =>
    obtain rfl := by simpa using htick
    rw [unescapeFrom_pair fun _ ↦ rfl, ih]
  | case4 b text _ _ hdollar ih =>
    obtain ⟨rfl, -⟩ : b = byte '$' ∧ _ := by simpa using hdollar
    rw [unescapeFrom_pair fun _ ↦ rfl, ih]
  | case5 b text hslash _ _ ih => rw [unescapeFrom_plain (by simpa using hslash), ih]

/-- A substitution does not start where none was written, with a backtick behind the text. -/
theorem escapeTemplate_head {text : Bytes} (h : text.head? ≠ some openBrace) (after : Bytes) :
    (escapeTemplate text ++ backtick :: after).head? ≠ some openBrace := by
  fun_cases escapeTemplate text with
  | case1 => nofun
  | case2 | case3 | case4 => nofun
  | case5 => exact h

end SignalView.Quoted
