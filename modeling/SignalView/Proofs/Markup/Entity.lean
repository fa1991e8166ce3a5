import Mathlib.Algebra.GroupWithZero.Nat
import Mathlib.Data.List.Basic
import SignalView.Markup.Entity

/-!
# Reading character references

A text falls into stretches: references, and bytes that stand for themselves. Decoding puts what the
stretches mean in the place of what they are written as, in one pass from front to back. So a
reference is read wherever it stands, nothing that was decoded is looked at again, and the text does
not grow.
-/

namespace SignalView

/-! ## Digits -/

namespace Bytes

/-- A number by its digits in a base, letters in lower case. -/
def digits (base n : Nat) : Bytes := (Nat.toDigits base n).map byte

theorem digitChar_eq_hexDigit {d : Nat} (hd : d < 16) :
    byte (Nat.digitChar d) = Byte.hexDigit d := by
  have h : ∀ d : Fin 16, byte (Nat.digitChar d) = Byte.hexDigit d := by decide
  exact h ⟨d, hd⟩

theorem hexValue_hexDigit {d : Nat} (hd : d < 16) : Byte.hexValue (Byte.hexDigit d) = d := by
  have h : ∀ d : Fin 16, Byte.hexValue (Byte.hexDigit d) = d := by decide
  exact h ⟨d, hd⟩

variable {base n : Nat} (hbase : 1 < base) (hsmall : base ≤ 16)
include hbase hsmall

theorem digits_eq :
    digits base n = (if n < base then [] else digits base (n / base)) ++
      [Byte.hexDigit (n % base)] := by
  have hlast : byte (Nat.digitChar (n % base)) = Byte.hexDigit (n % base) := by
    refine digitChar_eq_hexDigit (Nat.lt_of_lt_of_le (Nat.mod_lt n ?_) hsmall)
    omega
  unfold digits
  split
  · next hlt => rw [Nat.toDigits_of_lt_base hlt, ← hlast, Nat.mod_eq_of_lt hlt, List.map_singleton,
      List.nil_append]
  · next hle => rw [Nat.toDigits_of_base_le hbase (Nat.le_of_not_lt hle), List.map_append,
      List.map_singleton, hlast]

theorem exists_hexDigit_of_mem_digits {b : UInt8} (h : b ∈ digits base n) :
    ∃ d < base, b = Byte.hexDigit d := by
  induction n using Nat.strongRecOn with
  | _ n ih =>
    rw [digits_eq hbase hsmall, List.mem_append, List.mem_singleton] at h
    rcases h with hfront | rfl
    · split at hfront
      · cases hfront
      · next hle => exact ih (n / base) (Nat.div_lt_self (by omega) hbase) hfront
    · exact ⟨n % base, Nat.mod_lt n (by omega), rfl⟩

theorem toNat_digits : toNat base (digits base n) = n := by
  induction n using Nat.strongRecOn with
  | _ n ih =>
    have hlast : Byte.hexValue (Byte.hexDigit (n % base)) = n % base :=
      hexValue_hexDigit (Nat.lt_of_lt_of_le (Nat.mod_lt n (by omega)) hsmall)
    have hstep (front : Bytes) : toNat base (front ++ [Byte.hexDigit (n % base)]) =
        toNat base front * base + n % base := by
      simp [toNat, hlast]
    rw [digits_eq hbase hsmall, hstep]
    split
    · next hlt => simp [toNat, Nat.mod_eq_of_lt hlt]
    · rw [ih (n / base) (Nat.div_lt_self (by omega) hbase), Nat.mul_comm]
      exact Nat.div_add_mod n base

omit hsmall in
theorem length_digits_le {count : Nat} (hcount : 0 < count) (h : n < base ^ count) :
    (digits base n).length ≤ count := by
  rw [digits, List.length_map]
  exact (Nat.length_toDigits_le_iff hbase hcount).mpr h

omit hbase hsmall in
theorem digits_ne_nil : digits base n ≠ [] := by
  simp [digits, Nat.toDigits_ne_nil]

end Bytes

namespace Entity

/-! ## References -/

/-- Behind an ampersand a text goes on with the name of a code point, a semicolon and the rest. -/
structure Refers (text name : Bytes) (value : Nat) (rest : Bytes) : Prop where
  text_eq : text = name ++ byte ';' :: rest
  noSemicolon : byte ';' ∉ name
  near : name.length < reach
  names : codePoint name = some value

theorem reference_eq_some_iff {text : Bytes} {value used : Nat} :
    reference text = some (value, used) ↔
      ∃ name rest, Refers text name value rest ∧ used = name.length + 1 := by
  unfold reference
  constructor
  · intro h
    dsimp only at h
    split at h
    · next hlengths =>
      rw [Bool.and_eq_true, decide_eq_true_eq, decide_eq_true_eq] at hlengths
      obtain ⟨hinside, hnear⟩ := hlengths
      obtain ⟨value', hnames, heq⟩ := Option.map_eq_some_iff.mp h
      obtain ⟨rfl, rfl⟩ := Prod.mk.inj heq
      have hsplit := List.takeWhile_append_dropWhile (p := (· != byte ';')) (l := text)
      cases hbehind : text.dropWhile (· != byte ';') with
      | nil =>
        rw [hbehind, List.append_nil] at hsplit
        rw [hsplit] at hinside
        exact absurd hinside (Nat.lt_irrefl _)
      | cons b rest =>
        have hb : b = byte ';' := by
          have hhead := List.head?_dropWhile_not (p := (· != byte ';')) (l := text)
          rw [hbehind] at hhead
          simpa using hhead
        refine ⟨_, rest, ⟨?_, fun hmem ↦ ?_, hnear, hnames⟩, rfl⟩
        · rw [← hb, ← hbehind, hb, hsplit]
        · have hkept := List.all_eq_true.mp List.all_takeWhile _ hmem
          simp at hkept
    · cases h
  · rintro ⟨name, rest, ⟨rfl, hsemicolon, hnear, hnames⟩, rfl⟩
    have hname : (name ++ byte ';' :: rest).takeWhile (· != byte ';') = name := by
      have hkept (b : UInt8) (hb : b ∈ name) : (b != byte ';') = true :=
        bne_iff_ne.mpr fun heq ↦ hsemicolon (heq ▸ hb)
      rw [List.takeWhile_append_of_pos hkept]
      simp
    dsimp only
    rw [hname, if_pos, hnames]
    · rfl
    · simpa using hnear

theorem decodeFrom_length (front rest : Bytes) :
    decodeFrom front.length (front ++ rest) = decode rest := by
  induction front with
  | nil => rfl
  | cons b front ih => rw [List.length_cons, List.cons_append, decodeFrom, ih]

theorem decode_of_refers {text name rest : Bytes} {value : Nat} (h : Refers text name value rest) :
    decode (byte '&' :: text) = CodePoint.encode value ++ decode rest := by
  have hreference := reference_eq_some_iff.mpr ⟨name, rest, h, rfl⟩
  have hused : decodeFrom (name.length + 1) text = decode rest := by
    have hskip := decodeFrom_length (name ++ [byte ';']) rest
    rwa [List.length_append, List.append_assoc, List.singleton_append, ← h.text_eq] at hskip
  rw [decode, decodeFrom]
  simp only [BEq.rfl, if_true, hreference, hused]

theorem decode_cons {b : UInt8} {rest : Bytes}
    (h : b = byte '&' → ∀ name value tail, ¬Refers rest name value tail) :
    decode (b :: rest) = b :: decode rest := by
  rw [decode, decodeFrom]
  split
  · next hb =>
    cases hreference : reference rest with
    | none => rfl
    | some found =>
      obtain ⟨name, tail, hrefers, -⟩ := reference_eq_some_iff.mp hreference
      exact absurd hrefers (h (beq_iff_eq.mp hb) _ _ _)
  · rfl

theorem decode_append {front : Bytes} (h : byte '&' ∉ front) (rest : Bytes) :
    decode (front ++ rest) = front ++ decode rest := by
  induction front with
  | nil => rfl
  | cons b front ih =>
    have hne : b ≠ byte '&' := fun hb ↦ h (hb ▸ List.mem_cons_self)
    rw [List.cons_append, decode_cons fun hb ↦ absurd hb hne, ih (List.not_mem_of_not_mem_cons h),
      List.cons_append]

/-! ## What names a code point -/

theorem numericCodePoint_eq_some {base value : Nat} {isDigit : UInt8 → Bool} {digits : Bytes}
    (hdigits : ∀ b ∈ digits, isDigit b = true) (hne : digits ≠ [])
    (hvalue : Bytes.toNat base digits = value) (hlast : value ≤ CodePoint.last) :
    numericCodePoint base isDigit digits = some value := by
  unfold numericCodePoint
  rw [if_neg, if_pos (hvalue ▸ hlast), hvalue]
  simpa using ⟨hne, hdigits⟩

theorem digit_facts {d : Nat} (hd : d < 10) :
    Byte.isDigit (Byte.hexDigit d) = true ∧ Byte.hexDigit d ≠ byte 'x' ∧
      Byte.hexDigit d ≠ byte 'X' ∧ Byte.hexDigit d ≠ byte ';' := by
  have h : ∀ d : Fin 10, Byte.isDigit (Byte.hexDigit d) = true ∧ Byte.hexDigit d ≠ byte 'x' ∧
      Byte.hexDigit d ≠ byte 'X' ∧ Byte.hexDigit d ≠ byte ';' := by decide
  exact h ⟨d, hd⟩

theorem refers_decimal {value : Nat} (hlast : value ≤ CodePoint.last) (rest : Bytes) :
    Refers (byte '#' :: Bytes.ofNat value ++ byte ';' :: rest) (byte '#' :: Bytes.ofNat value) value
      rest := by
  have hdigit {b : UInt8} (h : b ∈ Bytes.ofNat value) : ∃ d < 10, b = Byte.hexDigit d :=
    Bytes.exists_hexDigit_of_mem_digits (by decide) (by decide) h
  have hlength : (Bytes.ofNat value).length ≤ 7 :=
    Bytes.length_digits_le (by decide) (by decide) (Nat.lt_of_le_of_lt hlast (by decide))
  refine ⟨rfl, fun hmem ↦ ?_, Nat.lt_of_le_of_lt (Nat.succ_le_succ hlength) (by decide), ?_⟩
  · obtain heq | hmem := List.mem_cons.mp hmem
    · exact absurd heq (by decide)
    · obtain ⟨d, hd, heq⟩ := hdigit hmem
      exact (digit_facts hd).2.2.2 heq.symm
  · have hne : Bytes.ofNat value ≠ [] := Bytes.digits_ne_nil
    obtain ⟨first, more, hdigits⟩ := List.exists_cons_of_ne_nil hne
    obtain ⟨d, hd, rfl⟩ := hdigit (hdigits ▸ List.mem_cons_self)
    obtain ⟨-, hlower, hupper, -⟩ := digit_facts hd
    rw [hdigits]
    simp only [codePoint, BEq.rfl, if_true, beq_false_of_ne hlower, beq_false_of_ne hupper,
      Bool.or_self, Bool.false_eq_true, if_false]
    rw [← hdigits]
    refine numericCodePoint_eq_some (fun b hb ↦ ?_) hne ?_ hlast
    · obtain ⟨d, hd, rfl⟩ := hdigit hb
      exact (digit_facts hd).1
    · exact Bytes.toNat_digits (by decide) (by decide)

/-- Letters count the same in both cases. -/
theorem hexDigit_facts {b : UInt8} {d : Nat} (hd : d < 16) (h : Byte.toLower b = Byte.hexDigit d) :
    Byte.isHexDigit b = true ∧ b ≠ byte ';' ∧ Byte.hexValue (Byte.toLower b) = Byte.hexValue b := by
  have hdigit : ∀ d : Fin 16, Byte.isHexDigit (Byte.hexDigit d) = true := by decide
  have hall : ∀ b : Fin 256, Byte.isHexDigit (Byte.toLower (.ofFin b)) = true →
      Byte.isHexDigit (.ofFin b) = true ∧ UInt8.ofFin b ≠ byte ';' ∧
        Byte.hexValue (Byte.toLower (.ofFin b)) = Byte.hexValue (.ofFin b) := by
    decide +kernel
  refine hall b.toFin ?_
  rw [UInt8.ofFin_toFin, h]
  exact hdigit ⟨d, hd⟩

theorem refers_hexadecimal {mark : UInt8} (hmark : mark = byte 'x' ∨ mark = byte 'X') {value : Nat}
    (hlast : value ≤ CodePoint.last) {digits : Bytes}
    (hdigits : digits.map Byte.toLower = Bytes.digits 16 value) (rest : Bytes) :
    Refers (byte '#' :: mark :: digits ++ byte ';' :: rest) (byte '#' :: mark :: digits) value
      rest := by
  have hdigit {b : UInt8} (h : b ∈ digits) : ∃ d < 16, Byte.toLower b = Byte.hexDigit d := by
    have hmem : Byte.toLower b ∈ Bytes.digits 16 value := hdigits ▸ List.mem_map_of_mem h
    exact Bytes.exists_hexDigit_of_mem_digits (by decide) (by decide) hmem
  have hlength : digits.length ≤ 6 := by
    rw [← List.length_map Byte.toLower, hdigits]
    exact Bytes.length_digits_le (by decide) (by decide) (Nat.lt_of_le_of_lt hlast (by decide))
  refine ⟨rfl, fun hmem ↦ ?_, ?_, ?_⟩
  · obtain heq | hmem := List.mem_cons.mp hmem
    · exact absurd heq (by decide)
    obtain heq | hmem := List.mem_cons.mp hmem
    · rcases hmark with rfl | rfl <;> exact absurd heq (by decide)
    · obtain ⟨d, hd, hlower⟩ := hdigit hmem
      exact (hexDigit_facts hd hlower).2.1 rfl
  · exact Nat.lt_of_le_of_lt (Nat.succ_le_succ (Nat.succ_le_succ hlength)) (by decide)
  · have hmark : (mark == byte 'x' || mark == byte 'X') = true := by simpa using hmark
    have hvalue : Bytes.toNat 16 digits = value := by
      have hsame : Bytes.toNat 16 (digits.map Byte.toLower) = Bytes.toNat 16 digits := by
        unfold Bytes.toNat
        rw [List.foldl_map]
        refine List.foldl_ext _ _ _ fun value b hb ↦ ?_
        obtain ⟨d, hd, hlower⟩ := hdigit hb
        rw [(hexDigit_facts hd hlower).2.2]
      rw [← hsame, hdigits]
      exact Bytes.toNat_digits (by decide) (by decide)
    simp only [codePoint, BEq.rfl, if_true, hmark]
    refine numericCodePoint_eq_some (fun b hb ↦ ?_) (fun hnil ↦ ?_) hvalue hlast
    · obtain ⟨d, hd, hlower⟩ := hdigit hb
      exact (hexDigit_facts hd hlower).1
    · rw [hnil] at hdigits
      exact Bytes.digits_ne_nil hdigits.symm

/-- The names are told apart, short, and free of the marks around them. -/
theorem table_facts : ∀ entry ∈ table, codePoint (bytes entry.1) = some entry.2 ∧
    byte ';' ∉ bytes entry.1 ∧ (bytes entry.1).length < reach ∧ 2 ≤ (bytes entry.1).length := by
  decide +kernel

theorem refers_named {entry : String × Nat} (h : entry ∈ table) (rest : Bytes) :
    Refers (bytes entry.1 ++ byte ';' :: rest) (bytes entry.1) entry.2 rest := by
  obtain ⟨hnames, hsemicolon, hnear, -⟩ := table_facts entry h
  exact ⟨rfl, hsemicolon, hnear, hnames⟩

/-- What names a code point is at least two bytes long. -/
theorem two_le_length_of_codePoint {name : Bytes} {value : Nat} (h : codePoint name = some value) :
    2 ≤ name.length := by
  have hnamed {name : Bytes} (h : namedCodePoint name = some value) : 2 ≤ name.length := by
    obtain ⟨entry, hentry, -⟩ := Option.map_eq_some_iff.mp h
    have hfound := List.find?_some hentry
    have hname : bytes entry.1 = name := beq_iff_eq.mp hfound
    exact hname ▸ (table_facts entry (List.mem_of_find?_eq_some hentry)).2.2.2
  match name with
  | [] => exact hnamed h
  | [_] => exact hnamed h
  | _ :: _ :: _ => simp

theorem length_encode_le (value : Nat) : (CodePoint.encode value).length ≤ 4 := by
  unfold CodePoint.encode
  split
  · exact Nat.le_add_left 1 3
  · split
    · exact Nat.le_add_left 2 2
    · split
      · exact Nat.le_add_left 3 1
      · exact Nat.le_refl 4

/-! ## Stretches -/

/-- A byte that stands for itself, or a reference by its name and the code point it names. -/
inductive Stretch where
  | plain (b : UInt8)
  | reference (name : Bytes) (value : Nat)

namespace Stretch

def written : Stretch → Bytes
  | plain b => [b]
  | reference name _ => byte '&' :: name ++ [byte ';']

def meaning : Stretch → Bytes
  | plain b => [b]
  | reference _ value => CodePoint.encode value

end Stretch

/-- The stretches that a text falls into: an ampersand stands for itself only when no reference
starts at it. -/
inductive FallsInto : Bytes → List Stretch → Prop
  | nil : FallsInto [] []
  | plain {b : UInt8} {rest : Bytes} {stretches : List Stretch}
    (hplain : b = byte '&' → ∀ name value tail, ¬Refers rest name value tail)
    (hrest : FallsInto rest stretches) : FallsInto (b :: rest) (.plain b :: stretches)
  | reference {text name rest : Bytes} {value : Nat} {stretches : List Stretch}
    (hrefers : Refers text name value rest) (hrest : FallsInto rest stretches) :
    FallsInto (byte '&' :: text) (.reference name value :: stretches)

theorem exists_fallsInto (text : Bytes) : ∃ stretches, FallsInto text stretches := by
  induction hlength : text.length using Nat.strongRecOn generalizing text with
  | _ length ih =>
    cases text with
    | nil => exact ⟨[], .nil⟩
    | cons b rest =>
      rw [List.length_cons] at hlength
      by_cases h : b = byte '&' ∧ ∃ name value tail, Refers rest name value tail
      · obtain ⟨rfl, name, value, tail, hrefers⟩ := h
        have hshorter : tail.length < length := by
          rw [hrefers.text_eq, List.length_append, List.length_cons] at hlength
          omega
        obtain ⟨stretches, htail⟩ := ih tail.length hshorter tail rfl
        exact ⟨_, .reference hrefers htail⟩
      · obtain ⟨stretches, hrest⟩ := ih rest.length (by omega) rest rfl
        have hplain : b = byte '&' → ∀ name value tail, ¬Refers rest name value tail :=
          fun hb name value tail hrefers ↦ h ⟨hb, name, value, tail, hrefers⟩
        exact ⟨_, .plain hplain hrest⟩

namespace FallsInto

variable {text : Bytes} {stretches : List Stretch}

theorem text_eq (h : FallsInto text stretches) : text = stretches.flatMap (·.written) := by
  induction h with
  | nil => rfl
  | plain _ _ ih =>
    rw [List.flatMap_cons, ← ih]
    rfl
  | reference hrefers _ ih =>
    rw [List.flatMap_cons, ← ih, hrefers.text_eq]
    simp [Stretch.written]

theorem decode_eq (h : FallsInto text stretches) :
    decode text = stretches.flatMap (·.meaning) := by
  induction h with
  | nil => rfl
  | plain hplain _ ih => rw [decode_cons hplain, ih, List.flatMap_cons, Stretch.meaning,
      List.singleton_append]
  | reference hrefers _ ih => rw [decode_of_refers hrefers, ih, List.flatMap_cons, Stretch.meaning]

theorem length_decode_le (h : FallsInto text stretches) : (decode text).length ≤ text.length := by
  induction h with
  | nil => exact Nat.le_refl 0
  | plain hplain _ ih =>
    rw [decode_cons hplain]
    exact Nat.succ_le_succ ih
  | reference hrefers _ ih =>
    have hname := two_le_length_of_codePoint hrefers.names
    have hencode := length_encode_le
    rw [decode_of_refers hrefers, hrefers.text_eq]
    simp only [List.length_append, List.length_cons]
    exact Nat.le_trans (Nat.add_le_add (hencode _) ih) (by omega)

end FallsInto

/-! ## Reading back -/

/-- The text with every ampersand written as a reference. -/
def escape (text : Bytes) : Bytes :=
  text.flatMap fun b ↦ if b = byte '&' then bytes "&amp;" else [b]

theorem decode_escape (text : Bytes) : decode (escape text) = text := by
  induction text with
  | nil => rfl
  | cons b rest ih =>
    unfold escape at ih ⊢
    rw [List.flatMap_cons]
    split
    · next hb =>
      have hamp : (("amp", 0x26) : String × Nat) ∈ table := by decide +kernel
      have hread := decode_of_refers (refers_named hamp (escape rest))
      subst hb
      exact hread.trans (congrArg _ ih)
    · next hb => rw [List.singleton_append, decode_cons fun h ↦ absurd h hb, ih]

/-- Decoding is exact and takes one pass. A text whose ampersands are all escaped is read back.
Behind a front without ampersands a reference is read as its code point, by number or by name, and
what follows it is decoded on its own. Every text falls into stretches that are decoded each for
itself, and it does not get longer. -/
theorem decode_exact :
    (∀ text, decode (escape text) = text) ∧
    (∀ front rest : Bytes, byte '&' ∉ front →
      (∀ value ≤ CodePoint.last,
        decode (front ++ byte '&' :: byte '#' :: Bytes.ofNat value ++ byte ';' :: rest) =
            front ++ CodePoint.encode value ++ decode rest ∧
          ∀ mark ∈ [byte 'x', byte 'X'], ∀ digits : Bytes,
            digits.map Byte.toLower = Bytes.digits 16 value →
            decode (front ++ byte '&' :: byte '#' :: mark :: digits ++ byte ';' :: rest) =
              front ++ CodePoint.encode value ++ decode rest) ∧
      ∀ entry ∈ table,
        decode (front ++ byte '&' :: bytes entry.1 ++ byte ';' :: rest) =
          front ++ CodePoint.encode entry.2 ++ decode rest) ∧
    ∀ text, (decode text).length ≤ text.length ∧
      ∃ stretches, FallsInto text stretches ∧ text = stretches.flatMap (·.written) ∧
        decode text = stretches.flatMap (·.meaning) := by
  have hbehind {front text name rest : Bytes} {value : Nat} (hfront : byte '&' ∉ front)
      (h : Refers text name value rest) :
      decode (front ++ byte '&' :: text) = front ++ CodePoint.encode value ++ decode rest := by
    rw [decode_append hfront, decode_of_refers h, List.append_assoc]
  refine ⟨decode_escape, fun front rest hfront ↦ ⟨fun value hlast ↦ ⟨?_, ?_⟩, ?_⟩, fun text ↦ ?_⟩
  · rw [List.append_assoc]
    exact hbehind hfront (refers_decimal hlast rest)
  · intro mark hmark digits hdigits
    have hmark : mark = byte 'x' ∨ mark = byte 'X' := by simpa using hmark
    rw [List.append_assoc]
    exact hbehind hfront (refers_hexadecimal hmark hlast hdigits rest)
  · intro entry hentry
    rw [List.append_assoc]
    exact hbehind hfront (refers_named hentry rest)
  · obtain ⟨stretches, h⟩ := exists_fallsInto text
    exact ⟨h.length_decode_le, stretches, h, h.text_eq, h.decode_eq⟩

/-- A name in front of text that looks like another reference, and a number in upper case. -/
theorem decode_exact_amp :
    byte '&' ∉ bytes "a;" ∧ ("amp", 0x26) ∈ table ∧ 0x1F6 ≤ CodePoint.last ∧
      (bytes "1F6").map Byte.toLower = Bytes.digits 16 0x1F6 ∧
      decode (bytes "a;&amp;lt;") = bytes "a;&lt;" ∧
      decode (bytes "a;&#x1F6;&") = bytes "a;" ++ [0xC7, 0xB6] ++ bytes "&" := by
  have hfront : byte '&' ∉ bytes "a;" := by decide
  have hentry : ("amp", 0x26) ∈ table := by decide +kernel
  have hdigits : (bytes "1F6").map Byte.toLower = Bytes.digits 16 0x1F6 := by decide
  have hlast : 0x1F6 ≤ CodePoint.last := by decide
  refine ⟨hfront, hentry, hlast, hdigits, ?_, ?_⟩
  · exact ((decode_exact.2.1 _ (bytes "lt;") hfront).2 _ hentry).trans (by decide +kernel)
  · have hread :=
      ((decode_exact.2.1 _ (bytes "&") hfront).1 _ hlast).2 _ List.mem_cons_self _ hdigits
    exact hread.trans (by decide +kernel)

end Entity

end SignalView
