import Mathlib.Algebra.BigOperators.Group.List.Basic
import SignalView.Text.Name

/-!
# Parentheses that are left over

When the parentheses of a text that belong together are taken out, some are left that close, and
behind them some that open. What is left of two texts in a row depends only on what is left of each.
A text has paired parentheses when nothing is left of it. The pair around a whole text is dropped
exactly if the first parenthesis is paired with the last one.
-/

namespace SignalView

/-- The parentheses that are left over: some that close, and behind them some that open. -/
@[ext]
structure Parens where
  closing : Nat
  opening : Nat
  deriving DecidableEq

namespace Parens

/-- None are left over. -/
instance : One Parens := ⟨⟨0, 0⟩⟩

/-- Those that open are paired with those that close behind them. -/
instance : Mul Parens :=
  ⟨fun a b ↦ ⟨a.closing + (b.closing - a.opening), b.opening + (a.opening - b.closing)⟩⟩

@[simp]
theorem closing_one : (1 : Parens).closing = 0 := rfl

@[simp]
theorem opening_one : (1 : Parens).opening = 0 := rfl

@[simp]
theorem closing_mul (a b : Parens) : (a * b).closing = a.closing + (b.closing - a.opening) := rfl

@[simp]
theorem opening_mul (a b : Parens) : (a * b).opening = b.opening + (a.opening - b.closing) := rfl

instance : Monoid Parens where
  mul_assoc a b c := by ext <;> simp <;> omega
  one_mul a := by ext <;> simp
  mul_one a := by ext <;> simp

theorem mul_eq_one_iff {a b : Parens} :
    a * b = 1 ↔ a.closing = 0 ∧ a.opening = b.closing ∧ b.opening = 0 := by
  simp only [Parens.ext_iff, closing_mul, opening_mul, closing_one, opening_one]
  omega

/-- What one byte leaves over. -/
def of (b : UInt8) : Parens :=
  if b == byte '(' then ⟨0, 1⟩ else if b == byte ')' then ⟨1, 0⟩ else 1

theorem of_open : of (byte '(') = ⟨0, 1⟩ := rfl

theorem of_close : of (byte ')') = ⟨1, 0⟩ := rfl

end Parens

/-! ## Texts -/

/-- What is left of the parentheses of a text. -/
def unpaired (text : Bytes) : Parens := (text.map Parens.of).prod

@[simp]
theorem unpaired_nil : unpaired [] = 1 := rfl

@[simp]
theorem unpaired_cons (b : UInt8) (text : Bytes) :
    unpaired (b :: text) = Parens.of b * unpaired text :=
  List.prod_cons

@[simp]
theorem unpaired_append (front back : Bytes) :
    unpaired (front ++ back) = unpaired front * unpaired back := by
  simp [unpaired]

/-- Every parenthesis of the text is paired with another one. -/
abbrev Paired (text : Bytes) : Prop := unpaired text = 1

theorem paired_flatten {texts : List Bytes} (h : ∀ text ∈ texts, Paired text) :
    Paired texts.flatten := by
  induction texts with
  | nil => rfl
  | cons text texts ih =>
    rw [List.forall_mem_cons] at h
    rw [List.flatten_cons, Paired, unpaired_append, h.1, ih h.2, one_mul]

theorem paired_join {separator : Bytes} (hseparator : Paired separator) {texts : List Bytes}
    (h : ∀ text ∈ texts, Paired text) : Paired (Bytes.join separator texts) := by
  induction texts with
  | nil => rfl
  | cons text texts ih =>
    rw [List.forall_mem_cons] at h
    cases texts with
    | nil => simpa [Bytes.join] using h.1
    | cons next texts =>
      have hrest : Paired (Bytes.join separator (next :: texts)) := ih h.2
      have hjoin : Bytes.join separator (text :: next :: texts) =
          text ++ (separator ++ Bytes.join separator (next :: texts)) := by
        simp [Bytes.join]
      rw [hjoin, Paired, unpaired_append, unpaired_append, h.1, hseparator, hrest]
      rfl

theorem paired_of_forall {text : Bytes} (h : ∀ b ∈ text, Parens.of b = 1) : Paired text :=
  List.prod_eq_one (List.forall_mem_map.mpr h)

theorem paired_repeated (count : Nat) {text : Bytes} (h : Paired text) :
    Paired (Bytes.repeated count text) :=
  paired_flatten fun _ hmem ↦ List.eq_of_mem_replicate hmem ▸ h

namespace Quoted

theorem unpaired_escapeByte (b : UInt8) : unpaired (escapeByte singleQuote b) = Parens.of b := by
  have h : ∀ n : Fin 256,
      unpaired (escapeByte singleQuote (UInt8.ofFin n)) = Parens.of (UInt8.ofFin n) := by
    decide +kernel
  exact h b.toFin

/-- A quoted text has the parentheses of the text itself. -/
@[simp]
theorem unpaired_quoted (text : Bytes) : unpaired (quoted text) = unpaired text := by
  have hescape : unpaired (escape singleQuote text) = unpaired text := by
    induction text with
    | nil => rfl
    | cons b text ih =>
      rw [escape, List.flatMap_cons, unpaired_append, unpaired_escapeByte, unpaired_cons]
      exact congrArg (Parens.of b * ·) ih
  have hquote : Parens.of singleQuote = 1 := rfl
  simp [quoted, quoteWith, hescape, hquote]

/-! ## The pair around a text -/

/-- A parenthesis stays open through a text that does not close it, whatever is opened before. -/
theorem staysOpen_iff (depth : Nat) (text : Bytes) :
    staysOpen (depth + 1) text = true ↔ (unpaired text).closing ≤ depth := by
  induction text generalizing depth with
  | nil => exact iff_of_true rfl (Nat.zero_le _)
  | cons b text ih =>
    rw [unpaired_cons, Parens.closing_mul]
    by_cases hopen : b = byte '('
    · have hstep : staysOpen (depth + 1) (b :: text) = staysOpen (depth + 1 + 1) text := by
        simp [staysOpen, hopen]
      rw [hstep, ih, hopen, Parens.of_open]
      simp
    · by_cases hclose : b = byte ')'
      · have hstep : staysOpen (depth + 1) (b :: text) = (depth != 0 && staysOpen depth text) := by
          simp [staysOpen, hclose, show byte ')' ≠ byte '(' by decide]
        rw [hstep, hclose, Parens.of_close]
        cases depth with
        | zero => simp
        | succ depth =>
          simp [ih]
          omega
      · have hstep : staysOpen (depth + 1) (b :: text) = staysOpen (depth + 1) text := by
          simp [staysOpen, hopen, hclose]
        have hof : Parens.of b = 1 := by simp [Parens.of, hopen, hclose]
        rw [hstep, ih, hof]
        simp

/-- Parentheses around a paired text are dropped. -/
theorem stripParens_parens {inner : Bytes} (h : Paired inner) :
    stripParens (bytes "(" ++ inner ++ bytes ")") = inner := by
  have hstays : staysOpen 1 inner = true := (staysOpen_iff 0 inner).mpr (by simp [h])
  have hsplit : bytes "(" ++ inner ++ bytes ")" = byte '(' :: (inner ++ [byte ')']) := rfl
  rw [hsplit, stripParens]
  simp [hstays]

/-- What is left when the pair around a text is dropped is paired if the text is. -/
theorem paired_stripParens {text : Bytes} (h : Paired text) : Paired (stripParens text) := by
  unfold stripParens
  split
  · next first rest =>
    split
    · next hparens =>
      simp only [Bool.and_eq_true, beq_iff_eq] at hparens
      obtain ⟨⟨rfl, hlast⟩, hstays⟩ := hparens
      obtain ⟨inner, rfl⟩ := List.getLast?_eq_some_iff.mp hlast
      rw [List.dropLast_concat] at hstays ⊢
      have hclosing := Nat.le_zero.mp ((staysOpen_iff 0 inner).mp hstays)
      rw [Paired, unpaired_cons, unpaired_append, unpaired_cons, Parens.of_open, Parens.of_close,
        Parens.mul_eq_one_iff] at h
      obtain ⟨-, hpartner, -⟩ := h
      simp only [unpaired_nil, mul_one, Parens.closing_mul] at hpartner
      ext
      · exact hclosing
      · rw [Parens.opening_one]
        omega
    · exact h
  · exact h

theorem stripParens_of_head {text : Bytes} (h : text.head? ≠ some (byte '(')) :
    stripParens text = text := by
  cases text with
  | nil => rfl
  | cons b text =>
    have hb : (b == byte '(') = false := by simpa using h
    simp [stripParens, hb]

/-- Nothing is dropped from a text whose first parenthesis is paired before its end. -/
theorem stripParens_append {front back : Bytes} (hpaired : Paired front) (hfront : front ≠ [])
    (hback : back ≠ []) : stripParens (front ++ back) = front ++ back := by
  obtain ⟨b, more, rfl⟩ := List.exists_cons_of_ne_nil hfront
  by_cases hb : b = byte '('
  · rw [hb, Paired, unpaired_cons, Parens.of_open, Parens.mul_eq_one_iff] at hpaired
    have hpartner : 1 = (unpaired more).closing := hpaired.2.1
    have hcloses : staysOpen 1 (more ++ back.dropLast) = false := by
      rw [← Bool.not_eq_true, staysOpen_iff 0, unpaired_append, Parens.closing_mul]
      omega
    have hlast : (more ++ back).dropLast = more ++ back.dropLast :=
      List.dropLast_append_of_ne_nil hback
    rw [List.cons_append, stripParens, hlast, hcloses, Bool.and_false, if_neg Bool.false_ne_true]
  · exact stripParens_of_head (by simpa using hb)

-- A parenthesis inside a literal counts like any other, so that a pair is seen where none is.
example : stripParens (bytes "('(' + a) + (b)") = bytes "'(' + a) + (b" := by decide +kernel

end Quoted

/-! ## Texts that are in no pair of their own -/

/-- A text that starts with something else than an open parenthesis. -/
def IsWord (text : Bytes) : Prop := text ≠ [] ∧ text.head? ≠ some (byte '(')

instance (text : Bytes) : Decidable (IsWord text) := inferInstanceAs (Decidable (_ ∧ _))

theorem IsWord.append {word : Bytes} (h : IsWord word) (rest : Bytes) : IsWord (word ++ rest) := by
  obtain ⟨b, more, rfl⟩ := List.exists_cons_of_ne_nil h.1
  exact ⟨List.cons_ne_nil _ _, h.2⟩

theorem isWord_quoted (text : Bytes) : IsWord (Quoted.quoted text) :=
  ⟨List.cons_ne_nil _ _, show some Quoted.singleQuote ≠ some (byte '(') by decide⟩

/-- A text with a word behind some paired parentheses. -/
def HasWord (text : Bytes) : Prop :=
  ∃ front back, text = front ++ back ∧ Paired front ∧ IsWord back

namespace HasWord

variable {text front word : Bytes}

theorem of_isWord (h : IsWord text) : HasWord text := ⟨[], text, rfl, rfl, h⟩

theorem behind (hfront : Paired front) (hword : IsWord word) : HasWord (front ++ word) :=
  ⟨front, word, rfl, hfront, hword⟩

theorem append (h : HasWord text) (rest : Bytes) : HasWord (text ++ rest) := by
  obtain ⟨front, back, rfl, hfront, hback⟩ := h
  exact ⟨front, back ++ rest, List.append_assoc _ _ _, hfront, hback.append rest⟩

end HasWord

/-- A text with paired parentheses that is not empty, and that is in no pair of its own. -/
structure Unwrapped (text : Bytes) : Prop where
  paired : Paired text
  ne_nil : text ≠ []
  stripParens_eq : Quoted.stripParens text = text

namespace Unwrapped

theorem of_hasWord {text : Bytes} (h : HasWord text) (hpaired : Paired text) : Unwrapped text := by
  refine ⟨hpaired, ?_, ?_⟩
  all_goals obtain ⟨front, back, rfl, hfront, hback⟩ := h
  · exact List.append_ne_nil_of_right_ne_nil _ hback.1
  · cases front with
    | nil => exact Quoted.stripParens_of_head hback.2
    | cons b front => exact Quoted.stripParens_append hfront (List.cons_ne_nil _ _) hback.1

theorem append {front back : Bytes} (hfront : Paired front) (hne : front ≠ [])
    (hback : Paired back) (hne' : back ≠ []) : Unwrapped (front ++ back) where
  paired := by simp [Paired, hfront, hback]
  ne_nil := List.append_ne_nil_of_left_ne_nil hne _
  stripParens_eq := Quoted.stripParens_append hfront hne hne'

end Unwrapped

end SignalView
