import Mathlib.Data.List.Nodup
import SignalView.Text.Bytes

/-!
# Sorted collections of texts

Texts are ordered strictly, and what is added to a sorted list goes to its place, unless it is there
already. So a list that is built in this way has nothing twice.
-/

namespace SignalView

/-- A test that compares by a strict order in which any two elements can be compared. -/
structure StrictlyOrders {α : Type} (before : α → α → Bool) : Prop where
  irrefl (a : α) : before a a = false
  trans {a b c : α} (hab : before a b = true) (hbc : before b c = true) : before a c = true
  total {a b : α} (hne : a ≠ b) (hab : before a b = false) : before b a = true

theorem Bytes.before_strictlyOrders : StrictlyOrders Bytes.before where
  irrefl a := by
    induction a with
    | nil => rfl
    | cons b as ih => simp [before, ih]
  trans {a b c} hab hbc := by
    induction a generalizing b c with
    | nil => cases b <;> cases c <;> simp_all [before]
    | cons x as ih =>
      cases b with
      | nil => cases hab
      | cons y bs =>
        cases c with
        | nil => cases hbc
        | cons z cs =>
          simp only [before, Bool.or_eq_true, decide_eq_true_eq, Bool.and_eq_true, beq_iff_eq]
            at hab hbc ⊢
          rcases hab with hxy | ⟨rfl, hab⟩ <;> rcases hbc with hyz | ⟨rfl, hbc⟩
          · exact .inl (UInt8.lt_trans hxy hyz)
          · exact .inl hxy
          · exact .inl hyz
          · exact .inr ⟨rfl, ih hab hbc⟩
  total {a b} hne hab := by
    induction a generalizing b with
    | nil => cases b <;> simp_all [before]
    | cons x as ih =>
      cases b with
      | nil => rfl
      | cons y bs =>
        simp only [before, Bool.or_eq_false_iff, decide_eq_false_iff_not, Bool.or_eq_true,
          decide_eq_true_eq, Bool.and_eq_true, beq_iff_eq] at hab ⊢
        rcases UInt8.lt_or_eq_of_le (UInt8.not_lt.mp hab.1) with hlt | rfl
        · exact .inl hlt
        · refine .inr ⟨rfl, ih (fun heq ↦ hne (heq ▸ rfl)) ?_⟩
          simpa using hab.2

section Sorted

variable {α : Type} {before : α → α → Bool} {a b : α} {items : List α}

theorem mem_insertSorted [BEq α] [LawfulBEq α] :
    b ∈ insertSorted before a items ↔ b = a ∨ b ∈ items := by
  induction items with
  | nil => simp [insertSorted]
  | cons c items ih => grind [insertSorted]

theorem mem_foldl_insertSorted [BEq α] [LawfulBEq α] {more : List α} :
    b ∈ more.foldl (fun sorted a ↦ insertSorted before a sorted) items ↔ b ∈ items ∨ b ∈ more := by
  induction more generalizing items with
  | nil => simp
  | cons first more ih =>
    rw [List.foldl_cons, ih, mem_insertSorted, List.mem_cons]
    tauto

/-- Elements that are ordered by keys and told apart by them are sorted as their keys are. -/
theorem map_foldl_insertSorted {β : Type} [BEq α] [LawfulBEq α] [BEq β] [LawfulBEq β]
    {before : β → β → Bool} {key : α → β} {more : List α}
    (hkey : ∀ a b, (a ∈ items ∨ a ∈ more) → (b ∈ items ∨ b ∈ more) → key a = key b → a = b) :
    (more.foldl (fun sorted a ↦ insertSorted (fun a b ↦ before (key a) (key b)) a sorted)
      items).map key =
      (more.map key).foldl (fun sorted b ↦ insertSorted before b sorted) (items.map key) := by
  have hinsert {a : α} {sorted : List α} (ha : ∀ b ∈ sorted, key a = key b → a = b) :
      (insertSorted (fun a b ↦ before (key a) (key b)) a sorted).map key =
        insertSorted before (key a) (sorted.map key) := by
    induction sorted with
    | nil => rfl
    | cons b sorted ih =>
      obtain ⟨hb, hsorted⟩ := List.forall_mem_cons.mp ha
      have hsame : (a == b) = (key a == key b) := by
        rw [Bool.eq_iff_iff, beq_iff_eq, beq_iff_eq]
        exact ⟨congrArg key, hb⟩
      simp only [insertSorted, List.map_cons, hsame, apply_ite (List.map key), ih hsorted]
  induction more generalizing items with
  | nil => rfl
  | cons first more ih =>
    have hfirst : ∀ b ∈ items, key first = key b → first = b := fun b hb ↦
      hkey first b (.inr List.mem_cons_self) (.inl hb)
    rw [List.foldl_cons, ih, List.map_cons, List.foldl_cons, hinsert hfirst]
    intro a b ha hb
    rw [mem_insertSorted] at ha hb
    refine hkey a b ?_ ?_
    · rw [List.mem_cons]
      tauto
    · rw [List.mem_cons]
      tauto

namespace StrictlyOrders

variable (h : StrictlyOrders before)
include h

theorem sorted_insertSorted [BEq α] [LawfulBEq α]
    (hsorted : items.Pairwise (before · · = true)) :
    (insertSorted before a items).Pairwise (before · · = true) := by
  induction items with
  | nil => simp [insertSorted]
  | cons c items ih =>
    obtain ⟨hc, hitems⟩ := List.pairwise_cons.mp hsorted
    unfold insertSorted
    split
    · exact hsorted
    · next hne =>
      split
      · next hac =>
        refine .cons ?_ hsorted
        simpa [hac] using fun d hd ↦ h.trans hac (hc d hd)
      · next hac =>
        refine .cons (fun d hd ↦ ?_) (ih hitems)
        obtain rfl | hd := mem_insertSorted.mp hd
        · exact h.total (by simpa using hne) (by simpa using hac)
        · exact hc d hd

theorem nodup (hsorted : items.Pairwise (before · · = true)) : items.Nodup :=
  hsorted.imp fun hab heq ↦ by
    subst heq
    rw [h.irrefl] at hab
    cases hab

theorem asymm (hab : before a b = true) : before b a = false := by
  cases hba : before b a with
  | false => rfl
  | true =>
    have haa := h.trans hab hba
    rw [h.irrefl] at haa
    cases haa

/-- A sorted list is settled by what it has in it. -/
theorem eq_of_mem_iff {more : List α} (hitems : items.Pairwise (before · · = true))
    (hmore : more.Pairwise (before · · = true)) (hmem : ∀ a, a ∈ items ↔ a ∈ more) :
    items = more := by
  refine List.Perm.eq_of_pairwise (fun a b _ _ hab hba ↦ ?_) hitems hmore ?_
  · rw [h.asymm hab] at hba
    cases hba
  · exact (List.perm_ext_iff_of_nodup (h.nodup hitems) (h.nodup hmore)).mpr hmem

/-- What comes behind all of a sorted list is added at its end. -/
theorem insertSorted_concat [BEq α] [LawfulBEq α] (hitems : ∀ b ∈ items, before b a = true) :
    insertSorted before a items = items ++ [a] := by
  induction items with
  | nil => rfl
  | cons b items ih =>
    obtain ⟨hb, hitems⟩ := List.forall_mem_cons.mp hitems
    have hne : (a == b) = false := by
      refine beq_false_of_ne ?_
      rintro rfl
      rw [h.irrefl] at hb
      cases hb
    simp only [insertSorted, hne, h.asymm hb, ih hitems, Bool.false_eq_true, if_false,
      List.cons_append]

end StrictlyOrders

end Sorted

/-! ## Texts without repetition -/

section Distinct

variable {text : Bytes} {texts : List Bytes}

theorem mem_sortedDistinct : text ∈ sortedDistinct texts ↔ text ∈ texts := by
  simp [sortedDistinct, mem_foldl_insertSorted]

theorem sortedDistinct_sorted (texts : List Bytes) :
    (sortedDistinct texts).Pairwise (Bytes.before · · = true) := by
  apply List.foldlRecOn texts _ .nil
  intro sorted hsorted text _
  exact Bytes.before_strictlyOrders.sorted_insertSorted hsorted

theorem sortedDistinct_eq {more : List Bytes} (h : ∀ text, text ∈ texts ↔ text ∈ more) :
    sortedDistinct texts = sortedDistinct more :=
  Bytes.before_strictlyOrders.eq_of_mem_iff (sortedDistinct_sorted texts)
    (sortedDistinct_sorted more) fun text ↦ by simp only [mem_sortedDistinct, h]

end Distinct

end SignalView
