import Mathlib.Algebra.BigOperators.Group.Multiset.Basic
import SignalView.Proofs.View.Places

/-!
# The views of a tree

A view is made of the contents of its slots, and these of theirs. All of them together, each as
often as it occurs, are the views of its tree.
-/

namespace SignalView

open Slot

variable {α β : Type}

/-! ## The contents of slots -/

namespace Slot

/-- What some slots hold. -/
def parts (slots : List (Slot α)) : List α := slots.filterMap (·.content)

@[simp]
theorem parts_nil : parts ([] : List (Slot α)) = [] := rfl

@[simp]
theorem parts_append (slots more : List (Slot α)) :
    parts (slots ++ more) = parts slots ++ parts more :=
  List.filterMap_append

@[simp]
theorem parts_filled (place : Place) (contents : List α) :
    parts (filled place contents) = contents := by
  simp [parts, filled, List.filterMap_map]

@[simp]
theorem parts_held (required : Bool) (place : Place) (content : Option α) :
    parts (held required place content) = content.toList := by
  cases content <;> cases required <;> simp [held, filled, parts]

@[simp]
theorem parts_flatMap (items : List β) (slots : β → List (Slot α)) :
    parts (items.flatMap slots) = items.flatMap fun item ↦ parts (slots item) :=
  List.filterMap_flatMap

theorem mem_parts {part : α} {slots : List (Slot α)} :
    part ∈ parts slots ↔ ∃ place, ⟨place, some part⟩ ∈ slots := by
  simp only [parts, List.mem_filterMap]
  constructor
  · rintro ⟨⟨place, content⟩, hmem, rfl⟩
    exact ⟨place, hmem⟩
  · rintro ⟨place, hmem⟩
    exact ⟨_, hmem, rfl⟩

end Slot

/-! ## Parts are smaller than the whole -/

section Sizes

variable [SizeOf α] {a : α}

theorem Param.sizeOf_lt_of_mem_parts {p : Param α} (h : a ∈ parts p.slots) :
    sizeOf a < sizeOf p := by
  refine Param.sizeOf_lt ?_
  simpa [Param.slots, Param.children] using h

theorem Callable.sizeOf_lt_of_mem_parts {f : Callable α} (h : a ∈ parts f.slots) :
    sizeOf a < sizeOf f := by
  refine Callable.sizeOf_lt ?_
  simpa [Callable.slots, Callable.children, Param.slots, Param.children] using h

theorem Arrow.sizeOf_lt_of_mem_parts {f : Arrow α} (h : a ∈ parts f.slots) :
    sizeOf a < sizeOf f := by
  refine Arrow.sizeOf_lt ?_
  obtain ⟨_, _, _, body | value, _⟩ := f <;>
    simpa [Arrow.slots, ArrowBody.slots, Arrow.children, ArrowBody.node, Param.slots,
      Param.children] using h

theorem Property.sizeOf_lt_of_mem_parts {p : Property α} (h : a ∈ parts p.slots) :
    sizeOf a < sizeOf p := by
  cases p
  simp only [Property.slots, parts_append, parts_held, List.mem_append] at h
  simp only [Property.mk.sizeOf_spec]
  rcases h with h | h <;> · have := sizeOf_lt_of_mem_toList h; omega

theorem ClassMember.sizeOf_lt_of_mem_parts {m : ClassMember α} (h : a ∈ parts m.slots) :
    sizeOf a < sizeOf m := by
  cases m
  simp only [ClassMember.slots, parts_append, parts_filled, parts_held, List.mem_append] at h
  simp only [ClassMember.mk.sizeOf_spec]
  rcases h with ((h | h) | h) | h
  · have := List.sizeOf_lt_of_mem h
    omega
  all_goals
    have := sizeOf_lt_of_mem_toList h
    omega

theorem ClassShape.sizeOf_lt_of_mem_parts {c : ClassShape α} (h : a ∈ parts c.slots) :
    sizeOf a < sizeOf c := by
  cases c
  simp only [ClassShape.slots, parts_append, parts_filled, parts_flatMap, List.mem_append] at h
  simp only [ClassShape.mk.sizeOf_spec]
  rcases h with (h | h) | h
  · have := List.sizeOf_lt_of_mem h
    omega
  · have := sizeOf_lt_of_mem_toList h
    omega
  · have := sizeOf_lt_of_mem_flatMap (fun _ ↦ ClassMember.sizeOf_lt_of_mem_parts) h
    omega

/-- Apart from the keys of properties and members, the parts of a plain construct are its
children. -/
theorem Plain.sizeOf_lt_of_mem_parts {form : Plain α} (h : a ∈ parts form.slots) :
    sizeOf a < sizeOf form := by
  cases form with
  | object properties =>
    simp only [Plain.slots, parts_flatMap] at h
    have := sizeOf_lt_of_mem_flatMap (fun _ ↦ Property.sizeOf_lt_of_mem_parts) h
    simp
    omega
  | classDeclaration c =>
    have := ClassShape.sizeOf_lt_of_mem_parts h
    simp
    omega
  | arrow f =>
    have := Arrow.sizeOf_lt_of_mem_parts h
    simp
    omega
  | exportDefault value =>
    refine Plain.sizeOf_lt ?_
    cases value <;>
      simpa [Plain.slots, Plain.children, DefaultExport.slots, DefaultExport.node] using h
  | member receiver key optional =>
    refine Plain.sizeOf_lt ?_
    cases key <;> simpa [Plain.slots, Plain.children, MemberKey.slots, MemberKey.children] using h
  | _ =>
    refine Plain.sizeOf_lt ?_
    simp_all [Plain.slots, Plain.children, Callable.slots, Callable.children, Param.slots,
      Param.children, Declarator.slots, Declarator.children, SwitchCase.slots, SwitchCase.children,
      TryShape.slots, TryShape.children, or_comm, or_left_comm]

theorem ViewAttribute.sizeOf_lt_of_mem_parts {b : ViewAttribute α} (h : a ∈ parts b.slots) :
    sizeOf a < sizeOf b := by
  cases b
  have := sizeOf_lt_of_mem_toList (by simpa [ViewAttribute.slots] using h)
  simp
  omega

theorem ElementShape.sizeOf_lt_of_mem_parts {e : ElementShape α} (h : a ∈ parts e.slots) :
    sizeOf a < sizeOf e := by
  cases e
  simp only [ElementShape.slots, parts_append, parts_filled, parts_flatMap, List.mem_append,
    List.mem_map] at h
  simp only [ElementShape.mk.sizeOf_spec]
  rcases h with ((h | ⟨b, h, rfl⟩) | ⟨b, h, rfl⟩) | h
  · have := sizeOf_lt_of_mem_flatMap (fun _ ↦ ViewAttribute.sizeOf_lt_of_mem_parts) h
    omega
  · have := List.sizeOf_lt_of_mem h
    have : sizeOf b.handler < sizeOf b := by cases b; simp only [Listener.mk.sizeOf_spec]; omega
    omega
  · have := List.sizeOf_lt_of_mem h
    have : sizeOf b.expression < sizeOf b := by
      cases b
      simp only [PropertyBinding.mk.sizeOf_spec]
      omega
    omega
  · have := List.sizeOf_lt_of_mem h
    omega

theorem Component.sizeOf_lt_of_mem_parts {c : Component α} (h : a ∈ parts c.slots) :
    sizeOf a < sizeOf c := by
  cases c
  simp only [Component.slots, parts_append, parts_filled, parts_flatMap, List.mem_append] at h
  simp only [Component.mk.sizeOf_spec]
  rcases h with (h | h) | h
  · have := sizeOf_lt_of_mem_flatMap (fun _ ↦ Param.sizeOf_lt_of_mem_parts) h
    omega
  · have := sizeOf_lt_of_mem_toList h
    omega
  · have := sizeOf_lt_of_mem_toList h
    omega

theorem Rendered.sizeOf_lt_of_mem_parts {form : Rendered α} (h : a ∈ parts form.slots) :
    sizeOf a < sizeOf form := by
  cases form with
  | component c =>
    have := Component.sizeOf_lt_of_mem_parts h
    simp
    omega
  | classValue c =>
    have := ClassShape.sizeOf_lt_of_mem_parts h
    simp
    omega
  | element e =>
    have := ElementShape.sizeOf_lt_of_mem_parts h
    simp
    omega
  | componentCall name props children =>
    simp only [Rendered.slots, parts_append, parts_filled, parts_flatMap, List.mem_append] at h
    rcases h with h | h
    · have := sizeOf_lt_of_mem_flatMap (fun _ ↦ ViewAttribute.sizeOf_lt_of_mem_parts) h
      simp
      omega
    · have := List.sizeOf_lt_of_mem h
      simp
      omega
  | fragment children =>
    have := List.sizeOf_lt_of_mem (by simpa [Rendered.slots] using h)
    simp
    omega
  | text value => simp [Rendered.slots] at h
  | child classification inner =>
    obtain rfl : a = inner := by simpa [Rendered.slots] using h
    simp only [Rendered.child.sizeOf_spec]
    omega

end Sizes

/-! ## Trees of views -/

namespace View

/-- The slots of a view. -/
def slots : View → List (Slot View)
  | .plain _ _ form => form.slots
  | .rendered _ _ form => form.slots

theorem sizeOf_lt_of_mem_parts {view part : View} (h : part ∈ parts view.slots) :
    sizeOf part < sizeOf view := by
  cases view with
  | plain line column form =>
    have := Plain.sizeOf_lt_of_mem_parts h
    simp
    omega
  | rendered line column form =>
    have := Rendered.sizeOf_lt_of_mem_parts h
    simp
    omega

/-- The view and all that it is made of, each as often as it occurs. -/
def subviews (view : View) : Multiset View :=
  view ::ₘ ((parts view.slots).attach.map fun ⟨part, _⟩ ↦ part.subviews).sum
termination_by sizeOf view
decreasing_by exact sizeOf_lt_of_mem_parts ‹_›

end View

theorem mem_sum_map {α β : Type} {items : List α} {f : α → Multiset β} {b : β} :
    b ∈ (items.map f).sum ↔ ∃ item ∈ items, b ∈ f item := by
  induction items with
  | nil => simp
  | cons item items ih => simp [ih]

namespace Slot

/-- The views of the trees that some slots hold. -/
def subviews (slots : List (Slot View)) : Multiset View := ((parts slots).map View.subviews).sum

@[simp]
theorem subviews_nil : subviews [] = 0 := rfl

@[simp]
theorem subviews_append (slots more : List (Slot View)) :
    subviews (slots ++ more) = subviews slots + subviews more := by
  simp [subviews]

@[simp]
theorem subviews_filled (place : Place) (contents : List View) :
    subviews (filled place contents) = (contents.map View.subviews).sum := by
  simp [subviews]

@[simp]
theorem subviews_held (required : Bool) (place : Place) (content : Option View) :
    subviews (held required place content) = (content.toList.map View.subviews).sum := by
  simp [subviews]

@[simp]
theorem subviews_flatMap (items : List β) (slots : β → List (Slot View)) :
    subviews (items.flatMap slots) = (items.map fun item ↦ subviews (slots item)).sum := by
  induction items with
  | nil => rfl
  | cons item items ih => simp [ih]

theorem mem_subviews {view : View} {slots : List (Slot View)} :
    view ∈ subviews slots ↔ ∃ part ∈ parts slots, view ∈ part.subviews :=
  mem_sum_map

end Slot

namespace View

theorem subviews_eq (view : View) : view.subviews = view ::ₘ Slot.subviews view.slots := by
  rw [subviews]
  exact congrArg (view ::ₘ ·) (congrArg List.sum List.attach_map_val)

theorem mem_subviews_self (view : View) : view ∈ view.subviews := by
  rw [subviews_eq]
  exact Multiset.mem_cons_self _ _

/-- What a part is made of, the whole is made of. -/
theorem subviews_subset {view part : View} (h : part ∈ view.subviews) :
    part.subviews ⊆ view.subviews := by
  intro inner hinner
  rw [subviews_eq, Multiset.mem_cons, Slot.mem_subviews] at h
  obtain rfl | ⟨next, hnext, hpart⟩ := h
  · exact hinner
  · rw [subviews_eq, Multiset.mem_cons]
    exact .inr (Slot.mem_subviews.mpr ⟨next, hnext, subviews_subset hpart hinner⟩)
termination_by sizeOf view
decreasing_by exact sizeOf_lt_of_mem_parts hnext

end View

end SignalView
