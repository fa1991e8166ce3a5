import Mathlib.Algebra.Group.Prod
import Mathlib.Data.Multiset.Bind
import SignalView.Proofs.Text.Sorted
import SignalView.Proofs.View.Sound

/-!
# What is computed about views

A component knows the signals that are noted for the views it owns, an element knows whether it is
static, and markup in braces is classified as static. Of components within a component only their
places belong to the outer one.
-/

namespace SignalView

open Slot

/-! ## Signals -/

namespace Rendered

/-- The signals that are noted for a view: those of an element's bindings and those of an expression
among the children. -/
def noted : Rendered View → List Bytes
  | .element e => e.bindings.flatMap (·.dependencies)
  | .child c _ => c.dependencies
  | _ => []

/-- The signals that the classifications in a view name: those of the attributes and bindings of an
element, of the properties of a component's call, and of an expression among the children. -/
def classified : Rendered View → List Bytes
  | .element e =>
    e.attributes.flatMap (·.classification.dependencies) ++ e.bindings.flatMap (·.dependencies)
  | .componentCall _ props _ => props.flatMap (·.classification.dependencies)
  | .child c _ => c.dependencies
  | _ => []

/-- Whatever is noted comes from a classification. -/
theorem noted_subset_classified (form : Rendered View) : form.noted ⊆ form.classified := by
  cases form with
  | element e => exact List.subset_append_right _ _
  | child c inner => exact List.Subset.refl _
  | _ => exact List.nil_subset _

end Rendered

namespace View

/-- The signals that are noted for a view; there are none for plain constructs. -/
def noted : View → List Bytes
  | .plain _ _ _ => []
  | .rendered _ _ form => form.noted

/-- The signals that the classifications in a view name. -/
def classified : View → List Bytes
  | .plain _ _ _ => []
  | .rendered _ _ form => form.classified

theorem noted_subset_classified (view : View) : view.noted ⊆ view.classified := by
  cases view with
  | plain line column form => exact List.nil_subset _
  | rendered line column form => exact form.noted_subset_classified

/-- The views of a tree that have the same owner: components in it are met, but not entered. -/
def ownViews (view : View) : Multiset View :=
  view ::ₘ
    if view.component?.isSome then 0
    else ((parts view.slots).attach.map fun ⟨part, _⟩ ↦ part.ownViews).sum
termination_by sizeOf view
decreasing_by exact sizeOf_lt_of_mem_parts ‹_›

theorem ownViews_eq (view : View) : view.ownViews =
    view ::ₘ if view.component?.isSome then 0 else ((parts view.slots).map ownViews).sum := by
  rw [ownViews]
  congr 2
  exact congrArg List.sum List.attach_map_val

/-- The signals that are noted for the views of a tree, apart from those in its components. -/
def ownNoted (view : View) : Multiset Bytes := view.ownViews.bind fun part ↦ part.noted

theorem mem_ownNoted {view : View} {name : Bytes} :
    name ∈ view.ownNoted ↔ ∃ part ∈ view.ownViews, name ∈ part.noted := by
  simp [ownNoted]

theorem ownNoted_eq (view : View) : view.ownNoted =
    view.noted + if view.component?.isSome then 0 else ((parts view.slots).map ownNoted).sum := by
  rw [ownNoted, ownViews_eq, Multiset.cons_bind]
  congr 1
  split
  · exact Multiset.zero_bind _
  · generalize parts view.slots = views
    induction views with
    | nil => exact Multiset.zero_bind _
    | cons first rest ih =>
      rw [List.map_cons, List.sum_cons, Multiset.add_bind, ih]
      simp [ownNoted]

/-- Whether a view is an element. -/
def isElement : View → Bool
  | .rendered _ _ (.element _) => true
  | _ => false

end View

/-! ## Computed facts -/

/-- The views that a component owns. -/
def Component.ownViews (c : Component View) : Multiset View :=
  ((parts c.slots).map View.ownViews).sum

/-- The dependencies are the signals that are noted for the views of the component, and a component
that has some uses signals. -/
structure Component.Settled (c : Component View) : Prop where
  dependencies : ∃ names : List Bytes,
    (names : Multiset Bytes) = ((parts c.slots).map View.ownNoted).sum ∧
      c.facts.dependencies = sortedDistinct names
  usesSignals : c.facts.dependencies ≠ [] → c.facts.usesSignals = true

theorem Component.Settled.mem_dependencies {c : Component View} (h : c.Settled) {name : Bytes} :
    name ∈ c.facts.dependencies ↔ ∃ view ∈ c.ownViews, name ∈ view.noted := by
  obtain ⟨names, hnames, hdependencies⟩ := h.dependencies
  rw [hdependencies, mem_sortedDistinct, ← Multiset.mem_coe, hnames, mem_sum_map]
  simp only [View.mem_ownNoted, Component.ownViews, mem_sum_map]
  constructor
  · rintro ⟨part, hpart, view, hview, hname⟩
    exact ⟨view, ⟨part, hpart, hview⟩, hname⟩
  · rintro ⟨view, ⟨part, hpart, hview⟩, hname⟩
    exact ⟨part, hpart, view, hview, hname⟩

/-- A static element has nothing that is added later on, nor has any of its children. -/
def ElementShape.Settled (e : ElementShape View) : Prop :=
  e.isStatic = (e.listeners.isEmpty && e.bindings.isEmpty && e.children.all View.isStaticChild)

/-- What is computed about the view itself is right. -/
def View.Settled : View → Prop
  | .rendered _ _ (.component c) => c.Settled
  | .rendered _ _ (.element e) => e.Settled
  | .rendered _ _ (.child c inner) => inner.isElement = true → c.category = .static
  | _ => True

/-! ## Tallies -/

/-- Some signals that were noted, and some views that were built. -/
abbrev Tally := Multiset Bytes × Multiset View

namespace Tally

/-- Signals that come without a view. -/
def signals (names : List Bytes) : Tally := (names, 0)

@[simp]
theorem signals_fst (names : List Bytes) : (signals names).1 = names := rfl

@[simp]
theorem signals_snd (names : List Bytes) : (signals names).2 = 0 := rfl

@[simp]
theorem signals_nil : signals [] = 0 := rfl

@[simp]
theorem signals_append (names more : List Bytes) :
    signals (names ++ more) = signals names + signals more := rfl

end Tally

/-- What is noted for the views of a tree that have the same owner, and all of its views. -/
def View.tally (view : View) : Tally := (view.ownNoted, view.subviews)

theorem View.sum_tally (views : List View) :
    (views.map View.tally).sum =
      ((views.map View.ownNoted).sum, (views.map View.subviews).sum) := by
  induction views with
  | nil => rfl
  | cons view views ih => simp [ih, View.tally]

namespace Slot

/-- What the trees in some slots come to. -/
def tally (slots : List (Slot View)) : Tally := ((parts slots).map View.tally).sum

@[simp]
theorem tally_append (slots more : List (Slot View)) :
    tally (slots ++ more) = tally slots + tally more := by
  simp [tally]

@[simp]
theorem tally_filled (place : Place) (contents : List View) :
    tally (filled place contents) = (contents.map View.tally).sum := by
  simp [tally]

@[simp]
theorem tally_held (required : Bool) (place : Place) (content : Option View) :
    tally (held required place content) = (content.toList.map View.tally).sum := by
  simp [tally]

@[simp]
theorem tally_flatMap {α : Type} (items : List α) (slots : α → List (Slot View)) :
    tally (items.flatMap slots) = (items.map fun item ↦ tally (slots item)).sum := by
  induction items with
  | nil => rfl
  | cons item items ih => simp [ih]

theorem tally_eq (slots : List (Slot View)) :
    tally slots = (((parts slots).map View.ownNoted).sum, subviews slots) :=
  View.sum_tally _

end Slot

namespace View

/-- A view that is no component comes to what is noted for it, itself, and its parts. -/
theorem tally_eq_of_component? {view : View} (h : view.component? = none) :
    view.tally = Tally.signals view.noted + (0, {view}) + Slot.tally view.slots := by
  rw [tally, ownNoted_eq, subviews_eq, Slot.tally_eq, h]
  simp [Tally.signals]

/-- What is noted in a component is its own affair. -/
theorem tally_component (line column : Nat) (c : Component View) :
    (View.rendered line column (.component c)).tally =
      (0, .rendered line column (.component c) ::ₘ Slot.subviews c.slots) := by
  rw [tally, ownNoted_eq, subviews_eq]
  rfl

end View

end SignalView
