import Mathlib.Algebra.Group.Prod
import Mathlib.Algebra.GroupWithZero.Nat
import SignalView.Proofs.View.Sound
import SignalView.Script.Markup

/-!
# Calls that are written with a view

Some views call helpers of the runtime when they are written: elements, the children that they wire,
and components. The calls of a tree, together with a number of views that are counted, are its
account.
-/

namespace SignalView

open Slot

/-! ## Calls of the runtime -/

/-- A call of a helper that is written with a view. -/
inductive RuntimeCall where
  | element (tag : Bytes)
  | wrapper (key : Bytes)
  | wire
  | effect
  deriving DecidableEq

namespace RuntimeCall

/-- The export of the runtime that is called. -/
def helper : RuntimeCall → Bytes
  | .element _ => bytes "t_element"
  | .wrapper _ | .wire => bytes "$REGISTRY"
  | .effect => bytes "createEffect"

/-- What the call begins with. -/
def text : RuntimeCall → Bytes
  | .element tag => bytes "t_element(" ++ Quoted.quoted tag
  | .wrapper key => bytes "$REGISTRY.execute(" ++ Quoted.quoted key
  | .wire => bytes "$REGISTRY.wire("
  | .effect => bytes "createEffect("

end RuntimeCall

/-- A value that may change over time is wired when it is text, and any other is a region that an
effect renders again. A list that reads no signals is rendered once. -/
def Classification.calls (c : Classification) (isSpread : Bool) : Multiset RuntimeCall :=
  if c.category == .static || c.category == .loop && c.dependencies.isEmpty then 0
  else if c.isText && !isSpread && c.category != .loop && c.realization != .list then {.wire}
  else {.effect}

/-- The calls for a child that is appended to its parent. -/
def View.childCalls : View → Multiset RuntimeCall
  | .rendered _ _ (.child c value) =>
    if Emission.isView value then 0
    else c.calls (value matches .plain _ _ (.spread _))
  | _ => 0

/-- An element that is built step by step wires its properties, and an effect follows an attribute
of the markup. -/
def ElementShape.calls (e : ElementShape View) : Multiset RuntimeCall :=
  {.element e.tag} +
    if e.isStatic then 0
    else
      (e.bindings.map fun b ↦ if b.isAttribute then {.effect} else {.wire}).sum +
        (e.children.map View.childCalls).sum

/-- The calls that are written with a view, apart from those of what it is made of. -/
def View.calls : View → Multiset RuntimeCall
  | .rendered _ _ (.component c) => {.wrapper c.registryKey}
  | .rendered _ _ (.element e) => e.calls
  | .rendered _ _ (.fragment children) => (children.map View.childCalls).sum
  | _ => 0

/-! ## Accounts -/

/-- Some calls of helpers, and a number of views that were counted. -/
abbrev Account := Multiset RuntimeCall × Nat

/-- Calls alone. -/
def Account.calling : Multiset RuntimeCall →+ Account := AddMonoidHom.inl _ _

namespace Slot

variable {w : View → Account}

/-- What the views in some slots come to. -/
def total (w : View → Account) (slots : List (Slot View)) : Account := ((parts slots).map w).sum

@[simp]
theorem total_nil : total w [] = 0 := rfl

@[simp]
theorem total_append (slots more : List (Slot View)) :
    total w (slots ++ more) = total w slots + total w more := by
  simp [total]

@[simp]
theorem total_filled (place : Place) (contents : List View) :
    total w (filled place contents) = (contents.map w).sum := by
  simp [total]

@[simp]
theorem total_held (required : Bool) (place : Place) (content : Option View) :
    total w (held required place content) = (content.toList.map w).sum := by
  simp [total]

@[simp]
theorem total_flatMap {α : Type} (items : List α) (slots : α → List (Slot View)) :
    total w (items.flatMap slots) = (items.map fun item ↦ total w (slots item)).sum := by
  induction items with
  | nil => rfl
  | cons item items ih => simp [ih]

end Slot

namespace View

/-- The calls of a tree, and how many views with a property it has. -/
def account (p : View → Bool) (view : View) : Account :=
  ((view.subviews.map View.calls).sum, view.subviews.countP (p ·))

/-- A plain construct comes to what its parts come to. -/
def Additive (w : View → Account) : Prop :=
  ∀ line column form, w (.plain line column form) = total w form.slots

variable {p : View → Bool}

theorem sum_account (views : List View) : (views.map (View.account p)).sum =
    (((views.map View.subviews).sum.map View.calls).sum,
      (views.map View.subviews).sum.countP (p ·)) := by
  induction views with
  | nil => rfl
  | cons view views ih => simp [ih, account]

theorem account_eq (view : View) :
    view.account p = (view.calls, if p view then 1 else 0) + total (View.account p) view.slots := by
  rw [total, sum_account, account, subviews_eq]
  ext1
  · simp [Slot.subviews]
  · simp [Slot.subviews, Multiset.countP_cons, add_comm]

/-- Where only markup is counted, plain constructs have accounts of their parts alone. -/
theorem account_additive (hp : ∀ view, p view = true → Emission.isView view = true) :
    Additive (View.account p) := by
  intro line column form
  have hnone : p (.plain line column form) = false := by
    cases h : p (.plain line column form) with
    | true => cases hp _ h
    | false => rfl
  rw [account_eq, hnone]
  exact zero_add _

end View

/-! ## Views that can be written -/

/-- The view fits a place, and all that it is made of keeps to what is asked of it. -/
def View.Kept (place : Place) (view : View) : Prop :=
  view.Fits place ∧ ∀ part ∈ view.subviews, part.Sound

namespace View.Kept

variable {place : Place} {line column : Nat}

theorem of_slot {view part : View} (h : ∀ part ∈ view.subviews, part.Sound)
    (hpart : ⟨place, some part⟩ ∈ view.slots) (hfits : part.Fits place) : part.Kept place := by
  refine ⟨hfits, fun inner hinner ↦ h inner ?_⟩
  rw [View.subviews_eq, Multiset.mem_cons]
  exact .inr (mem_subviews.mpr ⟨part, mem_parts.mpr ⟨place, hpart⟩, hinner⟩)

theorem plain_parts {form : Plain View} (h : (View.plain line column form).Kept place) :
    form.stands place ∧ form.Sound ∧ AllHold View.Kept form.slots := by
  obtain ⟨hfits, hsound⟩ := h
  obtain ⟨hstands, hslots⟩ := View.fits_plain_iff.mp hfits
  obtain ⟨hfilled, hparts⟩ := allHold_iff.mp hslots
  refine ⟨hstands, hsound _ (View.mem_subviews_self _), allHold_iff.mpr ⟨hfilled, ?_⟩⟩
  exact fun place part hpart ↦ .of_slot hsound hpart (hparts place part hpart)

theorem rendered_parts {form : Rendered View} (h : (View.rendered line column form).Kept place) :
    form.stands place ∧ form.Sound ∧ AllHold View.Kept form.slots := by
  obtain ⟨hfits, hsound⟩ := h
  obtain ⟨hstands, hslots⟩ := View.fits_rendered_iff.mp hfits
  obtain ⟨hfilled, hparts⟩ := allHold_iff.mp hslots
  refine ⟨hstands, hsound _ (View.mem_subviews_self _), allHold_iff.mpr ⟨hfilled, ?_⟩⟩
  exact fun place part hpart ↦ .of_slot hsound hpart (hparts place part hpart)

theorem slots {view : View} (h : view.Kept place) : AllHold View.Kept view.slots := by
  cases view with
  | plain line column form => exact h.plain_parts.2.2
  | rendered line column form => exact h.rendered_parts.2.2

/-- All views of a tree have places of their own. -/
theorem of_mem_subviews {place : Place} {view part : View} (h : view.Kept place)
    (hpart : part ∈ view.subviews) : ∃ place, part.Kept place := by
  rw [View.subviews_eq, Multiset.mem_cons, mem_subviews] at hpart
  obtain rfl | ⟨inner, hinner, hpart⟩ := hpart
  · exact ⟨place, h⟩
  · obtain ⟨other, hslot⟩ := mem_parts.mp hinner
    exact ((allHold_iff.mp h.slots).2 other inner hslot).of_mem_subviews hpart
termination_by sizeOf view
decreasing_by exact View.sizeOf_lt_of_mem_parts hinner

end View.Kept

end SignalView
