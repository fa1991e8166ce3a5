import SignalView.Proofs.Syntax.Places
import SignalView.View.Tree

/-!
# Views in their places

The constructs of a lowered program have slots as those of the source do, and the plain ones have
the same. What is rendered stands where an expression does; a component is a statement as well.
-/

namespace SignalView

open Slot

variable {α : Type}

/-! ## The slots of rendered constructs -/

/-- A spread attribute needs a value; a bare one has none. -/
def ViewAttribute.slots (a : ViewAttribute α) : List (Slot α) := held a.isSpread .expression a.value

def ElementShape.slots (e : ElementShape α) : List (Slot α) :=
  e.attributes.flatMap (·.slots) ++ filled .expression (e.listeners.map (·.handler)) ++
    filled .expression (e.bindings.map (·.expression)) ++ filled .expression e.children

def Component.slots (c : Component α) : List (Slot α) :=
  c.params.flatMap (·.slots) ++ filled .statement c.block.toList ++
    filled .expression c.value.toList

namespace Rendered

def slots : Rendered α → List (Slot α)
  | .component c => c.slots
  | .classValue c => c.slots
  | .element e => e.slots
  | .componentCall _ props children => props.flatMap (·.slots) ++ filled .expression children
  | .fragment children => filled .expression children
  | .text _ => []
  | .child _ inner => filled .expression [inner]

def stands : Place → Rendered α → Bool
  | .expression, _ => true
  | .statement, .component _ => true
  | _, _ => false

end Rendered

namespace View

variable {place : Place} {line column : Nat}

/-- The view can stand in a place, its slots are filled where they have to be, and so it is for all
of its parts. -/
inductive Fits : Place → View → Prop
  | plain {place : Place} {line column : Nat} {form : Plain View} (hstands : form.stands place)
    (hfilled : ∀ slot ∈ form.slots, slot.content.isSome)
    (hparts : ∀ place part, ⟨place, some part⟩ ∈ form.slots → Fits place part) :
    Fits place (.plain line column form)
  | rendered {place : Place} {line column : Nat} {form : Rendered View}
    (hstands : form.stands place) (hfilled : ∀ slot ∈ form.slots, slot.content.isSome)
    (hparts : ∀ place part, ⟨place, some part⟩ ∈ form.slots → Fits place part) :
    Fits place (.rendered line column form)

theorem fits_plain_iff {form : Plain View} :
    (View.plain line column form).Fits place ↔ form.stands place ∧ AllHold Fits form.slots := by
  rw [allHold_iff]
  constructor
  · rintro (⟨hstands, hfilled, hparts⟩ | _)
    exact ⟨hstands, hfilled, hparts⟩
  · rintro ⟨hstands, hfilled, hparts⟩
    exact .plain hstands hfilled hparts

theorem fits_rendered_iff {form : Rendered View} :
    (View.rendered line column form).Fits place ↔
      form.stands place ∧ AllHold Fits form.slots := by
  rw [allHold_iff]
  constructor
  · rintro (_ | ⟨hstands, hfilled, hparts⟩)
    exact ⟨hstands, hfilled, hparts⟩
  · rintro ⟨hstands, hfilled, hparts⟩
    exact .rendered hstands hfilled hparts

theorem Fits.of_plain {form : Plain View} (hstands : form.stands place)
    (hslots : AllHold Fits form.slots) : (View.plain line column form).Fits place :=
  fits_plain_iff.mpr ⟨hstands, hslots⟩

theorem Fits.of_rendered {form : Rendered View} (hstands : form.stands place)
    (hslots : AllHold Fits form.slots) : (View.rendered line column form).Fits place :=
  fits_rendered_iff.mpr ⟨hstands, hslots⟩

/-! ## Paths -/

/-- On no path from the view down there are more views than a number. -/
inductive Within : Nat → View → Prop
  | plain {m n line column : Nat} {form : Plain View} (hmn : m < n)
    (hparts : ∀ place part, ⟨place, some part⟩ ∈ form.slots → Within m part) :
    Within n (.plain line column form)
  | rendered {m n line column : Nat} {form : Rendered View} (hmn : m < n)
    (hparts : ∀ place part, ⟨place, some part⟩ ∈ form.slots → Within m part) :
    Within n (.rendered line column form)

variable {m n : Nat} {view : View} {deep : Prop}

theorem Within.mono (h : view.Within m) (hmn : m ≤ n) : view.Within n := by
  cases h with
  | plain hlt hparts => exact .plain (by omega) hparts
  | rendered hlt hparts => exact .rendered (by omega) hparts

theorem Within.pos (h : view.Within n) : 0 < n := by
  cases h with
  | plain hlt | rendered hlt => omega

/-- A view that stands in its place. Unless deep nesting is allowed for, its paths are no longer
than a number. -/
def Placed (deep : Prop) (n : Nat) (place : Place) (view : View) : Prop :=
  view.Fits place ∧ (deep ∨ view.Within n)

namespace Placed

theorem mono (h : view.Placed deep m place) (hmn : m ≤ n) : view.Placed deep n place :=
  ⟨h.1, h.2.imp id fun hwithin ↦ hwithin.mono hmn⟩

theorem pos (h : view.Placed deep n place) : deep ∨ 0 < n := h.2.imp id Within.pos

/-- Where nothing is placed at all without deep nesting, a view can be placed one level lower. -/
theorem of_pred (h : view.Placed deep (n - 1 + 1) place) (hpos : deep ∨ 0 < n) :
    view.Placed deep n place := by
  obtain hdeep | hpos := hpos
  · exact ⟨h.1, .inl hdeep⟩
  · exact h.mono (by omega)

theorem of_plain {form : Plain View} (hstands : form.stands place)
    (hslots : AllHold (View.Placed deep n) form.slots) :
    (View.plain line column form).Placed deep (n + 1) place := by
  refine ⟨.of_plain hstands (hslots.mono fun _ _ hpart ↦ hpart.1), ?_⟩
  by_cases hdeep : deep
  · exact .inl hdeep
  · refine .inr (.plain n.lt_succ_self fun place part hpart ↦ ?_)
    exact ((allHold_iff.mp hslots).2 place part hpart).2.resolve_left hdeep

theorem of_rendered {form : Rendered View} (hstands : form.stands place)
    (hslots : AllHold (View.Placed deep n) form.slots) :
    (View.rendered line column form).Placed deep (n + 1) place := by
  refine ⟨.of_rendered hstands (hslots.mono fun _ _ hpart ↦ hpart.1), ?_⟩
  by_cases hdeep : deep
  · exact .inl hdeep
  · refine .inr (.rendered n.lt_succ_self fun place part hpart ↦ ?_)
    exact ((allHold_iff.mp hslots).2 place part hpart).2.resolve_left hdeep

theorem plain_parts {form : Plain View} (h : (View.plain line column form).Placed deep n place) :
    form.stands place ∧ AllHold (View.Placed deep (n - 1)) form.slots := by
  obtain ⟨hfits, hpaths⟩ := h
  obtain ⟨hstands, hslots⟩ := fits_plain_iff.mp hfits
  obtain ⟨hfilled, hparts⟩ := allHold_iff.mp hslots
  refine ⟨hstands, allHold_iff.mpr ⟨hfilled, fun place part hpart ↦ ?_⟩⟩
  refine ⟨hparts place part hpart, hpaths.imp id fun hwithin ↦ ?_⟩
  cases hwithin with
  | plain hlt hbelow => exact (hbelow place part hpart).mono (by omega)

/-- The parts can be placed where the whole can. -/
theorem plain_slots {form : Plain View} (h : (View.plain line column form).Placed deep n place) :
    AllHold (View.Placed deep n) form.slots :=
  h.plain_parts.2.mono fun _ _ hpart ↦ hpart.mono n.pred_le

theorem rendered_parts {form : Rendered View}
    (h : (View.rendered line column form).Placed deep n place) :
    form.stands place ∧ AllHold (View.Placed deep (n - 1)) form.slots := by
  obtain ⟨hfits, hpaths⟩ := h
  obtain ⟨hstands, hslots⟩ := fits_rendered_iff.mp hfits
  obtain ⟨hfilled, hparts⟩ := allHold_iff.mp hslots
  refine ⟨hstands, allHold_iff.mpr ⟨hfilled, fun place part hpart ↦ ?_⟩⟩
  refine ⟨hparts place part hpart, hpaths.imp id fun hwithin ↦ ?_⟩
  cases hwithin with
  | rendered hlt hbelow => exact (hbelow place part hpart).mono (by omega)

theorem rendered_slots {form : Rendered View}
    (h : (View.rendered line column form).Placed deep n place) :
    AllHold (View.Placed deep n) form.slots :=
  h.rendered_parts.2.mono fun _ _ hpart ↦ hpart.mono n.pred_le

end Placed

end View

end SignalView
