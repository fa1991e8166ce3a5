import SignalView.Proofs.Syntax.Places

/-!
# Paths from a construct to its parts

How many constructs lie one inside the other on the way down from a node. Each counts once, and an
element or a fragment counts twice. A tree whose paths are short and in which everything stands in
its place has parts of which the same is true.
-/

namespace SignalView

open Slot

/-- Elements and fragments take up two levels of nesting, all else takes up one. -/
def Surface.weight {α : Type} : Surface α → Nat
  | .element _ _ _ _ | .fragment _ => 2
  | _ => 1

theorem Surface.weight_pos {α : Type} (form : Surface α) : 0 < form.weight := by
  cases form <;> simp [weight]

namespace Node

/-- On no path from the node down there are more constructs than a number. -/
inductive Within : Nat → Node → Prop
  | plain {m n : Nat} {range : Range} {form : Plain Node} (hmn : m < n)
    (hparts : ∀ place part, ⟨place, some part⟩ ∈ form.slots → Within m part) :
    Within n (.plain range form)
  | surface {m n : Nat} {range : Range} {form : Surface Node} (hmn : m + form.weight ≤ n)
    (hparts : ∀ place part, ⟨place, some part⟩ ∈ form.slots → Within m part) :
    Within n (.surface range form)

variable {m n : Nat} {node : Node} {range : Range} {place : Place} {deep : Prop}

theorem Within.mono (h : node.Within m) (hmn : m ≤ n) : node.Within n := by
  cases h with
  | plain hlt hparts => exact .plain (by omega) hparts
  | surface hle hparts => exact .surface (by omega) hparts

theorem Within.pos (h : node.Within n) : 0 < n := by
  cases h with
  | plain hlt => omega
  | @surface m n range form hle =>
    have := form.weight_pos
    omega

/-- A construct of the source that stands in its place, where every element has a tag. Unless deep
nesting is allowed for, its paths are no longer than a number. -/
def Placed (deep : Prop) (n : Nat) (place : Place) (node : Node) : Prop :=
  node.Fits (· ≠ []) place ∧ (deep ∨ node.Within n)

namespace Placed

theorem mono (h : node.Placed deep m place) (hmn : m ≤ n) : node.Placed deep n place :=
  ⟨h.1, h.2.imp id fun hwithin ↦ hwithin.mono hmn⟩

theorem pos (h : node.Placed deep n place) : deep ∨ 0 < n := h.2.imp id Within.pos

/-- Elements and fragments need more than one level. -/
theorem deep_of_isMarkup (h : node.Placed deep 1 place) (hmarkup : node.isMarkup) : deep := by
  refine h.2.resolve_right fun hwithin ↦ ?_
  cases hwithin with
  | plain => cases hmarkup
  | @surface _ _ _ form hle =>
    cases form with
    | element | fragment => simp [Surface.weight] at hle
    | _ => cases hmarkup

theorem plain_parts {form : Plain Node} (h : (Node.plain range form).Placed deep n place) :
    form.stands place ∧ form.Regular place ∧ AllHold (Node.Placed deep (n - 1)) form.slots := by
  obtain ⟨hfits, hpaths⟩ := h
  obtain ⟨hstands, hregular, hslots⟩ := fits_plain_iff.mp hfits
  obtain ⟨hfilled, hparts⟩ := allHold_iff.mp hslots
  refine ⟨hstands, hregular, allHold_iff.mpr ⟨hfilled, fun place part hpart ↦ ?_⟩⟩
  refine ⟨hparts place part hpart, hpaths.imp id fun hwithin ↦ ?_⟩
  cases hwithin with
  | plain hlt hbelow => exact (hbelow place part hpart).mono (by omega)

theorem surface_parts {form : Surface Node} (h : (Node.surface range form).Placed deep n place) :
    form.stands place ∧ form.Regular (· ≠ []) ∧
      AllHold (Node.Placed deep (n - form.weight)) form.slots := by
  obtain ⟨hfits, hpaths⟩ := h
  obtain ⟨hstands, hregular, hslots⟩ := fits_surface_iff.mp hfits
  obtain ⟨hfilled, hparts⟩ := allHold_iff.mp hslots
  refine ⟨hstands, hregular, allHold_iff.mpr ⟨hfilled, fun place part hpart ↦ ?_⟩⟩
  refine ⟨hparts place part hpart, hpaths.imp id fun hwithin ↦ ?_⟩
  cases hwithin with
  | surface hle hbelow => exact (hbelow place part hpart).mono (by omega)

/-- Behind an attribute's name stands an expression, or one in braces. -/
theorem attributeValue_cases (h : node.Placed deep n .attributeValue) :
    node.Placed deep n .expression ∨
      ∃ range inner, node = .surface range (.container (some inner)) ∧
        inner.Placed deep n .expression := by
  obtain hvalue | ⟨range, inner, rfl, -⟩ := h.1.attributeValue_cases
  · exact .inl ⟨hvalue, h.2⟩
  · obtain ⟨-, -, hslots⟩ := h.surface_parts
    have hinner : inner.Placed deep (n - 1) .expression := by
      simpa [Surface.slots, Surface.weight] using hslots
    exact .inr ⟨range, inner, rfl, hinner.mono (by omega)⟩

/-- Between tags stand text, expressions in braces, elements and fragments. -/
theorem child_cases (h : node.Placed deep n .child) :
    (node.Placed deep n .expression ∧ node.isMarkup) ∨
      (∃ range raw value, node = .surface range (.text raw value)) ∨
      ∃ range inner, node = .surface range (.container (some inner)) ∧
        inner.Placed deep (n - 1) .expression := by
  obtain ⟨hvalue, hmarkup⟩ | htext | ⟨range, inner, rfl, -⟩ := h.1.child_cases
  · exact .inl ⟨⟨hvalue, h.2⟩, hmarkup⟩
  · exact .inr (.inl htext)
  · obtain ⟨-, -, hslots⟩ := h.surface_parts
    exact .inr (.inr ⟨range, inner, rfl, by simpa [Surface.slots, Surface.weight] using hslots⟩)

theorem attribute_cases (h : node.Placed deep n .attribute) :
    ∃ range name value isSpread, node = .surface range (.attr name value isSpread) ∧
      (isSpread = true → value.isSome) ∧
      ∀ part ∈ value,
        part.Placed deep n (if isSpread then .expression else .attributeValue) := by
  obtain ⟨range, name, value, isSpread, rfl, -, -⟩ := h.1.attribute_cases
  obtain ⟨-, -, hslots⟩ := h.surface_parts
  obtain ⟨hsome, hvalue⟩ := allHold_held.mp hslots
  exact ⟨range, name, value, isSpread, rfl, hsome, fun part hpart ↦
    (hvalue part hpart).mono (n.sub_le _)⟩

theorem class_cases (h : node.Placed deep n .class_) :
    ∃ range c, node = .plain range (.classDeclaration c) ∧
      AllHold (Node.Placed deep n) c.slots := by
  obtain ⟨range, c, rfl, -⟩ := h.1.class_cases
  exact ⟨range, c, rfl, h.plain_parts.2.2.mono fun _ _ hpart ↦ hpart.mono n.pred_le⟩

end Placed

end Node

end SignalView
