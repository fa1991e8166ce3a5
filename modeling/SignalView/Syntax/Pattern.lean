import SignalView.Syntax.Reach

/-!
# Patterns

A pattern is a name, an array or object of patterns, a pattern with a default, or the rest of one.
It binds the names that stand at its leaves.
-/

namespace SignalView

namespace Property

variable {α : Type} {a : α} {p : Property α}

/-- What a property of an object pattern binds: its value, or its plain key when it has none. -/
def bindingPart (p : Property α) : Option α :=
  match p.value with
  | some value => some value
  | none => if p.computed then none else p.key

/-- What a property of an object pattern assigns to: its value, or its key when it has none. -/
def assignedPart (p : Property α) : Option α :=
  match p.value with
  | some value => some value
  | none => p.key

theorem eq_or_eq_of_bindingPart (h : p.bindingPart = some a) :
    p.value = some a ∨ p.key = some a := by
  unfold bindingPart at h
  split at h
  · exact .inl (h ▸ ‹_›)
  · split at h
    · cases h
    · exact .inr h

theorem eq_or_eq_of_assignedPart (h : p.assignedPart = some a) :
    p.value = some a ∨ p.key = some a := by
  unfold assignedPart at h
  split at h
  · exact .inl (h ▸ ‹_›)
  · exact .inr h

theorem sizeOf_lt_of_eq_or_eq [SizeOf α] (h : p.value = some a ∨ p.key = some a) :
    sizeOf a < sizeOf p := by
  obtain ⟨_, _, _, _⟩ := p
  simp only [Property.mk.sizeOf_spec]
  rcases h with rfl | rfl
  · simp
    omega
  · simp
    omega

end Property

namespace Plain

/-- The patterns that a pattern is made of, with a rule for the parts of properties. -/
def subpatterns {α : Type} (rule : Property α → Option α) : Plain α → List α
  | .array elements => elements
  | .object properties => properties.flatMap fun p ↦ (rule p).toList
  | .assignmentPattern target _ => [target]
  | .spread argument => [argument]
  | _ => []

theorem sizeOf_lt_of_mem_subpatterns {α : Type} [SizeOf α] {rule : Property α → Option α}
    {part : α} {pattern : Plain α}
    (hrule : ∀ {p : Property α} {a : α}, rule p = some a → p.value = some a ∨ p.key = some a)
    (h : part ∈ pattern.subpatterns rule) : sizeOf part < sizeOf pattern := by
  unfold subpatterns at h
  split at h
  · have := List.sizeOf_lt_of_mem h
    simp
    omega
  · have := sizeOf_lt_of_mem_flatMap
      (fun p h ↦ Property.sizeOf_lt_of_eq_or_eq (hrule (Option.mem_toList.mp h))) h
    simp
    omega
  · simp_all
    omega
  · simp_all
  · simp at h

end Plain

namespace Node

/-- The names that a pattern binds, in the order of the source. -/
def boundNames (pattern : Node) : List Bytes :=
  match pattern with
  | .plain _ (.identifier name) => [name]
  | .plain _ form =>
    (form.subpatterns (·.bindingPart)).attach.flatMap fun ⟨part, _⟩ ↦ part.boundNames
  | .surface _ _ => []
termination_by sizeOf pattern
decreasing_by
  have := Plain.sizeOf_lt_of_mem_subpatterns Property.eq_or_eq_of_bindingPart ‹_›
  simp
  omega

end Node

end SignalView
