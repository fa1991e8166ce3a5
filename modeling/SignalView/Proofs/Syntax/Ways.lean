import SignalView.Syntax.Reach

/-!
# Ways down a tree

A way leads from a node down to another one, from part to part, and passes through no node of a kind
that is to be avoided. A walk that does not enter the nodes of this kind comes by what lies on the
ways from the parts of the node where it starts. That node itself is not asked about.
-/

namespace SignalView

namespace Node

/-- A way from a node down to another one that meets no node to be avoided, not at its ends
either. -/
inductive Way (avoid : Node → Bool) : Node → Node → Prop
  | here {node : Node} (h : avoid node = false) : Way avoid node node
  | down {node part inner : Node} (h : avoid node = false) (hpart : part ∈ node.children)
      (hway : Way avoid part inner) : Way avoid node inner

variable {avoid other enter : Node → Bool} {node part inner : Node} {isCallback : Bool}

theorem Way.avoid_end (h : node.Way avoid inner) : avoid inner = false := by
  induction h with
  | here h => exact h
  | down _ _ _ ih => exact ih

/-- A way meets only nodes to which there is a way. -/
theorem Way.mono (h : node.Way avoid inner)
    (hother : ∀ next, node.Way avoid next → other next = false) : node.Way other inner := by
  induction h with
  | here h => exact .here (hother _ (.here h))
  | down h hpart _ ih =>
    exact .down (hother _ (.here h)) hpart (ih fun next hnext ↦ hother next (.down h hpart hnext))

/-- What holds of a node when it holds of its parts holds of all nodes. -/
@[elab_as_elim]
theorem induction_children {motive : Node → Prop}
    (step : ∀ node : Node, (∀ part ∈ node.children, motive part) → motive node) (node : Node) :
    motive node :=
  step node fun part _ ↦ induction_children step part
termination_by sizeOf node
decreasing_by exact sizeOf_lt_of_mem_children ‹_›

/-- What holds of the expression in parentheses holds of the whole, if they do not matter. -/
theorem of_unwrap {motive : Node → Prop} (h : motive node.unwrap)
    (paren : ∀ range inner, motive inner → motive (.plain range (.paren inner))) : motive node := by
  fun_induction unwrap node with
  | case1 range inner ih => exact paren range inner (ih h)
  | case2 => exact h

theorem way_iff : node.Way avoid inner ↔
    avoid node = false ∧ (inner = node ∨ ∃ part ∈ node.children, part.Way avoid inner) := by
  constructor
  · intro h
    cases h with
    | here h => exact ⟨h, .inl rfl⟩
    | down h hpart hway => exact ⟨h, .inr ⟨_, hpart, hway⟩⟩
  · rintro ⟨h, rfl | ⟨part, hpart, hway⟩⟩
    · exact .here h
    · exact .down h hpart hway

/-! ## Walks -/

/-- A walk comes by the parts of a node, and by what it comes by in those that it enters. -/
theorem mem_reach_iff {visit : Visit} : visit ∈ node.reach enter isCallback ↔
    ∃ (part : Node) (index : Nat), node.children[index]? = some part ∧
      (visit = ⟨part, callbackPlace isCallback node index⟩ ∨
        enter part = true ∧ visit ∈ part.reach enter (callbackPlace isCallback node index)) := by
  rw [reach]
  simp only [List.mem_flatMap, Prod.exists, List.mk_mem_zipIdx_iff_getElem?]
  constructor
  · rintro ⟨⟨part, hpart⟩, index, hindex, hvisit⟩
    refine ⟨part, index, ?_, ?_⟩
    · simpa [Option.pmap_eq_some_iff, hpart] using hindex
    rcases List.mem_cons.mp hvisit with rfl | hvisit
    · exact .inl rfl
    · split at hvisit
      · next henter => exact .inr ⟨henter, hvisit⟩
      · cases hvisit
  · rintro ⟨part, index, hindex, hvisit⟩
    have hattach : node.children.attach[index]? = some ⟨part, List.mem_of_getElem? hindex⟩ := by
      simp [List.getElem?_attach, hindex]
    refine ⟨⟨part, List.mem_of_getElem? hindex⟩, index, hattach, ?_⟩
    rcases hvisit with rfl | ⟨henter, hvisit⟩
    · exact List.mem_cons_self
    · rw [if_pos henter]
      exact List.mem_cons_of_mem _ hvisit

/-- A walk comes by exactly what lies on ways from the parts of the node where it starts. -/
theorem exists_visit_iff (henter : ∀ node, enter node = !avoid node)
    (hinner : avoid inner = false) : (∃ visit ∈ node.reach enter isCallback, visit.node = inner) ↔
      ∃ part ∈ node.children, part.Way avoid inner := by
  induction node using induction_children generalizing isCallback with
  | step node ih =>
    constructor
    · rintro ⟨visit, hvisit, rfl⟩
      obtain ⟨part, index, hindex, hvisit⟩ := mem_reach_iff.mp hvisit
      have hpart : part ∈ node.children := List.mem_of_getElem? hindex
      refine ⟨part, hpart, ?_⟩
      rcases hvisit with rfl | ⟨hentered, hvisit⟩
      · exact .here hinner
      · obtain ⟨next, hnext, hway⟩ := (ih part hpart).mp ⟨visit, hvisit, rfl⟩
        exact .down (by simpa [henter] using hentered) hnext hway
    · rintro ⟨part, hpart, hway⟩
      obtain ⟨index, hindex⟩ := List.mem_iff_getElem?.mp hpart
      cases hway with
      | here => exact ⟨_, mem_reach_iff.mpr ⟨inner, index, hindex, .inl rfl⟩, rfl⟩
      | down h hnext hway =>
        obtain ⟨visit, hvisit, rfl⟩ := (ih part hpart).mpr ⟨_, hnext, hway⟩
        have hentered : enter part = true := by simp [henter, h]
        exact ⟨visit, mem_reach_iff.mpr ⟨part, index, hindex, .inr ⟨hentered, hvisit⟩⟩, rfl⟩

theorem mem_descendants_iff :
    inner ∈ node.descendants ↔ ∃ part ∈ node.children, part.Way (fun _ ↦ false) inner := by
  rw [descendants, List.mem_map]
  exact exists_visit_iff (fun _ ↦ rfl) rfl

/-- Every way ends at the node or at one of its descendants. -/
theorem Way.mem_descendants (h : node.Way avoid inner) : inner ∈ node :: node.descendants := by
  have hall : node.Way (fun _ ↦ false) inner := h.mono fun _ _ ↦ rfl
  rw [List.mem_cons, mem_descendants_iff]
  exact (way_iff.mp hall).2

theorem forall_mem_descendants {P : Node → Prop} (hnode : P node)
    (hparts : ∀ part ∈ node.children, ∀ inner ∈ part :: part.descendants, P inner) :
    ∀ inner ∈ node :: node.descendants, P inner := by
  intro inner hinner
  obtain rfl | hinner := List.mem_cons.mp hinner
  · exact hnode
  · obtain ⟨part, hpart, hway⟩ := mem_descendants_iff.mp hinner
    exact hparts part hpart inner hway.mem_descendants

end Node

end SignalView
