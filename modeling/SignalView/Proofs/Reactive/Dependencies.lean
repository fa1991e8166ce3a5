import SignalView.Proofs.Reactive.Calls
import SignalView.Proofs.Text.Sorted

/-!
# The signals that an expression reads

The dependencies of an expression are collected on a walk that does not enter nested functions. The
walk begins at the parts of the expression without asking whether it is a function itself. So a
function has the reads of its own parameters and body among its dependencies, unless it is in
parentheses; everything else has exactly those outside functions.
-/

namespace SignalView

namespace Node

/-- A call of a signal's getter lies on a way that passes through no function. -/
def Reads (symbols : Option SymbolTable) (name : Bytes) (node : Node) : Prop :=
  symbols.any (·.isSignalGetter name) = true ∧
    ∃ call, call.calledName? = some name ∧ node.Way isFunctionLike call

variable {symbols : Option SymbolTable} {name : Bytes} {node call : Node}

theorem isCall_of_calledName? (h : call.calledName? = some name) : call.isCall = true := by
  unfold calledName? at h
  split at h
  · rfl
  · cases h

theorem isFunctionLike_of_isCall (h : call.isCall = true) : call.isFunctionLike = false :=
  (Bool.or_eq_false_iff.mp (isShielding_of_isCall h)).1

/-- What a function reads does not count, and neither does what the functions in a node read. -/
theorem reads_iff : node.Reads symbols name ↔ node.isFunctionLike = false ∧
    (symbols.any (·.isSignalGetter name) = true ∧ node.calledName? = some name ∨
      ∃ part ∈ node.children, part.Reads symbols name) := by
  constructor
  · intro ⟨hgetter, call, hcall, hway⟩
    obtain ⟨hnode, rfl | ⟨part, hpart, hway⟩⟩ := way_iff.mp hway
    · exact ⟨hnode, .inl ⟨hgetter, hcall⟩⟩
    · exact ⟨hnode, .inr ⟨part, hpart, hgetter, call, hcall, hway⟩⟩
  · intro ⟨hnode, hreads⟩
    obtain ⟨hgetter, hcall⟩ | ⟨part, hpart, hgetter, call, hcall, hway⟩ := hreads
    · exact ⟨hgetter, node, hcall, .here hnode⟩
    · exact ⟨hgetter, call, hcall, .down hnode hpart hway⟩

/-- Every read is a call, as long as there is no markup that hides it. -/
theorem Reads.calls (hmarkup : ∀ inner ∈ node :: node.descendants, inner.isMarkup = false)
    (h : node.Reads symbols name) : node.Calls := by
  obtain ⟨-, call, hcall, hway⟩ := h
  refine ⟨call, isCall_of_calledName? hcall, hway.mono fun next hnext ↦ ?_⟩
  rw [isShielding, hnext.avoid_end, hmarkup next hnext.mem_descendants, Bool.or_self]

end Node

namespace Classification

open Node

variable {symbols : Option SymbolTable} {name : Bytes} {node : Node}

/-- The walk comes by the calls outside functions, and asks about the node itself only whether it is
a call. -/
theorem mem_dependenciesOf_iff : name ∈ dependenciesOf symbols node ↔
    node.Reads symbols name ∨
      node.isFunctionLike = true ∧ ∃ part ∈ node.children, part.Reads symbols name := by
  have hwalk (call : Node) (hcall : call.calledName? = some name) :
      call ∈ node.ownDescendants ↔ ∃ part ∈ node.children, part.Way isFunctionLike call := by
    rw [ownDescendants, List.mem_map]
    exact exists_visit_iff (fun _ ↦ rfl) (isFunctionLike_of_isCall (isCall_of_calledName? hcall))
  simp only [dependenciesOf, mem_sortedDistinct, List.mem_filter, List.mem_filterMap]
  constructor
  · intro ⟨⟨call, hmem, hcall⟩, hgetter⟩
    obtain rfl | hmem := List.mem_cons.mp hmem
    · exact .inl ⟨hgetter, call, hcall,
        .here (isFunctionLike_of_isCall (isCall_of_calledName? hcall))⟩
    · obtain ⟨part, hpart, hway⟩ := (hwalk call hcall).mp hmem
      cases hnode : node.isFunctionLike with
      | false => exact .inl ⟨hgetter, call, hcall, .down hnode hpart hway⟩
      | true => exact .inr ⟨rfl, part, hpart, hgetter, call, hcall, hway⟩
  · rintro (⟨hgetter, call, hcall, hway⟩ | ⟨-, part, hpart, hgetter, call, hcall, hway⟩)
    · refine ⟨⟨call, ?_, hcall⟩, hgetter⟩
      obtain ⟨-, rfl | hpart⟩ := way_iff.mp hway
      · exact List.mem_cons_self
      · exact List.mem_cons_of_mem _ ((hwalk call hcall).mpr hpart)
    · exact ⟨⟨call, List.mem_cons_of_mem _ ((hwalk call hcall).mpr ⟨part, hpart, hway⟩), hcall⟩,
        hgetter⟩

theorem classify_dependencies :
    (classify symbols node).dependencies = dependenciesOf symbols node := by
  simp only [classify, ofAlternatives]
  repeat' split
  all_goals rfl

/-- The dependencies are the reads just when the expression is no function that reads a signal
itself. -/
theorem forall_mem_dependenciesOf_iff :
    (∀ name, name ∈ dependenciesOf symbols node ↔ node.Reads symbols name) ↔
      (node.isFunctionLike = true → ∀ part ∈ node.children, ∀ name, ¬ part.Reads symbols name) := by
  constructor
  · intro h hnode part hpart name hreads
    have hself := (h name).mp (mem_dependenciesOf_iff.mpr (.inr ⟨hnode, part, hpart, hreads⟩))
    exact Bool.false_ne_true ((reads_iff.mp hself).1.symm.trans hnode)
  · intro h name
    rw [mem_dependenciesOf_iff, or_iff_left]
    exact fun ⟨hnode, part, hpart, hreads⟩ ↦ h hnode part hpart name hreads

/-- A static expression that is no function and holds no markup reads no signal. -/
theorem dependenciesOf_eq_nil (hmarkup : ∀ inner ∈ node :: node.descendants, inner.isMarkup = false)
    (hstatic : (classify symbols node).category = .static) (hnode : node.isFunctionLike = false) :
    dependenciesOf symbols node = [] := by
  apply List.eq_nil_iff_forall_not_mem.mpr
  intro name hname
  obtain hreads | ⟨hfunction, -⟩ := mem_dependenciesOf_iff.mp hname
  · exact classify_category_iff.mp hstatic (hreads.calls hmarkup)
  · exact Bool.false_ne_true (hnode.symm.trans hfunction)

/-- The dependencies of an expression are sorted and without repetition. They are the signals that
it reads and, if it is a function itself, those that its parts read. -/
theorem dependencies_iff (symbols : Option SymbolTable) (node : Node) :
    (classify symbols node).dependencies.Pairwise (Bytes.before · · = true) ∧
      (classify symbols node).dependencies.Nodup ∧
      (∀ name, name ∈ (classify symbols node).dependencies ↔ node.Reads symbols name ∨
        node.isFunctionLike = true ∧ ∃ part ∈ node.children, part.Reads symbols name) ∧
      ((∀ name, name ∈ (classify symbols node).dependencies ↔ node.Reads symbols name) ↔
        (node.isFunctionLike = true → ∀ part ∈ node.children, ∀ name,
          ¬ part.Reads symbols name)) ∧
      ((∀ inner ∈ node :: node.descendants, inner.isMarkup = false) →
        (classify symbols node).category = .static → node.isFunctionLike = false →
        (classify symbols node).dependencies = []) := by
  rw [classify_dependencies]
  have hsorted : (dependenciesOf symbols node).Pairwise (Bytes.before · · = true) :=
    sortedDistinct_sorted _
  exact ⟨hsorted, Bytes.before_strictlyOrders.nodup hsorted, fun _ ↦ mem_dependenciesOf_iff,
    forall_mem_dependenciesOf_iff, dependenciesOf_eq_nil⟩

/-- The arrow `() => count()` depends on `count`, although it reads no signal itself; in parentheses
it depends on nothing. -/
theorem dependencies_iff_arrow :
    let symbols : Option SymbolTable := some { current := {
      kind := .global, symbols := [{ name := bytes "count", kind := .signalGetter }] } }
    let read : Node := .plain {} (.call (.plain {} (.identifier (bytes "count"))) [] [] false)
    let arrow : Node := .plain {} (.arrow { body := .expression read })
    bytes "count" ∈ (classify symbols arrow).dependencies ∧
      ¬ arrow.Reads symbols (bytes "count") ∧
      (classify symbols (.plain {} (.paren arrow))).dependencies = [] := by
  intro symbols read arrow
  have hgetter : symbols.any (·.isSignalGetter (bytes "count")) = true := by decide
  have hread : read.Reads symbols (bytes "count") := reads_iff.mpr ⟨rfl, .inl ⟨hgetter, rfl⟩⟩
  have harrow : ¬ arrow.Reads symbols (bytes "count") := fun h ↦ by cases (reads_iff.mp h).1
  have hdependencies := (dependencies_iff symbols arrow).2.2.1 (bytes "count")
  have hparen : ¬ (Node.plain {} (.paren arrow)).Calls := by
    rw [← calls_unwrap]
    exact fun h ↦ by cases (calls_iff.mp h).1
  let inParens : Node := .plain {} (.paren arrow)
  have hmarkup : ∀ inner ∈ inParens :: inParens.descendants, inner.isMarkup = false := by
    refine forall_mem_descendants rfl (List.forall_mem_singleton.mpr ?_)
    refine forall_mem_descendants rfl (List.forall_mem_singleton.mpr ?_)
    refine forall_mem_descendants rfl (List.forall_mem_singleton.mpr ?_)
    exact forall_mem_descendants rfl (List.forall_mem_nil _)
  exact ⟨hdependencies.mpr (.inr ⟨rfl, read, List.mem_singleton_self _, hread⟩), harrow,
    (dependencies_iff symbols _).2.2.2.2 hmarkup (classify_category_iff.mpr hparen) rfl⟩

end Classification

end SignalView
