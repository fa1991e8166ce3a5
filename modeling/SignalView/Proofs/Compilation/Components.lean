import SignalView.Proofs.Compilation.Outcome
import SignalView.Proofs.Lowering.Facts.Statements
import SignalView.Proofs.Lowering.Items

/-!
# Components and their dependencies

All components of a program are on record, and each of them tells the signals that it depends on.
-/

namespace SignalView

/-! ## The components of a program

A lowered program comes with a list of its components. However they are written, and however deep
they are nested, also in each other, the list has each of them once and nothing else, and no two of
them have the same key.
-/

/-- The components on record are those of the tree, each as often as it occurs, with keys that are
made of their names and are all different. No element sets a property twice, the attributes that are
set once and the bindings taken together, and no component binds a name twice or goes on behind a
parameter that takes the rest. -/
theorem lowering_accounts_for_components {tokens : List Token}
    (htokens : ∀ token ∈ tokens.dropLast, token.kind ≠ .eof) {parser : Program.Options}
    {parsed : Program.Parsed} (hparsed : Program.parse parser tokens = .ok parsed)
    {options : ViewProgram.Options} {program : ViewProgram} {state : LoweringState}
    (hlowered : ViewProgram.ofNode options parsed.root = (.ok program, state)) :
    (program.components : Multiset (Component View)) =
        program.subviews.filterMap View.component? ∧
      (program.components.map (·.registryKey)).Nodup ∧
      (∀ c ∈ program.components, c.registryKey = bytes "component:" ++ c.name) ∧
      (∀ line column e, .rendered line column (.element e) ∈ program.subviews →
        (((e.attributes.filter (!·.isSpread)).map fun a ↦ Attribute.domProperty a.name) ++
          e.bindings.map (·.property)).Nodup) ∧
      ∀ line column c, .rendered line column (.component c) ∈ program.subviews →
        (c.params.flatMap fun p ↦ p.pattern.toList.flatMap View.boundNames).Nodup ∧
          ∀ p ∈ c.params.dropLast, p.rest = false := by
  obtain ⟨range, body, hroot, hbody⟩ := Program.parse_body htokens hparsed
  have hitems : ∀ item ∈ parsed.root.children,
      item.Fits (Tape.ofTokens tokens htokens).Tag .statement := by
    rw [hroot]
    exact hbody
  obtain ⟨hcomponents, hkeys, hsound⟩ := ViewProgram.ofItems_accounts hitems hlowered
  refine ⟨hcomponents, hkeys, fun _ _ ↦ rfl, fun line column e hmem ↦ ?_,
    fun line column c hmem ↦ ?_⟩
  · have helement : e.Sound := hsound _ hmem
    exact helement.distinct
  · have hcomponent : c.Sound := hsound _ hmem
    exact ⟨hcomponent.distinct, hcomponent.rest⟩

/-- How many components a tree is lowered to, when nothing is wrong with it. -/
def ViewProgram.componentCount? (root : Node) : Option Nat :=
  (ofNode {} root).1.toOption.map (·.components.length)

open Compilation in
/-- A component that is declared in the body of another one. -/
theorem lowering_accounts_for_components_nested :
    ∃ tokens root program state,
      ReadAs {} (bytes "component A({ x }, ...y) { component B() { <p title={x()}/>; } }")
        tokens root ∧
      ViewProgram.ofNode {} root = (.ok program, state) ∧ program.components.length = 2 ∧
      (program.components : Multiset (Component View)) =
        program.subviews.filterMap View.component? ∧
      (program.components.map (·.registryKey)).Nodup := by
  have hreads : reads {}
      (bytes "component A({ x }, ...y) { component B() { <p title={x()}/>; } }")
      (fun _ root ↦ ViewProgram.componentCount? root == some 2) = true := by
    decide +kernel
  obtain ⟨tokens, root, hread, hcount⟩ := exists_of_reads hreads
  unfold ViewProgram.componentCount? at hcount
  cases hlowered : ViewProgram.ofNode {} root with
  | mk result state =>
    cases result with
    | error failure => simp [hlowered, Except.toOption] at hcount
    | ok program =>
      have haccounts :=
        lowering_accounts_for_components hread.isStream.kind_ne hread.parsed hlowered
      refine ⟨tokens, root, program, state, hread, hlowered, ?_, haccounts.1, haccounts.2.1⟩
      simpa [hlowered, Except.toOption] using hcount

/-! ## The dependencies of components

A component depends on the signals that are noted for its views: those that wired attributes of
elements read, and those that expressions among the children of markup read. The properties that it
hands to other components do not count, nor do attributes that are set once.
-/

namespace Component

variable (c : Component View)

/-- The views in the parameters of a component. -/
def paramViews : Multiset View :=
  ((Slot.parts (c.params.flatMap (·.slots))).map View.ownViews).sum

/-- The views in the body of a component. -/
def bodyViews : Multiset View := ((c.block.toList ++ c.value.toList).map View.ownViews).sum

/-- The signals that are noted for the views of a component. -/
def notedSignals : Set Bytes := {name | ∃ view ∈ c.ownViews, name ∈ view.noted}

/-- The signals that the classifications in the body of a component name. -/
def bodySignals : Set Bytes := {name | ∃ view ∈ c.bodyViews, name ∈ view.classified}

theorem ownViews_eq : c.ownViews = c.paramViews + c.bodyViews := by
  simp [ownViews, paramViews, bodyViews, slots]

variable {c}

/-- The signals in the body are those that are noted if no property of a call and no attribute that
is set once names a further one, and the parameters name no others. -/
theorem notedSignals_eq_bodySignals_iff : c.notedSignals = c.bodySignals ↔
    (∀ view ∈ c.bodyViews, ∀ name ∈ view.classified, name ∈ c.notedSignals) ∧
      ∀ view ∈ c.paramViews, ∀ name ∈ view.noted, name ∈ c.bodySignals := by
  constructor
  · intro heq
    refine ⟨fun view hview name hname ↦ ?_, fun view hview name hname ↦ ?_⟩
    · rw [heq]
      exact ⟨view, hview, hname⟩
    · rw [← heq]
      refine ⟨view, ?_, hname⟩
      rw [ownViews_eq]
      exact Multiset.mem_add.mpr (.inl hview)
  · intro ⟨hbody, hparams⟩
    refine Set.Subset.antisymm ?_ fun name ⟨view, hview, hname⟩ ↦ hbody view hview name hname
    intro name ⟨view, hview, hname⟩
    rw [ownViews_eq, Multiset.mem_add] at hview
    obtain hview | hview := hview
    · exact hparams view hview name hname
    · exact ⟨view, hview, view.noted_subset_classified hname⟩

end Component

namespace ViewProgram

/-- A component of a program is on record, or in the tree. -/
def HasComponent (program : ViewProgram) (c : Component View) : Prop :=
  c ∈ program.components ∨ ∃ line column, .rendered line column (.component c) ∈ program.subviews

variable {options : Options} {root : Node} {program : ViewProgram} {state : LoweringState}
  {c : Component View}

theorem HasComponent.settled (hc : program.HasComponent c)
    (hrun : ofNode options root = (.ok program, state)) : c.Settled := by
  obtain hc | ⟨line, column, hc⟩ := hc
  · exact (ofNode_settled hrun).1 c hc
  · exact (ofNode_settled hrun).2 _ hc

/-- The dependencies of a component are sorted and without repetition, and they are the signals that
are noted for its views. They are all signals in its body exactly when no property of a call and no
attribute that is set once names a further one, and the parameters name no others. -/
theorem dependencies_eq_notedSignals (hrun : ofNode options root = (.ok program, state))
    (hc : program.HasComponent c) :
    c.facts.dependencies.Pairwise (Bytes.before · · = true) ∧ c.facts.dependencies.Nodup ∧
      {name | name ∈ c.facts.dependencies} = c.notedSignals ∧
      (c.facts.dependencies ≠ [] → c.facts.usesSignals = true) ∧
      ({name | name ∈ c.facts.dependencies} = c.bodySignals ↔
        (∀ view ∈ c.bodyViews, ∀ name ∈ view.classified, name ∈ c.notedSignals) ∧
          ∀ view ∈ c.paramViews, ∀ name ∈ view.noted, name ∈ c.bodySignals) := by
  have hsettled := hc.settled hrun
  have hsorted : c.facts.dependencies.Pairwise (Bytes.before · · = true) := by
    obtain ⟨names, -, hdependencies⟩ := hsettled.dependencies
    rw [hdependencies]
    exact sortedDistinct_sorted names
  have hnoted : {name | name ∈ c.facts.dependencies} = c.notedSignals :=
    Set.ext fun name ↦ hsettled.mem_dependencies
  refine ⟨hsorted, Bytes.before_strictlyOrders.nodup hsorted, hnoted, hsettled.usesSignals, ?_⟩
  rw [hnoted]
  exact Component.notedSignals_eq_bodySignals_iff

/-- Whether a component depends on nothing, although a classification in its body names a signal. -/
def missesSignal (name : Bytes) (c : Component View) : Bool :=
  c.facts.dependencies.isEmpty && decide (name ∈ c.bodyViews.bind fun view ↦ view.classified)

open Compilation in
/-- The property that a call hands on reads a signal, but nothing is noted for the component. -/
theorem dependencies_eq_notedSignals_call :
    ∃ tokens root program state c,
      ReadAs {} (bytes "let [n] = signal(); component A() { <B x={n()}/> }") tokens root ∧
      ofNode {} root = (.ok program, state) ∧ program.HasComponent c ∧
      bytes "n" ∈ c.bodySignals ∧ c.notedSignals = ∅ := by
  have hlowers : lowers (bytes "let [n] = signal(); component A() { <B x={n()}/> }")
      (fun program ↦ program.components.any (missesSignal (bytes "n"))) = true := by
    decide +kernel
  obtain ⟨tokens, root, program, state, hread, hlowered, hmisses⟩ := exists_of_lowers hlowers
  obtain ⟨c, hc, hmisses⟩ := List.any_eq_true.mp hmisses
  simp only [missesSignal, Bool.and_eq_true, List.isEmpty_iff, decide_eq_true_eq,
    Multiset.mem_bind, Multiset.mem_coe] at hmisses
  obtain ⟨-, -, hnoted, -⟩ := dependencies_eq_notedSignals hlowered (.inl hc)
  refine ⟨tokens, root, program, state, c, hread, hlowered, .inl hc, hmisses.2, ?_⟩
  simpa [hmisses.1] using hnoted.symm

end ViewProgram

end SignalView
