import Mathlib.Data.Multiset.Bind
import SignalView.Proofs.Compilation.Names
import SignalView.Proofs.Lowering.Items
import SignalView.Proofs.Script.Account.Programs

/-!
# What is imported from the runtime

A program imports from the runtime the primitives that it has detected and the helpers of the calls
that are written with its views, and nothing else. Each of these calls is in the output, and every
piece of markup is written once.
-/

namespace SignalView

open EmitState

/-! ## What a program needs -/

/-- Markup stands where a value does. -/
theorem Rendered.place_of_isMarkup {form : Rendered View} {place : Place}
    (hmarkup : form.isMarkup = true) (h : form.stands place) : place = .expression := by
  unfold stands at h
  split at h
  · rfl
  · cases hmarkup
  · cases h

theorem View.element_not_mem_childCalls {tag : Bytes} (children : List View) :
    .element tag ∉ (children.map View.childCalls).sum := by
  rw [mem_sum_map]
  rintro ⟨child, -, hcall⟩
  unfold View.childCalls Classification.calls at hcall
  grind [Multiset.mem_singleton]

namespace ViewProgram

/-- The calls of helpers that are written with a program. -/
def calls (program : ViewProgram) : Multiset RuntimeCall := (program.subviews.map View.calls).sum

/-- The exports of the runtime that a program cannot do without. -/
inductive Needs (program : ViewProgram) : Bytes → Prop
  | primitive {name : Bytes} (h : name ∈ program.primitives) : Needs program name
  | element {line column : Nat} {e : ElementShape View}
    (h : .rendered line column (.element e) ∈ program.subviews) :
    Needs program (bytes "t_element")
  | wrapper {key : Bytes} (h : .wrapper key ∈ program.calls) : Needs program (bytes "$REGISTRY")
  | wire (h : .wire ∈ program.calls) : Needs program (bytes "$REGISTRY")
  | effect (h : .effect ∈ program.calls) : Needs program (bytes "createEffect")

variable {program : ViewProgram}

theorem mem_calls {call : RuntimeCall} :
    call ∈ program.calls ↔ ∃ view ∈ program.subviews, call ∈ view.calls :=
  Multiset.mem_bind

/-- Elements alone are written with calls for elements. -/
theorem exists_of_element_mem {tag : Bytes} (h : .element tag ∈ program.calls) :
    ∃ line column e, .rendered line column (.element e) ∈ program.subviews := by
  obtain ⟨view, hview, hcall⟩ := mem_calls.mp h
  cases view with
  | plain line column form => cases hcall
  | rendered line column form =>
    cases form with
    | element e => exact ⟨line, column, e, hview⟩
    | component c => simp [View.calls] at hcall
    | fragment children => exact absurd hcall (View.element_not_mem_childCalls children)
    | _ => cases hcall

/-- Primitives and the helpers of calls are all that is needed. -/
theorem needs_iff {name : Bytes} :
    program.Needs name ↔
      name ∈ program.primitives ∨ ∃ call ∈ program.calls, call.helper = name := by
  constructor
  · rintro (hname | @⟨line, column, e, h⟩ | hcall | hcall | hcall)
    · exact .inl hname
    · have hcall : .element e.tag ∈ (View.rendered line column (.element e)).calls := by
        simp [View.calls, ElementShape.calls]
      exact .inr ⟨.element e.tag, mem_calls.mpr ⟨_, h, hcall⟩, rfl⟩
    · exact .inr ⟨_, hcall, rfl⟩
    · exact .inr ⟨_, hcall, rfl⟩
    · exact .inr ⟨_, hcall, rfl⟩
  · rintro (hname | ⟨call, hcall, rfl⟩)
    · exact .primitive hname
    · cases call with
      | element tag =>
        obtain ⟨line, column, e, h⟩ := exists_of_element_mem hcall
        exact .element h
      | wrapper key => exact .wrapper hcall
      | wire => exact .wire hcall
      | effect => exact .effect hcall

end ViewProgram

/-! ## Types -/

/-- No types are imported from the runtime. -/
def EmitState.TypeFree (runtimeModule : Bytes) (s : EmitState) : Prop :=
  ∀ m ∈ s.imports.modules, m.source = runtimeModule → m.types = []

namespace EmitState.TypeFree

variable {runtimeModule : Bytes} {s : EmitState}

theorem runtime (h : TypeFree runtimeModule s) (name : Bytes) :
    TypeFree runtimeModule { s with imports := s.imports.addNamed runtimeModule name [] false } := by
  intro m hm hsource
  obtain hm | ⟨m', hm', hsource', rfl⟩ := ImportTable.mem_updateIn hm
  · exact h m hm hsource
  · have htypes : m'.types = [] := by
      obtain hm' | rfl := hm'
      · exact h m' hm' hsource'
      · rfl
    simp [ModuleImports.addNamed, htypes]

theorem foreign (h : TypeFree runtimeModule s) {clause : ImportClause}
    (hforeign : clause.source ≠ runtimeModule) :
    TypeFree runtimeModule { s with imports := s.imports.add clause } := by
  intro m hm hsource
  rw [ImportTable.add_eq_update] at hm
  obtain hm | ⟨m', -, hsource', rfl⟩ := ImportTable.mem_updateIn hm
  · exact h m hm hsource
  · rw [ModuleImports.add_source, hsource'] at hsource
    exact absurd hsource hforeign

/-- Writing a program imports no types from the runtime, when the program does not. -/
theorem lastsIn {program : ViewProgram}
    (hforeign : ∀ line column clause, .plain line column (.imports clause) ∈ program.body →
      clause.source ≠ runtimeModule) : LastsIn runtimeModule program (TypeFree runtimeModule) where
  lasting := {
    helper := fun h name _ ↦ h.runtime name
    temporary := fun h _ _ ↦ h }
  primitive h name _ := h.runtime name
  clause h _ _ _ hclause := h.foreign (hforeign _ _ _ hclause)

end EmitState.TypeFree

/-! ## The output -/

namespace Compilation

open Emission

variable {options : Options} {source : Bytes} {tokens : List Token} {root : Node}

/-- The statements of a program can be written, part by part. -/
theorem ReadAs.kept (h : ReadAs options source tokens root) {program : ViewProgram}
    {state : LoweringState}
    (hlowered : ViewProgram.ofNode options.lowering root = (.ok program, state)) :
    ∀ view ∈ program.body, view.Kept .statement := by
  obtain ⟨-, -, hsound⟩ :=
    ViewProgram.ofItems_accounts (Program.parse_fits h.isStream h.parsed) hlowered
  intro view hview
  refine ⟨((h.lowered hlowered).1 view hview).1, fun part hpart ↦ hsound part ?_⟩
  exact mem_sum_map.mpr ⟨view, hview, hpart⟩

/-- What is imported from the runtime, the code and the views that are written are accounted for. -/
structure RuntimeAccount (options : Options) (program : ViewProgram) (code : Bytes)
    (final : EmitState) : Prop where
  /-- What is imported from the runtime is what the program needs, under its own name. -/
  imports : ∀ b : ImportedName, b.source = options.runtimeModule →
    (b ∈ final.imports.bindings ↔
      ∃ name, program.Needs name ∧ b = ownName options.runtimeModule name)
  typeFree : final.TypeFree options.runtimeModule
  /-- The calls of helpers are in the code. -/
  calls : ∀ call ∈ program.calls, call.text <:+: code
  /-- Elements, fragments and calls of components are written as often as they occur. -/
  views : ∀ p : View → Bool, (∀ view, p view = true → isView view = true) →
    ∃ code' final', Script.programText
      (noting p options.script options.script.maxDepth.toNat) program 0 {} = .ok (code', final') ∧
        final'.notes = program.subviews.countP (p ·)
  /-- Wherever markup is written, each of its parts is handed on once. -/
  parts : ∀ line column form, .rendered line column form ∈ program.subviews →
    form.isMarkup = true → ∀ levels level s text t,
      (emission options.script (levels + 1)).expression (.rendered line column form) level s =
        .ok (text, t) →
      ∀ (p : View → Bool) s', ∃ text' t',
        ((emission options.script levels).watched p).expressionStep (.rendered line column form)
          level s' = .ok (text', t') ∧ t'.notes = s'.notes + form.handed.countP p

/-- Whether a statement imports something from another module than the runtime, if anything. -/
def isForeign (runtimeModule : Bytes) : View → Bool
  | .plain _ _ (.imports clause) => clause.source != runtimeModule
  | _ => true

theorem ne_of_isForeign {body : List View} {runtimeModule : Bytes}
    (h : body.all (isForeign runtimeModule) = true) {line column : Nat} {clause : ImportClause}
    (hclause : .plain line column (.imports clause) ∈ body) : clause.source ≠ runtimeModule := by
  simpa [isForeign] using List.all_eq_true.mp h _ hclause

end Compilation

end SignalView
