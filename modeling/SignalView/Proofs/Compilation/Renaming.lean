import SignalView.Proofs.Binding.Statements
import SignalView.Proofs.Compilation.Outcome
import SignalView.Proofs.Text.Sorted

/-!
# How references to primitives are written

A reference is renamed in two cases: nothing in front of it declares its name, or an import does and
a primitive of the runtime goes by that name. A function that is declared behind it is missed, and a
local name that is the name of another primitive is not told apart from that primitive.
-/

namespace SignalView

namespace Primitive

theorem canonicalName_of_not_isImplicit {name : Bytes} (h : isImplicit name = false) :
    canonicalName name = name := by
  unfold canonicalName
  split
  · next hname => cases (beq_iff_eq.mp hname) ▸ h
  split
  · next hname => cases (beq_iff_eq.mp hname) ▸ h
  split
  · next hname => cases (beq_iff_eq.mp hname) ▸ h
  · rfl

theorem canonicalName_of_ofName?_eq_none {name : Bytes} (h : ofName? name = none) :
    canonicalName name = name := by
  refine canonicalName_of_not_isImplicit (Bool.eq_false_iff.mpr fun himplicit ↦ ?_)
  unfold isImplicit at himplicit
  simp only [List.contains_iff_mem, List.mem_cons, List.not_mem_nil, or_false] at himplicit
  rcases himplicit with rfl | rfl | rfl | rfl | rfl | rfl <;> revert h <;> decide

end Primitive

/-- The primitives of the runtime that are imported in a row of events. -/
def runtimeSpecifiers (trace : List Event) : List ImportSpecifier := trace.flatMap Event.specifiers

/-- The local name of a primitive, and the export that it stands for. -/
def ImportSpecifier.alias (spec : ImportSpecifier) : Bytes × Bytes :=
  (spec.localName, Primitive.canonicalName spec.imported)

namespace Scoping

variable (here : Scoping) {name canonical : Bytes} {trace : List Event}

/-! ## Runtime names -/

theorem runtimeNames_importSpecifiers (clause : ImportClause) (isRuntime : Bool)
    (specs : List ImportSpecifier) :
    (specs.foldl (·.importSpecifier clause isRuntime ·) here).runtimeNames =
      ((specs.filter (clause.isPrimitive isRuntime)).map (·.alias)).reverse ++
        here.runtimeNames := by
  induction specs generalizing here with
  | nil => rfl
  | cons spec specs ih =>
    rw [List.foldl_cons, ih, List.filter_cons]
    unfold importSpecifier
    split
    · simp [ImportSpecifier.alias]
    · simp

theorem runtimeNames_step (event : Event) :
    (here.step event).runtimeNames =
      (event.specifiers.map (·.alias)).reverse ++ here.runtimeNames := by
  cases event <;>
    simp [step, Event.specifiers, importClause, runtimeNames_importSpecifiers]

theorem runtimeNames_run (trace : List Event) :
    (here.run trace).runtimeNames =
      ((runtimeSpecifiers trace).map (·.alias)).reverse ++ here.runtimeNames := by
  induction trace generalizing here with
  | nil => rfl
  | cons event rest ih =>
    rw [run_cons, ih, runtimeNames_step]
    simp [runtimeSpecifiers]

theorem exists_of_lookup_runtimeNames
    (h : (run {} trace).runtimeNames.lookup name = some canonical) :
    ∃ spec ∈ runtimeSpecifiers trace, spec.localName = name ∧
      Primitive.canonicalName spec.imported = canonical := by
  rw [runtimeNames_run, List.append_nil] at h
  obtain ⟨front, rest, hsplit, -⟩ := List.lookup_eq_some_iff.mp h
  have hentry : (name, canonical) ∈ (runtimeSpecifiers trace).map (·.alias) := by
    rw [← List.mem_reverse, hsplit]
    simp
  obtain ⟨spec, hspec, halias⟩ := List.mem_map.mp hentry
  cases halias
  exact ⟨spec, hspec, rfl, rfl⟩

/-- A local name that is given to one primitive only stands for the export of that. -/
theorem lookup_runtimeNames {spec : ImportSpecifier} (hspec : spec ∈ runtimeSpecifiers trace)
    (hone : ∀ other ∈ runtimeSpecifiers trace, other.localName = spec.localName →
      Primitive.canonicalName other.imported = Primitive.canonicalName spec.imported) :
    (run {} trace).runtimeNames.lookup spec.localName =
      some (Primitive.canonicalName spec.imported) := by
  have hsome : ((run {} trace).runtimeNames.lookup spec.localName).isSome := by
    rw [List.lookup_isSome_iff, runtimeNames_run]
    exact ⟨spec.alias, by simpa using ⟨spec, hspec, rfl⟩, beq_self_eq_true _⟩
  obtain ⟨canonical, hcanonical⟩ := Option.isSome_iff_exists.mp hsome
  obtain ⟨other, hother, hname, rfl⟩ := exists_of_lookup_runtimeNames hcanonical
  rw [hcanonical, hone other hother hname]

/-! ## Primitives -/

theorem primitives_importSpecifiers (clause : ImportClause) (isRuntime : Bool)
    (specs : List ImportSpecifier) :
    (specs.foldl (·.importSpecifier clause isRuntime ·) here).primitives = here.primitives := by
  induction specs generalizing here with
  | nil => rfl
  | cons spec specs ih =>
    rw [List.foldl_cons, ih]
    unfold importSpecifier
    split <;> simp

theorem mem_primitives_run (h : name ∈ here.primitives) (trace : List Event) :
    name ∈ (here.run trace).primitives := by
  induction trace generalizing here with
  | nil => exact h
  | cons event rest ih =>
    refine ih _ ?_
    cases event with
    | refers line column other =>
      change name ∈ (here.refer other).primitives
      unfold refer
      split
      · exact mem_insertSorted.mpr (.inr h)
      · exact h
    | imports line column clause isRuntime =>
      simpa [step, importClause, primitives_importSpecifiers] using h
    | _ => simpa [step] using h

theorem mem_output {before after : List Event} {event : Event} {written : Written}
    (h : written ∈ (here.run before).written event) :
    written ∈ here.output (before ++ event :: after) := by
  rw [output_append, output_cons]
  exact Multiset.mem_add.mpr (.inr (Multiset.mem_add.mpr (.inl h)))

/-! ## References -/

theorem resolve_of_unseen (h : here.seen name = none) :
    here.resolve name = Primitive.canonicalName name := by
  unfold resolve
  rw [h]
  simp only
  split
  · rfl
  · next himplicit =>
    exact (Primitive.canonicalName_of_not_isImplicit (by simpa using himplicit)).symm

theorem resolve_of_import (h : here.seen name = some true) :
    here.resolve name = if (Primitive.ofName? name).isSome then
      (here.runtimeNames.lookup name).getD name else name := by
  unfold resolve
  rw [h]
  simp only [Bool.true_and]

theorem resolve_of_own (h : here.seen name = some false) : here.resolve name = name := by
  unfold resolve
  rw [h]
  simp

end Scoping

/-! ## Lexical scoping -/

/-- How many of the scopes that are opened in a row of events are open behind it, on top of some
others. -/
def opened : Nat → List Event → Nat
  | n, [] => n
  | n, .opens :: rest => opened (n + 1) rest
  | n, .closes :: rest => opened (n - 1) rest
  | n, _ :: rest => opened n rest

/-- A function of a name is declared behind a place, in a scope that is open there. -/
def DeclaredBehind (after : List Event) (name : Bytes) : Prop :=
  ∃ between rest, after = between ++ .declares name true :: rest ∧ opened 0 between = 0

/-- Under lexical scoping a declaration of the name is visible at a place: one in front of it in a
scope that is open there, or a function behind it. -/
def Visible (before after : List Event) (name : Bytes) : Prop :=
  ((Scoping.run {} before).seen name).isSome ∨ DeclaredBehind after name

/-- What is written where a program refers to a name. The events of the program tell where that is,
and what is known there. -/
structure ReferenceAccount (trace : List Event) (program : ViewProgram) : Prop where
  /-- All that the program has names in is written for an event. -/
  names : program.names = Scoping.output {} trace
  /-- A primitive that the program imports from the runtime is written in its canonical form. -/
  canonical : ∀ spec ∈ runtimeSpecifiers trace, ∃ line column clause,
    .imports line column clause ∈ program.names ∧ spec.canonical ∈ clause.specifiers
  /-- A reference to a primitive that no declaration is visible for is written as its export, and
  that is imported. -/
  imported {before after : List Event} {line column : Nat} {name : Bytes}
    (hat : trace = before ++ .refers line column name :: after)
    (himplicit : Primitive.isImplicit name = true) (hnone : ¬Visible before after name) :
    .name line column (Primitive.canonicalName name) ∈ program.names ∧
      Primitive.canonicalName name ∈ program.primitives
  /-- Nothing else is renamed or imported, but what is imported from the runtime, and primitives
  for which no more is visible than functions that are declared behind them. -/
  renamed {before after : List Event} {line column : Nat} {name : Bytes}
    (hat : trace = before ++ .refers line column name :: after) :
    let here := Scoping.run {} before
    .name line column (here.resolve name) ∈ program.names ∧
      (here.resolve name ≠ name ∨ here.autoImports name = true →
        (here.seen name = some true ∧ ∃ spec ∈ runtimeSpecifiers before,
          spec.localName = name ∧ here.resolve name = Primitive.canonicalName spec.imported) ∨
        (Primitive.isImplicit name = true ∧
          (Visible before after name → DeclaredBehind after name)))
  /-- A reference to what is imported from the runtime is written as the local name of the
  specifier, unless that is the name of another primitive. -/
  specifier {before after : List Event} {line column : Nat} {spec : ImportSpecifier}
    (hat : trace = before ++ .refers line column spec.localName :: after)
    (hspec : spec ∈ runtimeSpecifiers trace)
    (hone : ∀ other ∈ runtimeSpecifiers trace, other.localName = spec.localName →
      Primitive.canonicalName other.imported = Primitive.canonicalName spec.imported) :
    let here := Scoping.run {} before
    (here.seen spec.localName = some true → spec ∈ runtimeSpecifiers before →
      (here.resolve spec.localName = spec.canonical.localName ↔
        Primitive.ofName? spec.localName = none ∨ spec.localName = spec.imported ∨
          spec.localName = Primitive.canonicalName spec.imported)) ∧
    (here.seen spec.localName = none →
      (here.resolve spec.localName = spec.canonical.localName ↔
        spec.localName = spec.imported ∨
          Primitive.canonicalName spec.localName = spec.localName))
  /-- Exports keep the local names, also those that are bound under another name. -/
  exported {before after : List Event} {line column : Nat} {specifiers : List ExportSpecifier}
    (hat : trace = before ++ .keeps (.exports line column specifiers []) :: after) :
    .exports line column specifiers [] ∈ program.names ∧
      ∀ e ∈ specifiers, ∀ spec ∈ runtimeSpecifiers trace, e.localName = spec.localName →
        (e.localName = spec.canonical.localName ↔
          (spec.localName = spec.imported → Primitive.canonicalName spec.imported = spec.imported))

namespace Scoping

variable {before after : List Event} {name : Bytes}

theorem autoImports_iff {here : Scoping} :
    here.autoImports name = true ↔ here.seen name = none ∧ Primitive.isImplicit name = true := by
  rw [autoImports, Bool.and_eq_true, Option.isNone_iff_eq_none]

theorem visible_iff_of_unseen (h : (run {} before).seen name = none) :
    Visible before after name ↔ DeclaredBehind after name := by
  simp [Visible, h]

/-- What a reference is renamed to, or imported for, is told by what is in front of it. -/
theorem renamed_cases
    (h : (run {} before).resolve name ≠ name ∨ (run {} before).autoImports name = true) :
    ((run {} before).seen name = some true ∧ ∃ spec ∈ runtimeSpecifiers before,
      spec.localName = name ∧
        (run {} before).resolve name = Primitive.canonicalName spec.imported) ∨
    ((run {} before).seen name = none ∧ Primitive.isImplicit name = true) := by
  obtain hrenamed | hauto := h
  · cases hseen : (run {} before).seen name with
    | none =>
      rw [resolve_of_unseen _ hseen] at hrenamed
      refine .inr ⟨rfl, ?_⟩
      by_contra himplicit
      exact hrenamed (Primitive.canonicalName_of_not_isImplicit (by simpa using himplicit))
    | some isImport =>
      cases isImport with
      | false => exact absurd (resolve_of_own _ hseen) hrenamed
      | true =>
        rw [resolve_of_import _ hseen] at hrenamed ⊢
        split at hrenamed
        · next hprimitive =>
          cases hlookup : (run {} before).runtimeNames.lookup name with
          | none => simp [hlookup] at hrenamed
          | some canonical =>
            obtain ⟨spec, hspec, hname, rfl⟩ := exists_of_lookup_runtimeNames hlookup
            exact .inl ⟨rfl, spec, hspec, hname, by rw [if_pos hprimitive]; rfl⟩
        · exact absurd rfl hrenamed
  · exact .inr (autoImports_iff.mp hauto)

end Scoping

/-- The local name that is bound by the specifier that is written. -/
theorem ImportSpecifier.canonical_localName (spec : ImportSpecifier) :
    spec.canonical.localName =
      if spec.localName = spec.imported then Primitive.canonicalName spec.imported
      else spec.localName := by
  simp [canonical]

namespace ViewProgram

open Scoping

variable {options : Options} {root : Node} {program : ViewProgram} {state : LoweringState}

theorem ofNode_references (hrun : ofNode options root = (.ok program, state)) :
    ReferenceAccount (trace options root) program := by
  obtain ⟨hnames, hprimitives⟩ := ofNode_follows hrun
  have hwritten {before after : List Event} {event : Event} {written : Written}
      (hat : trace options root = before ++ event :: after)
      (h : written ∈ (run {} before).written event) : written ∈ program.names := by
    rw [hnames, hat]
    exact mem_output _ h
  constructor
  case names => exact hnames
  case canonical =>
    intro spec hspec
    obtain ⟨event, hevent, hspec⟩ := List.mem_flatMap.mp hspec
    obtain ⟨before, after, hat⟩ := List.append_of_mem hevent
    cases event with
    | imports line column clause isRuntime =>
      obtain ⟨hmem, hprimitive⟩ := List.mem_filter.mp hspec
      refine ⟨line, column, _, hwritten hat (Multiset.mem_singleton_self _), ?_⟩
      exact List.mem_map.mpr ⟨spec, hmem, if_pos hprimitive⟩
    | _ => cases hspec
  case imported =>
    intro before after line column name hat himplicit hnone
    have hunseen : (run {} before).seen name = none := by
      by_contra hseen
      exact hnone (.inl (Option.isSome_iff_ne_none.mpr hseen))
    refine ⟨hwritten hat ?_, ?_⟩
    · rw [← resolve_of_unseen _ hunseen]
      exact Multiset.mem_singleton_self _
    · rw [hprimitives, hat, run_append, run_cons]
      refine mem_primitives_run _ ?_ _
      change _ ∈ ((run {} before).refer name).primitives
      rw [refer, if_pos (autoImports_iff.mpr ⟨hunseen, himplicit⟩)]
      exact mem_insertSorted.mpr (.inl rfl)
  case renamed =>
    intro before after line column name hat
    refine ⟨hwritten hat (Multiset.mem_singleton_self _), fun h ↦ ?_⟩
    obtain himport | ⟨hunseen, himplicit⟩ := renamed_cases h
    · exact .inl himport
    · exact .inr ⟨himplicit, (visible_iff_of_unseen hunseen).mp⟩
  case specifier =>
    intro before after line column spec hat _ hone
    have hfront : runtimeSpecifiers before ⊆ runtimeSpecifiers (trace options root) := by
      rw [hat, runtimeSpecifiers, runtimeSpecifiers, List.flatMap_append]
      exact List.subset_append_left _ _
    refine ⟨fun himport hspec ↦ ?_, fun hunseen ↦ ?_⟩
    · have hlookup := lookup_runtimeNames hspec fun other hother ↦ hone other (hfront hother)
      rw [resolve_of_import _ himport, hlookup, spec.canonical_localName]
      cases hprimitive : Primitive.ofName? spec.localName with
      | none =>
        have hsame := Primitive.canonicalName_of_ofName?_eq_none hprimitive
        grind
      | some primitive => grind
    · rw [resolve_of_unseen _ hunseen, spec.canonical_localName]
      split
      · next hsame => simp [hsame]
      · next hother => simp [hother]
  case exported =>
    intro before after line column specifiers hat
    refine ⟨hwritten hat (Multiset.mem_singleton_self _), fun e he spec hspec hname ↦ ?_⟩
    rw [hname, spec.canonical_localName]
    split
    · next hsame => simp [hsame, eq_comm]
    · next hother => simp [hother]

end ViewProgram

namespace Compilation

/-- What is imported as `effect` is referred to by the name of its export, which is not bound. -/
theorem ReadAs.references_alias :
    ∃ tokens root program state,
      ReadAs {} (bytes "import { signal as effect } from '@pulsar-framework/pulsar.dev';\n" ++
        bytes "effect(0);\n") tokens root ∧
      ViewProgram.ofNode {} root = (.ok program, state) ∧
      ReferenceAccount (ViewProgram.trace {} root) program ∧
      program.names = {
        .imports 1 1 {
          source := ViewProgram.defaultRuntime
          specifiers := [⟨bytes "createSignal", bytes "effect", false⟩] },
        .name 2 1 (bytes "createSignal")} := by
  have hreads : reads {}
      (bytes "import { signal as effect } from '@pulsar-framework/pulsar.dev';\n" ++
        bytes "effect(0);\n")
      (fun _ root ↦ (ViewProgram.ofNode {} root).1.toOption.isSome &&
        decide (Scoping.output {} (ViewProgram.trace {} root) = {
          .imports 1 1 {
            source := ViewProgram.defaultRuntime
            specifiers := [⟨bytes "createSignal", bytes "effect", false⟩] },
          .name 2 1 (bytes "createSignal")})) = true := by
    decide +kernel
  obtain ⟨tokens, root, hread, hlowered⟩ := exists_of_reads hreads
  rw [Bool.and_eq_true, decide_eq_true_eq] at hlowered
  obtain ⟨hsome, houtput⟩ := hlowered
  cases hrun : ViewProgram.ofNode {} root with
  | mk result state =>
    cases result with
    | error failure => simp [hrun, Except.toOption] at hsome
    | ok program =>
      have haccount := ViewProgram.ofNode_references hrun
      exact ⟨tokens, root, program, state, hread, hrun, haccount, haccount.names.trans houtput⟩

end Compilation

end SignalView
