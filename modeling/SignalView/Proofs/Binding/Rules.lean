import SignalView.Proofs.Binding.Trace
import SignalView.Proofs.Lowering.Idle
import SignalView.Proofs.Lowering.Scopes

/-!
# Actions that follow events

An action of the lowering follows a row of events when it does to the scopes what these do, and what
is written in the value that it gives is what is written for them. Put together, actions follow the
events of each, one after the other.
-/

namespace SignalView

open Slot

namespace Lower

variable {α β : Type} {before : Multiset Written} {trace more : List Event} {action : Lower α}
  {next : α → Lower β} {v : α → Multiset Written} {w : β → Multiset Written}

/-- With some names written already, the action does what the events do and writes what is written
for them, if it gives a value. -/
def Follows (before : Multiset Written) (trace : List Event) (action : Lower α)
    (v : α → Multiset Written) : Prop :=
  ∀ ⦃s value t⦄, action s = (.ok value, t) →
    t.scoping = s.scoping.run trace ∧ v value = before + s.scoping.output trace

/-- An action that writes nothing. -/
abbrev Quiet (trace : List Event) (action : Lower α) : Prop := Follows 0 trace action fun _ ↦ 0

namespace Follows

theorem pure {value : α} (h : v value = before) : Follows before [] (Pure.pure value) v := by
  intro s _ t hrun
  cases hrun
  exact ⟨rfl, by simp [h]⟩

/-- The rest may rely on the value having been given. -/
theorem bindRun (h : Follows 0 trace action v)
    (hnext : ∀ s value t, action s = (.ok value, t) →
      Follows (before + v value) more (next value) w) :
    Follows before (trace ++ more) (action >>= next) w := by
  intro s result t hrun
  obtain ⟨value, middle, hvalue, hresult⟩ := bind_eq_ok.mp hrun
  obtain ⟨hmiddle, hv⟩ := h hvalue
  obtain ⟨hlast, hw⟩ := hnext s value middle hvalue hresult
  refine ⟨?_, ?_⟩
  · rw [hlast, hmiddle, Scoping.run_append]
  · rw [hw, hv, hmiddle, Scoping.output_append, zero_add, add_assoc]

theorem bind (h : Follows 0 trace action v)
    (hnext : ∀ value, Follows (before + v value) more (next value) w) :
    Follows before (trace ++ more) (action >>= next) w :=
  h.bindRun fun _ value _ _ ↦ hnext value

theorem of_eq {trace' : List Event} (h : Follows before trace action v) (heq : trace' = trace) :
    Follows before trace' action v :=
  heq ▸ h

/-- The last action of a row is followed by the value that is made of what it gives. -/
theorem bindLast (h : Follows 0 trace action v)
    (hnext : ∀ value, Follows (before + v value) [] (next value) w) :
    Follows before trace (action >>= next) w :=
  (h.bind hnext).of_eq (List.append_nil trace).symm

/-- An action that writes nothing goes in front of another. -/
theorem after (h : Quiet trace action) (hnext : ∀ value, Follows before more (next value) w) :
    Follows before (trace ++ more) (action >>= next) w :=
  h.bind fun value ↦ (add_zero before).symm ▸ hnext value

/-- An action that no event tells of goes in front of another. -/
theorem skip (h : Quiet [] action) (hnext : ∀ value, Follows before trace (next value) w) :
    Follows before trace (action >>= next) w :=
  h.after hnext

theorem pureBind {value : α} (h : Follows before trace (next value) w) :
    Follows before trace (Pure.pure value >>= next) w :=
  h

/-- Names are kept that the value has in it anyway. -/
theorem keeping {written : Written} (h : Follows (before + {written}) trace action v) :
    Follows before (.keeps written :: trace) action v := by
  intro s value t hrun
  obtain ⟨ht, hv⟩ := h hrun
  exact ⟨ht, by rw [hv, add_assoc]; rfl⟩

theorem ite {c : Prop} [Decidable c] {other : Lower α} (h : c → Follows before trace action v)
    (hother : ¬c → Follows before trace other v) :
    Follows before trace (if c then action else other) v := by
  split
  · exact h ‹_›
  · exact hother ‹_›

theorem iteThen {c : Prop} [Decidable c] {action : Lower Unit} {next : Unit → Lower β}
    (h : Quiet [] action) (hnext : Follows before trace (next ()) w) :
    Follows before trace (if c then action >>= next else next ()) w :=
  ite (fun _ ↦ skip h fun _ ↦ hnext) fun _ ↦ hnext

theorem fail (failure : Failure) : Follows before trace (Lower.fail failure) v := by
  intro s _ t hrun
  cases hrun

theorem failAt (code : String) (message : Bytes) (line column : Nat) :
    Follows before trace (Lower.failAt code message line column) v :=
  fail _

theorem inScope (h : Follows before trace action v) (kind : ScopeKind) :
    Follows before (Tracing.inScope trace) (Lower.inScope kind action) v := by
  intro s value t hrun
  obtain ⟨middle, haction, rfl⟩ := inScope_eq_ok.mp hrun
  obtain ⟨hmiddle, hv⟩ := h haction
  rw [LoweringState.scoping_enter] at hmiddle hv
  refine ⟨?_, ?_⟩
  · rw [LoweringState.scoping_exit, hmiddle, Tracing.inScope, Scoping.run_cons, Scoping.run_append]
    rfl
  · rw [hv, Tracing.inScope, Scoping.output_cons, Scoping.output_append]
    simp [Scoping.written]

/-! ## Lists and options -/

variable {f : α → Lower β} {events : α → List Event}

theorem mapM {items : List α} (h : ∀ item ∈ items, Follows 0 (events item) (f item) w) :
    Follows 0 (items.flatMap events) (items.mapM f) fun values ↦ (values.map w).sum := by
  induction items with
  | nil => exact pure rfl
  | cons item items ih =>
    rw [List.mapM_cons, List.flatMap_cons]
    refine (h item List.mem_cons_self).bind fun value ↦ ?_
    refine (ih fun _ hmem ↦ h _ (List.mem_cons_of_mem _ hmem)).bindLast fun values ↦ pure ?_
    simp

theorem optionMapM {item : Option α} (h : ∀ value ∈ item, Follows 0 (events value) (f value) w) :
    Follows 0 (item.toList.flatMap events) (item.mapM f) fun value ↦
      (value.toList.map w).sum := by
  cases item with
  | none => exact pure rfl
  | some item =>
    refine .of_eq ((h item rfl).bindLast fun value ↦ pure ?_) ?_
    · simp
    · simp

end Follows

namespace Quiet

theorem forM {items : List α} {f : α → Lower PUnit} {events : α → List Event}
    (h : ∀ item ∈ items, Quiet (events item) (f item)) :
    Quiet (items.flatMap events) (items.forM f) := by
  induction items with
  | nil => exact .pure rfl
  | cons item items ih =>
    refine .of_eq (Follows.after (h item List.mem_cons_self) fun _ ↦ ?_) List.flatMap_cons
    exact ih fun _ hmem ↦ h _ (List.mem_cons_of_mem _ hmem)

theorem optionForM {item : Option α} {f : α → Lower PUnit} {events : α → List Event}
    (h : ∀ value ∈ item, Quiet (events value) (f value)) :
    Quiet (item.toList.flatMap events) (item.forM f) := by
  cases item with
  | none => exact .pure rfl
  | some item => exact (h item rfl).of_eq (by simp)

theorem forM_nil {items : List α} {f : α → Lower PUnit} (h : ∀ item ∈ items, Quiet [] (f item)) :
    Quiet [] (items.forM f) :=
  (forM h).of_eq (by simp)

theorem state : Quiet [] Lower.state := by
  intro s _ t hrun
  cases hrun
  exact ⟨rfl, rfl⟩

theorem modify {change : LoweringState → LoweringState}
    (h : ∀ s, (change s).scoping = s.scoping) : Quiet [] (Lower.modify change) := by
  intro s _ t hrun
  cases hrun
  exact ⟨h s, rfl⟩

theorem remark (level : Log.Level) (phase : Phase) (message : Bytes) :
    Quiet [] (Lower.remark level phase message) :=
  modify fun _ ↦ rfl

theorem report (diagnostic : Diagnostic) : Quiet [] (Lower.report diagnostic) :=
  .skip (remark _ _ _) fun _ ↦ modify fun _ ↦ rfl

theorem noteFact (change : ComponentFacts → ComponentFacts) : Quiet [] (Lower.noteFact change) :=
  modify fun _ ↦ rfl

theorem markUsed (name : Bytes) : Quiet [] (Lower.markUsed name) := by
  refine modify fun s ↦ ?_
  exact congrArg (Scoping.mk · _ _) (s.symbols.map_bindings_markUsed name)

theorem collectingFacts {v : α → Multiset Written} (h : Follows before trace action v) :
    Follows before trace (Lowering.collectingFacts action) fun result ↦ v result.1 := by
  intro s result t hrun
  obtain ⟨middle, haction, -, rfl⟩ := collectingFacts_eq_ok.mp hrun
  obtain ⟨hmiddle, hv⟩ := h haction
  exact ⟨hmiddle, hv⟩

end Quiet

/-! ## Names -/

theorem declare_eq_ok {keyword name type : Bytes} {kind : SymbolKind} {line column : Nat}
    {s t : LoweringState} {value : Unit}
    (hrun : declare keyword name kind type line column s = (.ok value, t)) :
    t.scoping = s.scoping.declare name (kind == .import_) := by
  have hlookup : s.symbols.current.bindings.lookup name =
      (s.symbols.current.find? name).map (·.kind == .import_) := Scope.lookup_bindings _ _
  unfold Scoping.declare LoweringState.scoping SymbolTable.scopes
  simp only [List.map_cons, hlookup, Option.isSome_map]
  unfold declare at hrun
  split at hrun
  · next hempty =>
    cases hrun
    rw [if_pos (by simp [hempty])]
  next hname =>
  obtain ⟨_, _, ⟨⟩, hrun⟩ := bind_eq_ok.mp hrun
  unfold SymbolTable.declare? Scope.declares at hrun
  cases hfind : s.symbols.current.find? name with
  | some symbol =>
    simp only [hfind, Option.isSome_some, if_true] at hrun
    rw [if_pos (by simp)]
    exact (Follows.ite (fun _ ↦ Quiet.report _) (fun _ ↦ .pure rfl) hrun).1
  | none =>
    simp only [hfind, Option.isSome_none, Bool.false_eq_true, if_false] at hrun
    cases hrun
    rw [if_neg (by simpa using hname)]
    simp [Scope.bindings]

theorem declare_follows (keyword name : Bytes) {kind : SymbolKind} (hkind : kind ≠ .import_)
    (isFunction : Bool) (type : Bytes) (line column : Nat) :
    Quiet [.declares name isFunction] (declare keyword name kind type line column) := by
  intro s _ t hrun
  refine ⟨?_, rfl⟩
  rw [declare_eq_ok hrun, beq_eq_false_iff_ne.mpr hkind]
  rfl

theorem declareAll_follows (keyword : Bytes) {kind : SymbolKind} (hkind : kind ≠ .import_)
    (type : Bytes) (line column : Nat) (names : List Bytes) :
    Quiet (Tracing.declares names)
      (names.forM fun name ↦ declare keyword name kind type line column) := by
  refine (Quiet.forM fun name _ ↦ declare_follows keyword name hkind false _ _ _).of_eq ?_
  rw [Tracing.declares, List.map_eq_flatMap]

theorem declarePattern_follows (keyword : Bytes) {kind : SymbolKind} (hkind : kind ≠ .import_)
    (type : Bytes) (pattern : Node) :
    Quiet (Tracing.declares pattern.boundNames)
      (declarePattern keyword kind type pattern) := by
  unfold declarePattern
  split
  · next name hname =>
    rw [Node.boundNames_of_name? hname]
    exact declare_follows keyword name hkind false _ _ _
  · exact declareAll_follows _ hkind _ _ _ _

theorem declareParams_follows (params : List (Param Node)) :
    Quiet (Tracing.declares (Tracing.paramNames params)) (declareParams params) := by
  refine (Quiet.forM fun param _ ↦ Quiet.optionForM fun pattern _ ↦
    declarePattern_follows _ (by decide) _ pattern).of_eq ?_
  simp [Tracing.declares, Tracing.paramNames, List.map_flatMap]

theorem declareSignalPair_follows (keyword type : Bytes) (index : Nat) (elements : List Node) :
    Quiet (Tracing.declares (elements.flatMap (·.boundNames)))
      (declareSignalPair keyword type index elements) := by
  induction elements generalizing index with
  | nil => exact .pure rfl
  | cons element rest ih =>
    have hdeclare {name : Bytes} (hname : element.name? = some name) {kind : SymbolKind}
        (hkind : kind ≠ .import_) (type : Bytes) :
        Quiet (Tracing.declares element.boundNames)
          (declare keyword name kind type element.line element.column) := by
      rw [Node.boundNames_of_name? hname]
      exact declare_follows keyword name hkind false _ _ _
    have hsplit : Tracing.declares ((element :: rest).flatMap (·.boundNames)) =
        Tracing.declares element.boundNames ++
          Tracing.declares (rest.flatMap (·.boundNames)) := by
      simp [Tracing.declares]
    rw [hsplit]
    unfold declareSignalPair
    split
    · next hname => exact .after (hdeclare hname (by decide) _) fun _ ↦ ih _
    · next hname => exact .after (hdeclare hname (by decide) _) fun _ ↦ ih _
    · exact .after (declarePattern_follows _ (by decide) _ _) fun _ ↦ ih _

/-- The action tells whether it has declared the names; if it has not, it has done nothing. -/
def DeclaresIf (names : List Bytes) (action : Lower Bool) : Prop :=
  ∀ ⦃s taken t⦄, action s = (.ok taken, t) →
    t.scoping = s.scoping.run (if taken then Tracing.declares names else [])

namespace DeclaresIf

variable {names : List Bytes}

theorem done (h : Quiet (Tracing.declares names) action) :
    DeclaresIf names (do let _ ← action; return true) := by
  intro s taken t hrun
  obtain ⟨_, _, haction, ⟨⟩⟩ := bind_eq_ok.mp hrun
  exact (h haction).1

theorem skipped : DeclaresIf names (pure false) := by
  intro s taken t hrun
  cases hrun
  rfl

theorem ofState {choose : LoweringState → Lower Bool} (h : ∀ s, DeclaresIf names (choose s)) :
    DeclaresIf names (Lower.state >>= choose) :=
  fun s _ _ hrun ↦ h s hrun

/-- Names that the first action has not declared are declared by the second one. -/
theorem orElse {action : Lower Bool} (h : DeclaresIf names action) {other : Lower Unit}
    (hother : Quiet (Tracing.declares names) other) {next : Unit → Lower β}
    (hnext : Follows before more (next ()) w) :
    Follows before (Tracing.declares names ++ more)
      (action >>= fun taken ↦ if (!taken) = true then other >>= next else next ()) w := by
  intro s value t hrun
  obtain ⟨taken, middle, haction, hrun⟩ := bind_eq_ok.mp hrun
  have hmiddle := h haction
  cases taken with
  | true =>
    obtain ⟨ht, hv⟩ := hnext hrun
    rw [Scoping.run_append, Scoping.output_append, Scoping.output_declares, zero_add]
    exact hmiddle ▸ ⟨ht, hv⟩
  | false =>
    rw [if_neg Bool.false_ne_true, Scoping.run_nil] at hmiddle
    exact hmiddle ▸ Follows.after hother (fun _ ↦ hnext) hrun

end DeclaresIf

theorem declareSignals_follows (keyword : Bytes) (d : Declarator Node) :
    DeclaresIf d.target.boundNames (declareSignals keyword d) := by
  unfold declareSignals
  split
  · refine .ofState fun s ↦ ?_
    split
    · next htarget =>
      rw [htarget, Node.boundNames_array]
      exact .done (declareSignalPair_follows _ _ _ _)
    · next htarget =>
      rw [htarget, Node.boundNames_identifier]
      exact .done (declare_follows _ _ (by decide) false _ _ _)
    · exact .skipped
  · exact .skipped

theorem resolve_follows (name : Bytes) (line column : Nat) :
    Follows 0 [.refers line column name] (resolve name) fun value ↦
      {.name line column value} := by
  intro s value t hrun
  rw [Scoping.output_cons, Scoping.run_cons, Scoping.run_nil, Scoping.output_nil, zero_add,
    add_zero]
  obtain ⟨_, _, ⟨⟩, hrun⟩ := bind_eq_ok.mp hrun
  have hseen := s.seen_scoping name
  unfold Scoping.step Scoping.refer Scoping.written Scoping.resolve Scoping.autoImports
  cases hlookup : s.symbols.lookup name with
  | some symbol =>
    rw [hlookup, Option.map_some] at hseen
    simp only [hlookup] at hrun
    obtain ⟨_, middle, hmark, hrun⟩ := bind_eq_ok.mp hrun
    have hmiddle : middle.scoping = s.scoping := (Quiet.markUsed name hmark).1
    have hruntime : s.scoping.runtimeNames = s.runtimeNames := rfl
    simp only [hseen, hruntime]
    cases hcanonical : s.runtimeNames.lookup name with
    | some canonical =>
      simp only [hcanonical] at hrun
      by_cases himport : (symbol.kind == .import_) = true
      · rw [if_pos himport] at hrun
        cases hrun
        refine ⟨hmiddle, ?_⟩
        by_cases hprimitive : (Primitive.ofName? name).isSome <;> simp [himport, hprimitive]
      · rw [if_neg himport] at hrun
        cases hrun
        simp [hmiddle, himport]
    | none =>
      simp only [hcanonical] at hrun
      cases hrun
      simp [hmiddle]
  | none =>
    rw [hlookup, Option.map_none] at hseen
    simp only [hlookup] at hrun
    simp only [hseen]
    by_cases himplicit : Primitive.isImplicit name
    · rw [if_pos himplicit] at hrun
      cases hrun
      refine ⟨?_, by simp [himplicit]⟩
      rw [if_pos (by simp [himplicit])]
      rfl
    · rw [if_neg himplicit] at hrun
      cases hrun
      simp [himplicit]

end Lower

end SignalView
