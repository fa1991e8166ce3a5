import SignalView.Proofs.Lowering.Outcome

/-!
# Actions that leave the record alone

On the way to the views of a tree names are declared and resolved, functions are judged and messages
are given. None of this puts a component on record or takes a key, and no signal is noted by it.
-/

namespace SignalView

/-- From the first state to the second no component and no key has gone on record, and no signal has
been noted. -/
structure LoweringState.Idles (s t : LoweringState) : Prop where
  components : t.components = s.components
  registered : t.registered = s.registered
  dependencies : t.current.map (·.dependencies) = s.current.map (·.dependencies)

namespace LoweringState.Idles

variable {s t u : LoweringState}

theorem refl (s : LoweringState) : s.Idles s := ⟨rfl, rfl, rfl⟩

theorem trans (h : s.Idles t) (h' : t.Idles u) : s.Idles u where
  components := h'.components.trans h.components
  registered := h'.registered.trans h.registered
  dependencies := h'.dependencies.trans h.dependencies

end LoweringState.Idles

namespace Lower

variable {α β : Type} {action : Lower α} {next : α → Lower β}

/-- The action leaves the record alone, if it gives a value. -/
def Idle (action : Lower α) : Prop := ∀ ⦃s value t⦄, action s = (.ok value, t) → s.Idles t

namespace Idle

theorem pure (value : α) : Idle (Pure.pure value) := by
  intro s _ t hrun
  cases hrun
  exact .refl s

theorem bind (h : Idle action) (hnext : ∀ value, Idle (next value)) : Idle (action >>= next) := by
  intro s result t hrun
  obtain ⟨value, middle, hvalue, hresult⟩ := bind_eq_ok.mp hrun
  exact (h hvalue).trans (hnext value hresult)

theorem ite {c : Prop} [Decidable c] {other : Lower α} (h : Idle action) (hother : Idle other) :
    Idle (if c then action else other) := by
  split
  · exact h
  · exact hother

theorem failAt (code : String) (message : Bytes) (line column : Nat) :
    Idle (Lower.failAt code message line column : Lower α) := by
  intro s _ t hrun
  cases hrun

theorem state : Idle Lower.state := by
  intro s _ t hrun
  cases hrun
  exact .refl s

theorem modify {change : LoweringState → LoweringState}
    (h : ∀ s : LoweringState, s.Idles (change s)) : Idle (Lower.modify change) := by
  intro s _ t hrun
  cases hrun
  exact h s

theorem remark (level : Log.Level) (phase : Phase) (message : Bytes) :
    Idle (Lower.remark level phase message) :=
  modify fun _ ↦ ⟨rfl, rfl, rfl⟩

theorem report (diagnostic : Diagnostic) : Idle (Lower.report diagnostic) :=
  (remark _ _ _).bind fun _ ↦ modify fun _ ↦ ⟨rfl, rfl, rfl⟩

theorem noteFact {change : ComponentFacts → ComponentFacts}
    (h : ∀ facts, (change facts).dependencies = facts.dependencies) :
    Idle (Lower.noteFact change) :=
  modify fun s ↦ ⟨rfl, rfl, by cases s.current <;> simp [h]⟩

theorem noteListener : Idle Lower.noteListener := noteFact fun _ ↦ rfl

theorem noteSignals : Idle Lower.noteSignals := noteFact fun _ ↦ rfl

theorem markUsed (name : Bytes) : Idle (Lower.markUsed name) := modify fun _ ↦ ⟨rfl, rfl, rfl⟩

theorem forM {items : List α} {f : α → Lower PUnit} (h : ∀ item ∈ items, Idle (f item)) :
    Idle (items.forM f) := by
  induction items with
  | nil => exact pure _
  | cons item items ih =>
    refine (h item List.mem_cons_self).bind fun _ ↦ ?_
    exact ih fun _ hmem ↦ h _ (List.mem_cons_of_mem _ hmem)

theorem optionForM {item : Option α} {f : α → Lower PUnit} (h : ∀ value ∈ item, Idle (f value)) :
    Idle (item.forM f) := by
  cases item with
  | none => exact pure _
  | some item => exact h item rfl

theorem mapM {items : List α} {f : α → Lower β} (h : ∀ item ∈ items, Idle (f item)) :
    Idle (items.mapM f) := by
  induction items with
  | nil => exact pure _
  | cons item items ih =>
    rw [List.mapM_cons]
    refine (h item List.mem_cons_self).bind fun _ ↦ ?_
    exact (ih fun _ hmem ↦ h _ (List.mem_cons_of_mem _ hmem)).bind fun _ ↦ pure _

end Idle

/-! ## Names -/

theorem declare_idle (keyword name : Bytes) (kind : SymbolKind) (type : Bytes)
    (line column : Nat) : Idle (declare keyword name kind type line column) := by
  refine .ite (.pure _) (Idle.state.bind fun s ↦ ?_)
  split
  · exact .modify fun _ ↦ ⟨rfl, rfl, rfl⟩
  · exact .ite (Idle.report _) (.pure _)

theorem declarePattern_idle (keyword : Bytes) (kind : SymbolKind) (type : Bytes)
    (pattern : Node) : Idle (declarePattern keyword kind type pattern) := by
  unfold declarePattern
  split
  · exact declare_idle _ _ _ _ _ _
  · exact .forM fun _ _ ↦ declare_idle _ _ _ _ _ _

theorem declareParams_idle (params : List (Param Node)) : Idle (declareParams params) :=
  .forM fun _ _ ↦ .optionForM fun _ _ ↦ declarePattern_idle _ _ _ _

theorem declareSignalPair_idle (keyword type : Bytes) (index : Nat) (elements : List Node) :
    Idle (declareSignalPair keyword type index elements) := by
  induction elements generalizing index with
  | nil => exact .pure _
  | cons element rest ih =>
    unfold declareSignalPair
    split
    · exact (declare_idle _ _ _ _ _ _).bind fun _ ↦ ih _
    · exact (declare_idle _ _ _ _ _ _).bind fun _ ↦ ih _
    · exact (declarePattern_idle _ _ _ _).bind fun _ ↦ ih _

theorem declareSignals_idle (keyword : Bytes) (declarator : Declarator Node) :
    Idle (declareSignals keyword declarator) := by
  unfold declareSignals
  split
  · refine Idle.state.bind fun s ↦ ?_
    split
    · exact (declareSignalPair_idle _ _ _ _).bind fun _ ↦ .pure _
    · exact (declare_idle _ _ _ _ _ _).bind fun _ ↦ .pure _
    · exact .pure _
  · exact .pure _

theorem resolve_idle (name : Bytes) : Idle (resolve name) := by
  refine Idle.state.bind fun s ↦ ?_
  split
  · refine (Idle.markUsed _).bind fun _ ↦ ?_
    split
    · exact .ite (Idle.noteSignals.bind fun _ ↦ .pure _) (.pure _)
    · exact .pure _
  · refine .ite ?_ (.pure _)
    refine Idle.bind (.modify fun _ ↦ ⟨rfl, rfl, rfl⟩) fun _ ↦ ?_
    exact Idle.noteSignals.bind fun _ ↦ .pure _

end Lower

open Lower

namespace Lowering

theorem importSpecifier_idle (l : Lowering) (clause : ImportClause) (line column : Nat)
    (spec : ImportSpecifier) : Idle (l.importSpecifier clause line column spec) := by
  refine (declare_idle _ _ _ _ _ _).bind fun _ ↦ .ite ?_ (.pure _)
  exact Idle.bind (.modify fun _ ↦ ⟨rfl, rfl, rfl⟩) fun _ ↦ .pure _

theorem importClause_idle (l : Lowering) (line column : Nat) (clause : ImportClause) :
    Idle (l.importClause line column clause) := by
  refine Idle.bind (.mapM fun spec _ ↦ l.importSpecifier_idle _ _ _ _) fun _ ↦ ?_
  exact (declare_idle _ _ _ _ _ _).bind fun _ ↦ (declare_idle _ _ _ _ _ _).bind fun _ ↦ .pure _

/-! ## Detection -/

theorem acceptDetected_idle (binding : Bytes) (node : Node) : Idle (acceptDetected binding node) :=
  .bind (.forM fun _ _ ↦ .report _) fun _ ↦ (Idle.remark _ _ _).bind fun _ ↦ .pure _

theorem noteCallbacks_idle (node : Node) : Idle (noteCallbacks node) :=
  .forM fun _ _ ↦ .ite (Idle.remark _ _ _) (.pure _)

end Lowering

end SignalView
