import SignalView.Proofs.Lowering.Facts.Markup
import SignalView.Proofs.Lowering.Items

/-!
# What components and statements note

A component keeps what is noted while it is lowered to itself, so that it knows its dependencies
when it goes on record. By that, everything that lowering builds has the right facts.
-/

namespace SignalView

open Lower Slot

/-- A component is done that has kept what was noted on the way. -/
theorem LoweringState.Notes.add_component {tally : Tally} {s first middle t : LoweringState}
    {c : Component View} (h : first.Notes tally middle) (hc : c.Settled)
    (hfirst : first.components = s.components) (hcurrent : t.current = s.current)
    (hcomponents : t.components = middle.components ++ [c]) (line column : Nat) :
    s.Notes (0, .rendered line column (.component c) ::ₘ tally.2) t where
  dependencies := by
    rw [hcurrent]
    cases s.current <;> simp
  components d hd := by
    rw [hcomponents, List.mem_append, List.mem_singleton] at hd
    obtain hd | rfl := hd
    · exact hfirst ▸ h.components d hd
    · exact .inr hc
  settled := by simpa using ⟨hc, h.settled⟩

namespace Lowering

variable {l : Lowering}

section Settled

variable (h : l.Settles)

include h

/-! ## Components -/

theorem componentParts_notes (c : Component Node) :
    Notes 0 (l.componentParts c) fun d ↦ Slot.tally d.slots := by
  refine .after (declareParams_idle _) fun _ ↦ (params_notes h _).bind fun ps ↦ ?_
  refine (Notes.optionMapM fun block _ ↦ block_notes h false block).bind fun block ↦ ?_
  refine .ite (.pure ?_) ((optionalExpression_notes h _).bind fun value ↦ .pure ?_)
  · simp [Component.slots]
  · simp [Component.slots, add_assoc]

/-- The signals that are noted for a component are sorted when it has been lowered. -/
theorem component_notes (c : Component Node) : Notes 0 (l.component c) View.tally := by
  intro s view t hrun
  obtain ⟨_, _, hregister, hrun⟩ := bind_eq_ok.mp hrun
  obtain ⟨-, rfl⟩ := register_eq_ok hregister
  obtain ⟨_, _, hcheck, hrun⟩ := bind_eq_ok.mp hrun
  obtain ⟨rfl, -⟩ := checkParams_eq_ok hcheck
  obtain ⟨⟨d, facts⟩, middle, hparts, hrun⟩ := bind_eq_ok.mp hrun
  obtain ⟨last, hscope, hfacts, rfl⟩ := collectingFacts_eq_ok.mp hparts
  obtain ⟨tally, hnotes, htally⟩ := (componentParts_notes h c).inScope .component hscope
  obtain rfl : (((parts d.slots).map View.ownNoted).sum, Slot.subviews d.slots) = tally := by
    rw [← Slot.tally_eq]
    exact htally.trans (zero_add tally)
  -- the component starts with nothing noted, so what it ends with is what its parts come to
  have hnames : (facts.dependencies : Multiset Bytes) =
      ((parts d.slots).map View.ownNoted).sum := by
    have hdependencies := hnotes.dependencies
    simp only at hfacts
    cases hlast : last.current with
    | none => simp [hlast] at hdependencies
    | some noted => simpa [hfacts, hlast] using hdependencies
  obtain ⟨noted, hdependencies, huses, rfl, hcomponents, hcurrent⟩ : ∃ noted : ComponentFacts,
      noted.dependencies = sortedDistinct facts.dependencies ∧
        (noted.dependencies ≠ [] → noted.usesSignals = true) ∧
        view = .rendered c.line c.column (.component { d with facts := noted }) ∧
        t.components = last.components ++ [{ d with facts := noted }] ∧
        t.current = s.current := by
    cases hrun
    refine ⟨_, rfl, fun hsome ↦ ?_, rfl, rfl, rfl⟩
    simpa using .inr hsome
  have hsettled : Component.Settled { d with facts := noted } :=
    ⟨⟨facts.dependencies, hnames, hdependencies⟩, huses⟩
  refine ⟨_, hnotes.add_component (s := s) hsettled rfl hcurrent hcomponents c.line c.column, ?_⟩
  rw [View.tally_component]
  exact (zero_add _).symm

theorem keywordComponent_notes (line column : Nat) (f : Callable Node) :
    Notes 0 (l.keywordComponent line column f) View.tally :=
  .after (declare_idle _ _ _ _ _ _) fun _ ↦ component_notes h _

theorem declaredComponent_notes (line column : Nat) (f : Callable Node) (detection : Detection) :
    Notes 0 (l.declaredComponent line column f detection) View.tally :=
  .after (declare_idle _ _ _ _ _ _) fun _ ↦ component_notes h _

theorem boundComponent_notes (binding : Bytes) (detection : Detection) (node : Node) :
    Notes 0 (l.boundComponent binding detection node) View.tally := by
  unfold boundComponent
  split
  · exact component_notes h _
  · exact component_notes h _
  · exact h.expression _

/-! ## Variables and functions -/

theorem componentDeclarator_notes (keyword : Bytes) (d : Declarator Node) :
    Notes 0 (l.componentDeclarator? keyword d) fun found ↦
      (found.toList.map fun lowered ↦ Slot.tally lowered.slots).sum := by
  unfold componentDeclarator?
  split
  · refine .ite (.pure rfl) (.after (acceptDetected_idle _ _) fun found ↦ ?_)
    cases found with
    | none => exact .pure rfl
    | some detection =>
      refine .after (declare_idle _ _ _ _ _ _) fun _ ↦ ?_
      refine (boundComponent_notes h _ _ _).bind fun value ↦ (h.expression _).bind fun target ↦ ?_
      exact .pure (by simp [Declarator.slots, add_comm])
  · exact .pure rfl

theorem plainDeclarator_notes (keyword : Bytes) (d : Declarator Node) :
    Notes 0 (l.plainDeclarator keyword d) fun lowered ↦ Slot.tally lowered.slots := by
  refine .after (declareSignals_idle _ _) fun _ ↦ .iteThen (declarePattern_idle _ _ _ _) ?_
  refine (h.expression _).bind fun _ ↦ (optionalExpression_notes h _).bind fun _ ↦ .pure ?_
  simp [Declarator.slots]

theorem declarator_notes (atModule : Bool) (keyword : Bytes) (d : Declarator Node) :
    Notes 0 (l.declarator atModule keyword d) fun lowered ↦ Slot.tally lowered.slots := by
  refine .ite ((componentDeclarator_notes h keyword d).bind fun found ↦ ?_)
    (plainDeclarator_notes h keyword d)
  cases found with
  | none => exact plainDeclarator_notes h keyword d
  | some lowered => exact .pure (by simp)

theorem variableDeclaration_notes (atModule : Bool) (keyword : Bytes)
    (declarators : List (Declarator Node)) (isDeclare : Bool) :
    Notes 0 (l.variableDeclaration atModule keyword declarators isDeclare) fun form ↦
      Slot.tally form.slots :=
  (Notes.mapM fun d _ ↦ declarator_notes h atModule keyword d).bind fun _ ↦
    .pure (by simp [Plain.slots])

theorem functionDeclaration_notes (atModule : Bool) (node : Node) (f : Callable Node)
    (isDeclare : Bool) :
    Notes 0 (l.functionDeclaration atModule node f isDeclare) View.tally := by
  have hplain : Notes 0 (l.plainFunction node.line node.column f isDeclare) View.tally :=
    .after (declare_idle _ _ _ _ _ _) fun _ ↦
      ((callable_notes h f).inScope .function).bind fun _ ↦ .plain (by simp [Plain.slots])
  refine .ite (.after (acceptDetected_idle _ _) fun found ↦ ?_) hplain
  cases found with
  | none => exact hplain
  | some detection => exact declaredComponent_notes h _ _ _ _

/-! ## Module items -/

theorem moduleItem_notes (node : Node) : Notes 0 (l.moduleItem node) View.tally := by
  fun_induction moduleItem l node with
  | case1 => exact .after (l.importClause_idle _ _ _) fun _ ↦ .plain rfl
  | case2 =>
    rename_i ih
    refine ih.bind fun _ ↦ .pureBind (.after (.forM fun _ _ ↦ .markUsed _) fun _ ↦ .plain ?_)
    simp [Plain.slots]
  | case3 => exact .pureBind (.after (.forM fun _ _ ↦ .markUsed _) fun _ ↦ .plain rfl)
  | case4 =>
    rename_i ih
    exact ih.bind fun _ ↦ .plain (by simp [Plain.slots, DefaultExport.slots])
  | case5 =>
    exact (h.expression _).bind fun _ ↦ .plain (by simp [Plain.slots, DefaultExport.slots])
  | case6 => exact functionDeclaration_notes h _ _ _ _
  | case7 => exact plainView_notes (variableDeclaration_notes h _ _ _ _) _ _
  | case8 => exact .after (noteCallbacks_idle _) fun _ ↦ h.statement _
  | case9 => exact h.statement _

/-! ## All statements -/

theorem switchCase_notes (c : SwitchCase Node) :
    Notes 0 (l.switchCase c) fun d ↦ Slot.tally d.slots := by
  refine (optionalExpression_notes h _).bind fun _ ↦ ?_
  exact (Notes.mapM fun node _ ↦ h.statement node).bind fun _ ↦ .pure (by simp [SwitchCase.slots])

theorem catchClause_notes (t : TryShape Node) (handler : Node) :
    Notes 0 (l.catchClause t handler) fun clause ↦
      (clause.1.toList.map View.tally).sum + clause.2.tally := by
  refine .inScope (.after (.optionForM fun _ _ ↦ declarePattern_idle _ _ _ _) fun _ ↦ ?_) _
  refine (optionalExpression_notes h _).bind fun _ ↦ (block_notes h _ _).bind fun _ ↦ .pure ?_
  simp

theorem tryShape_notes (t : TryShape Node) :
    Notes 0 (l.tryShape t) fun lowered ↦ Slot.tally lowered.slots := by
  refine (block_notes h _ _).bind fun block ↦ ?_
  refine (Notes.optionMapM fun handler _ ↦ catchClause_notes h t handler).bind fun clause ↦ ?_
  refine (Notes.optionMapM fun finalizer _ ↦ block_notes h true finalizer).bind fun finalizer ↦ ?_
  refine .pure ?_
  cases clause <;> simp [TryShape.slots, add_comm, add_left_comm]

theorem enumMember_notes (m : EnumMember Node) :
    Notes 0 (l.enumMember m) fun lowered ↦ (lowered.init.toList.map View.tally).sum :=
  (optionalExpression_notes h _).bind fun _ ↦ .pure (zero_add _).symm

theorem plainStatement_notes (node : Node) (form : Plain Node) :
    Notes 0 (l.plainStatement node form) fun lowered ↦ Slot.tally lowered.slots := by
  cases form with
  | jump | empty | debugger | exportAll => exact .pure rfl
  | interface | typeAlias => exact .after (declare_idle _ _ _ _ _ _) fun _ ↦ .pure rfl
  | expressionStatement | throw =>
    exact (h.expression _).bind fun _ ↦ .pure (by simp [Plain.slots])
  | returnValue argument =>
    exact (optionalExpression_notes h _).bind fun _ ↦ .pure (by simp [Plain.slots])
  | labeled label body => exact (h.statement _).bind fun _ ↦ .pure (by simp [Plain.slots])
  | variableDeclaration keyword declarators isDeclare =>
    exact variableDeclaration_notes h _ _ _ _
  | ifElse test consequent alternate =>
    refine (h.expression _).bind fun _ ↦ (h.statement _).bind fun _ ↦ ?_
    refine (Notes.optionMapM fun node _ ↦ h.statement node).bind fun _ ↦ .pure ?_
    simp [Plain.slots, add_assoc]
  | switch discriminant cases =>
    refine (h.expression _).bind fun _ ↦ ?_
    refine (Notes.inScope (.mapM fun c _ ↦ switchCase_notes h c) _).bind fun _ ↦ .pure ?_
    simp [Plain.slots]
  | forLoop init test update body =>
    refine .inScope ((Notes.optionMapM fun node _ ↦ h.statement node).bind fun _ ↦ ?_) _
    refine (optionalExpression_notes h _).bind fun _ ↦ ?_
    refine (optionalExpression_notes h _).bind fun _ ↦ (h.statement _).bind fun _ ↦ .pure ?_
    simp [Plain.slots, add_assoc]
  | forIn left right body isOf isAwait =>
    -- what is iterated over is lowered first
    refine (h.expression right).bind fun _ ↦ .inScope ?_ _
    refine (h.statement left).bind fun _ ↦ (h.statement body).bind fun _ ↦ .pure ?_
    simp [Plain.slots, add_assoc, add_left_comm]
  | whileLoop test body =>
    exact (h.expression _).bind fun _ ↦ (h.statement _).bind fun _ ↦ .pure (by simp [Plain.slots])
  | doWhile body test =>
    exact (h.statement _).bind fun _ ↦ (h.expression _).bind fun _ ↦ .pure (by simp [Plain.slots])
  | tryCatch t => exact (tryShape_notes h t).bind fun _ ↦ .pure (by simp [Plain.slots])
  | classDeclaration c =>
    refine .after (declare_idle _ _ _ _ _ _) fun _ ↦ (classShape_notes h c).bind fun _ ↦ ?_
    exact .pure (by simp [Plain.slots])
  | enum name members isConst isDeclare =>
    refine .after (declare_idle _ _ _ _ _ _) fun _ ↦ ?_
    exact (Notes.mapM fun m _ ↦ enumMember_notes h m).bind fun _ ↦ .pure (by simp [Plain.slots])
  | module keyword name body isDeclare =>
    refine .inScope ((Notes.optionMapM (v := fun views ↦ (views.map View.tally).sum)
      fun items _ ↦ .mapM fun node _ ↦ h.statement node).bind fun lowered ↦ .pure ?_) _
    cases lowered <;> simp [Plain.slots]
  | _ => exact .failAt _ _ _ _

theorem statementStep_notes (node : Node) : Notes 0 (l.statementStep node) View.tally := by
  unfold statementStep
  split
  · exact block_notes h _ _
  · exact functionDeclaration_notes h _ _ _ _
  · exact moduleItem_notes h _
  · exact moduleItem_notes h _
  · exact moduleItem_notes h _
  · exact plainView_notes (plainStatement_notes h _ _) _ _
  · exact keywordComponent_notes h _ _ _
  · exact .failAt _ _ _ _

end Settled

end Lowering

/-! ## Programs -/

open Lowering in
theorem lowering_settles (runtimeModule : Bytes) (limit : Int) (level : Nat) :
    (lowering runtimeModule limit level).Settles := by
  induction level with
  | zero => exact ⟨fun _ ↦ .fail _, fun _ ↦ .fail _, fun _ ↦ .fail _, fun hrun ↦ by cases hrun⟩
  | succ level ih =>
    exact {
      statement := statementStep_notes ih
      expression := expressionStep_notes ih
      element := elementStep_notes ih
      markup := expressionStep_markup ih }

namespace ViewProgram

variable {options : Options} {root : Node} {program : ViewProgram} {state : LoweringState}

/-- What is computed about the views of a program that has been lowered is right, and so is what is
computed about the components on record. -/
theorem ofNode_settled (hrun : ofNode options root = (.ok program, state)) :
    (∀ c ∈ program.components, c.Settled) ∧ ∀ view ∈ program.subviews, view.Settled := by
  obtain ⟨body, middle, hbody, hrun⟩ := bind_eq_ok.mp hrun
  cases hrun
  obtain ⟨tally, hnotes, htally⟩ := Notes.mapM (fun item _ ↦
    Lowering.moduleItem_notes (lowering_settles _ _ _) item) hbody
  obtain rfl : ((body.map View.ownNoted).sum, (body.map View.subviews).sum) = tally := by
    rw [← View.sum_tally]
    exact htally.trans (zero_add tally)
  exact ⟨fun c hc ↦ by simpa using hnotes.components c hc, hnotes.settled⟩

end ViewProgram

end SignalView
