import SignalView.Proofs.Binding.Expressions
import SignalView.Proofs.Lowering.Items

/-!
# The events of markup and statements

Attributes are lowered in the order of the source and sorted afterwards, and so it is with a
component and the name that it is bound to. So it is told which names are written, and how often,
but not in which order.
-/

namespace SignalView

open Lower Slot

namespace Lowering

/-- The attributes have the names that they have when they have been sorted by what they are. -/
theorem names_attributeParts (parts : List AttributePart) :
    (parts.map fun part ↦ Slot.names part.slots).sum =
      ((parts.filterMap (·.attr?)).map fun a ↦ Slot.names a.slots).sum +
        (((parts.filterMap (·.listener?)).map (·.handler)).map View.names).sum +
        (((parts.filterMap (·.binding?)).map (·.expression)).map View.names).sum := by
  induction parts with
  | nil => rfl
  | cons part parts ih =>
    rw [List.map_cons, List.sum_cons, ih]
    cases part <;>
      simp [AttributePart.slots, AttributePart.attr?, AttributePart.listener?,
        AttributePart.binding?, add_assoc, add_left_comm]

section Traced

variable {l : Lowering} {t : Tracing} (h : l.Traces t)

include h

/-! ## Markup -/

theorem attributeValue_follows (node : Node) :
    Follows 0 (t.attributeValue node) (l.attributeValue node) View.names := by
  cases node with
  | plain range form => exact h.expression _
  | surface range form =>
    cases form with
    | container inner =>
      cases inner with
      | some inner => exact h.expression inner
      | none => exact h.expression _
    | _ => exact h.expression _

theorem spreadAttribute_follows (value : Option Node) :
    Follows 0 (t.optional value) (l.spreadAttribute value) fun a ↦ Slot.names a.slots :=
  (optionalExpression_follows h value).bindLast fun _ ↦ .pure (by simp [ViewAttribute.slots])

theorem elementAttribute_follows (name : Bytes) (value : Option Node) (c : Classification) :
    Follows 0 (value.toList.flatMap t.attributeValue) (l.elementAttribute name value c) fun part ↦
      Slot.names part.slots := by
  cases value with
  | none => exact .pure rfl
  | some value =>
    rw [Option.toList_some, List.flatMap_singleton]
    refine .ite (fun _ ↦ ?_) fun _ ↦ .ite (fun _ ↦ ?_) fun _ ↦ ?_
    · refine (attributeValue_follows h value).bindLast fun _ ↦ .skip (Quiet.noteFact _) fun _ ↦ ?_
      exact .pure (by simp [AttributePart.slots])
    · refine .skip (Quiet.noteFact _) fun _ ↦ (attributeValue_follows h value).bindLast fun _ ↦ ?_
      exact .pure (by simp [AttributePart.slots])
    · refine (attributeValue_follows h value).bindLast fun _ ↦ .pure ?_
      simp [AttributePart.slots, ViewAttribute.slots]

theorem elementAttributes_follows (tag : Bytes) (seen : List Bytes) (nodes : List Node) :
    Follows 0 (nodes.flatMap t.markupAttribute) (l.elementAttributes tag seen nodes) fun parts ↦
      (parts.map fun part ↦ Slot.names part.slots).sum := by
  induction nodes generalizing seen with
  | nil => exact .pure rfl
  | cons node rest ih =>
    rw [List.flatMap_cons]
    cases node with
    | plain => exact ih _
    | surface range form =>
      cases form with
      | attr name value isSpread =>
        rw [Tracing.markupAttribute_attr]
        refine .ite (fun hspread ↦ ?_) fun hspread ↦ ?_
        · rw [if_pos hspread]
          refine (spreadAttribute_follows h _).bind fun _ ↦ (ih _).bindLast fun _ ↦ .pure ?_
          simp [AttributePart.slots]
        · rw [if_neg hspread]
          refine .iteThen (.failAt _ _ _ _) (.skip Quiet.state fun _ ↦ ?_)
          refine (elementAttribute_follows h _ _ _).bind fun _ ↦ (ih _).bindLast fun _ ↦ .pure ?_
          simp
      | _ => exact ih _

theorem callProp_follows (name : Bytes) (value : Option Node) :
    Follows 0 (value.toList.flatMap t.attributeValue) (l.callProp name value) fun a ↦
      Slot.names a.slots := by
  refine .skip Quiet.state fun _ ↦ .iteThen (Quiet.noteFact _) ?_
  refine (Follows.optionMapM fun part _ ↦ attributeValue_follows h part).bindLast fun view ↦ ?_
  exact .pure (by simp [ViewAttribute.slots])

theorem callProps_follows (nodes : List Node) :
    Follows 0 (nodes.flatMap t.markupAttribute) (l.callProps nodes) fun props ↦
      (props.map fun a ↦ Slot.names a.slots).sum := by
  induction nodes with
  | nil => exact .pure rfl
  | cons node rest ih =>
    rw [List.flatMap_cons]
    cases node with
    | plain => exact ih
    | surface range form =>
      cases form with
      | attr name value isSpread =>
        rw [Tracing.markupAttribute_attr]
        refine .ite (fun hspread ↦ ?_) fun hspread ↦ ?_
        · rw [if_pos hspread]
          exact (spreadAttribute_follows h _).bind fun _ ↦ ih.bindLast fun _ ↦ .pure (by simp)
        · rw [if_neg hspread]
          exact (callProp_follows h _ _).bind fun _ ↦ ih.bindLast fun _ ↦ .pure (by simp)
      | _ => exact ih

theorem markupChild_follows (node : Node) :
    Follows 0 (t.markupChild node) (l.markupChild node) fun view ↦
      (view.toList.map View.names).sum := by
  have hexpression (node : Node) : Follows 0 (t.expression node)
      (do return some (← l.expression node)) fun view ↦ (view.toList.map View.names).sum :=
    (h.expression node).bindLast fun _ ↦ .pure (by simp)
  cases node with
  | plain => exact hexpression _
  | surface range form =>
    cases form with
    | text raw value =>
      exact .pure (by simp [Rendered.slots, Slot.names])
    | container inner =>
      cases inner with
      | none => exact .pure rfl
      | some inner =>
        refine .skip Quiet.state fun _ ↦ .skip (Quiet.noteFact _) fun _ ↦ ?_
        refine .of_eq ((h.expression inner).bindLast fun view ↦ .pure ?_) (List.append_nil _)
        simp [Rendered.slots]
    | _ => exact hexpression _

theorem markupChildren_follows (nodes : List Node) :
    Follows 0 (nodes.flatMap t.markupChild) (l.markupChildren nodes) fun views ↦
      (views.map View.names).sum := by
  refine (Follows.mapM fun node _ ↦ markupChild_follows h node).bindLast fun views ↦ .pure ?_
  rw [zero_add]
  induction views with
  | nil => rfl
  | cons view views ih => cases view <;> simpa using ih

theorem componentCall_follows (line column : Nat) (tag : Bytes) (attributes children : List Node) :
    Follows 0 (attributes.flatMap t.markupAttribute ++ children.flatMap t.markupChild)
      (l.componentCall tag attributes children) fun form ↦
        (View.rendered line column form).names := by
  refine .skip (Quiet.markUsed _) fun _ ↦ (callProps_follows h attributes).bind fun _ ↦ ?_
  refine (markupChildren_follows h children).bindLast fun _ ↦ .pure ?_
  simp [Rendered.slots]

theorem plainElement_follows (line column : Nat) (tag : Bytes) (attributes children : List Node) :
    Follows 0 (attributes.flatMap t.markupAttribute ++ children.flatMap t.markupChild)
      (l.plainElement tag attributes children) fun form ↦
        (View.rendered line column form).names := by
  refine (elementAttributes_follows h tag [] attributes).bind fun parts ↦ ?_
  refine (markupChildren_follows h children).bindLast fun _ ↦ .pure ?_
  simp [Rendered.slots,
    ElementShape.slots, names_attributeParts, add_assoc]

theorem elementStep_follows (node : Node) :
    Follows 0 (t.elementStep node) (l.elementStep node) View.names := by
  have hmarkup : Quiet [] (Lower.modify fun s ↦ { s with hasMarkup := true }) :=
    .modify fun _ ↦ rfl
  unfold elementStep
  split
  · next range tag attributes children selfClosing =>
    refine .iteThen (.failAt _ _ _ _) (.skip hmarkup fun _ ↦ ?_)
    split
    · refine (componentCall_follows h range.start.line range.start.column _ _ _).bindLast fun _ ↦ ?_
      exact .pure (zero_add _).symm
    · refine (plainElement_follows h range.start.line range.start.column _ _ _).bindLast fun _ ↦ ?_
      exact .pure (zero_add _).symm
  · refine .skip hmarkup fun _ ↦ (markupChildren_follows h _).bindLast fun views ↦ .pure ?_
    simp [Rendered.slots]
  · exact .failAt _ _ _ _

/-! ## Components -/

omit h in
theorem acceptDetected_eq_ok {binding : Bytes} {node : Node} {s s' : LoweringState}
    {found : Option Detection} (hrun : acceptDetected binding node s = (.ok found, s')) :
    s'.scoping = s.scoping ∧ found = Tracing.detected? binding node := by
  obtain ⟨_, middle, hreport, hrun⟩ := bind_eq_ok.mp hrun
  cases hrun
  exact ⟨(Quiet.forM_nil (fun _ _ ↦ Quiet.report _) hreport).1, rfl⟩

omit h in
theorem checkParams_quiet (name : Bytes) (line column : Nat) (seen : List Bytes)
    (params : List (Param Node)) : Quiet [] (checkParams name line column seen params) := by
  intro s _ s' hrun
  obtain ⟨rfl, -⟩ := checkParams_eq_ok hrun
  exact ⟨rfl, rfl⟩

omit h in
theorem register_quiet (c : Component Node) : Quiet [] (register c) := by
  intro s _ s' hrun
  obtain ⟨-, rfl⟩ := register_eq_ok hrun
  exact ⟨rfl, rfl⟩

theorem componentParts_follows (c : Component Node) :
    Follows 0 (t.componentParts c) (l.componentParts c) fun d ↦ Slot.names d.slots := by
  refine declaredParams_follows h _ fun ps ↦ ?_
  refine (Follows.optionMapM fun block _ ↦ block_follows h false block).bindRun ?_
  intro s block s' hrun
  have hsome : block.isSome = c.block.isSome := by
    cases hblock : c.block with
    | none =>
      rw [hblock] at hrun
      cases hrun
      rfl
    | some body =>
      rw [hblock] at hrun
      obtain ⟨_, _, -, ⟨⟩⟩ := bind_eq_ok.mp hrun
      rfl
  rw [hsome]
  by_cases hblock : c.block.isSome = true
  · rw [if_pos hblock, if_pos hblock]
    exact .pure (by simp [Component.slots])
  · rw [if_neg hblock, if_neg hblock]
    refine (optionalExpression_follows h _).bindLast fun value ↦ .pure ?_
    simp [Component.slots, add_assoc]

theorem component_follows (c : Component Node) :
    Follows 0 (Tracing.inScope (t.componentParts c)) (l.component c) View.names := by
  refine .skip (register_quiet c) fun _ ↦ .skip (checkParams_quiet _ _ _ _ _) fun _ ↦ ?_
  refine (Quiet.collectingFacts ((componentParts_follows h c).inScope .component)).bindLast ?_
  rintro ⟨d, facts⟩
  refine .skip (Quiet.modify fun _ ↦ rfl) fun _ ↦ .skip (Quiet.remark _ _ _) fun _ ↦ .pure ?_
  rw [View.names_eq, zero_add]
  exact zero_add _

/-- A function that is a component has the events of a function. -/
theorem function_follows (f : Callable Node) (keyword : Bytes) {kind : SymbolKind}
    (hkind : kind ≠ .import_) (type : Bytes) (line column : Nat) {c : Component Node}
    (hparams : c.params = f.params) (hblock : c.block = f.body) (hvalue : c.value = none) :
    Follows 0 (t.function f) (do declare keyword f.name kind type line column; l.component c)
      View.names := by
  have hparts : t.callable f = t.componentParts c := by
    simp [Tracing.callable, Tracing.componentParts, Tracing.optional, Tracing.expressions, hparams,
      hblock, hvalue]
  rw [Tracing.function, hparts]
  exact .after (declare_follows _ _ hkind _ _ _ _) fun _ ↦ component_follows h c

theorem boundComponent_follows (binding : Bytes) (detection : Detection) (node : Node) :
    Follows 0 (t.boundComponent node) (l.boundComponent binding detection node) View.names := by
  cases node with
  | surface => exact h.expression _
  | plain range form =>
    cases form with
    | arrow f =>
      refine (component_follows h _).of_eq ?_
      obtain ⟨_, _, _, body | value, _⟩ := f <;>
        simp [Tracing.boundComponent, Tracing.arrow, Tracing.arrowBody, Tracing.componentParts,
          Tracing.optional, Tracing.expressions]
    | function f =>
      refine (component_follows h _).of_eq ?_
      simp [Tracing.boundComponent, Tracing.callable, Tracing.componentParts, Tracing.optional,
        Tracing.expressions]
    | _ => exact h.expression _

/-! ## Variables and functions -/

theorem plainDeclarator_follows (keyword : Bytes) (d : Declarator Node) :
    Follows 0 (Tracing.declares d.target.boundNames ++
      (t.expression d.target ++ t.optional d.init)) (l.plainDeclarator keyword d) fun lowered ↦
        Slot.names lowered.slots := by
  refine (declareSignals_follows keyword d).orElse (declarePattern_follows _ ?_ _ _) ?_
  · split <;> decide
  · refine (h.expression _).bind fun _ ↦ (optionalExpression_follows h _).bindLast fun _ ↦ .pure ?_
    simp [Declarator.slots]

/-- The name is declared in front of the function that it is bound to. -/
theorem boundDeclarator_follows (keyword : Bytes) (d : Declarator Node) {name : Bytes}
    (hname : d.target.name? = some name) (init : Node) (detection : Detection) :
    Follows 0 (Tracing.declares d.target.boundNames ++
        (t.boundComponent init ++ t.expression d.target))
      (do
        declare keyword name .component [] d.target.line d.target.column
        let value ← l.boundComponent name detection init
        let target ← l.expression d.target
        return some ({ target, type := d.type, init := some value, definite := d.definite } :
          Declarator View))
      fun found ↦ (found.toList.map fun lowered ↦ Slot.names lowered.slots).sum := by
  rw [Node.boundNames_of_name? hname]
  refine .after (declare_follows _ _ (by decide) _ _ _ _) fun _ ↦ ?_
  refine (boundComponent_follows h _ _ _).bind fun value ↦ ?_
  exact (h.expression _).bindLast fun target ↦ .pure (by simp [Declarator.slots, add_comm])

/-- A declarator is taken for a component when detection says so, and otherwise left alone. -/
theorem componentDeclarator_eq_ok {keyword : Bytes} {d : Declarator Node} {s s' : LoweringState}
    {found : Option (Declarator View)}
    (hrun : l.componentDeclarator? keyword d s = (.ok found, s')) :
    (Tracing.boundComponent? d = none ∧ found = none ∧ s'.scoping = s.scoping) ∨
      ∃ init lowered, Tracing.boundComponent? d = some init ∧ found = some lowered ∧
        s'.scoping = s.scoping.run
          (Tracing.declares d.target.boundNames ++
            (t.boundComponent init ++ t.expression d.target)) ∧
        Slot.names lowered.slots = s.scoping.output
          (Tracing.declares d.target.boundNames ++
            (t.boundComponent init ++ t.expression d.target)) := by
  unfold componentDeclarator? at hrun
  unfold Tracing.boundComponent?
  cases hname : d.target.name? with
  | none =>
    rw [hname] at hrun
    cases hrun
    exact .inl ⟨rfl, rfl, rfl⟩
  | some name =>
    cases hinit : d.init with
    | none =>
      rw [hname, hinit] at hrun
      cases hrun
      exact .inl ⟨rfl, rfl, rfl⟩
    | some init =>
      simp only [hname, hinit] at hrun ⊢
      change (if (!Tracing.isFunction init) = true then _ else _ : Lower _) s = _ at hrun
      cases hfunction : Tracing.isFunction init with
      | false =>
        rw [hfunction] at hrun
        cases hrun
        exact .inl ⟨rfl, rfl, rfl⟩
      | true =>
        rw [hfunction] at hrun
        obtain ⟨accepted, middle, hdetect, hrun⟩ := bind_eq_ok.mp hrun
        obtain ⟨hmiddle, rfl⟩ := acceptDetected_eq_ok hdetect
        rw [Bool.true_and]
        cases hdetected : Tracing.detected? name init with
        | none =>
          rw [hdetected] at hrun
          cases hrun
          exact .inl ⟨rfl, rfl, hmiddle⟩
        | some detection =>
          simp only [hdetected] at hrun
          obtain ⟨hscoping, hnames⟩ := boundDeclarator_follows h keyword d hname init detection hrun
          obtain ⟨_, _, -, hrun⟩ := bind_eq_ok.mp hrun
          obtain ⟨_, _, -, hrun⟩ := bind_eq_ok.mp hrun
          obtain ⟨_, _, -, ⟨⟩⟩ := bind_eq_ok.mp hrun
          rw [hmiddle] at hscoping hnames
          exact .inr ⟨init, _, rfl, rfl, hscoping, by simpa using hnames⟩

theorem declarator_follows (atModule : Bool) (keyword : Bytes) (d : Declarator Node) :
    Follows 0 (t.declarator atModule d) (l.declarator atModule keyword d) fun lowered ↦
      Slot.names lowered.slots := by
  have hplain := plainDeclarator_follows h keyword d
  unfold declarator Tracing.declarator
  cases atModule with
  | false => exact hplain
  | true =>
    intro s lowered s' hrun
    obtain ⟨found, middle, hfound, hrun⟩ := bind_eq_ok.mp hrun
    obtain ⟨hbound, rfl, hmiddle⟩ | ⟨init, _, hbound, rfl, hmiddle, hnames⟩ :=
      componentDeclarator_eq_ok h hfound
    · rw [if_pos rfl, hbound, ← hmiddle]
      exact hplain hrun
    · rw [if_pos rfl, hbound, zero_add]
      cases hrun
      exact ⟨hmiddle, hnames⟩

theorem variableDeclaration_follows (atModule : Bool) (keyword : Bytes)
    (declarators : List (Declarator Node)) (isDeclare : Bool) (line column : Nat) :
    Follows 0 (declarators.flatMap (t.declarator atModule))
      (l.variableDeclaration atModule keyword declarators isDeclare) (Plain.names line column) := by
  refine (Follows.mapM fun d _ ↦ declarator_follows h atModule keyword d).bindLast fun _ ↦ .pure ?_
  simp [Plain.names, Plain.ownNames, Plain.slots]

theorem functionDeclaration_follows (atModule : Bool) (node : Node) (f : Callable Node)
    (isDeclare : Bool) :
    Follows 0 (t.function f) (l.functionDeclaration atModule node f isDeclare) View.names := by
  have hplain : Follows 0 (t.function f) (l.plainFunction node.line node.column f isDeclare)
      View.names := by
    refine .after (declare_follows _ _ (by decide) _ _ _ _) fun _ ↦ ?_
    refine ((callable_follows h f).inScope .function).bindLast fun g ↦ .pure ?_
    simp [Plain.names, Plain.ownNames, Plain.slots]
  refine .ite (fun _ ↦ .skip ?_ fun found ↦ ?_) fun _ ↦ hplain
  · intro s _ s' hrun
    exact ⟨(acceptDetected_eq_ok hrun).1, rfl⟩
  · cases found with
    | none => exact hplain
    | some detection => exact function_follows h f _ (by decide) _ _ _ rfl rfl rfl

/-! ## Module items -/

omit h in
/-- A specifier that imports a primitive of the runtime is written in its canonical form. -/
theorem importSpecifier_eq_ok {clause : ImportClause} {spec lowered : ImportSpecifier}
    {line column : Nat} {s s' : LoweringState}
    (hrun : l.importSpecifier clause line column spec s = (.ok lowered, s')) :
    s'.scoping = s.scoping.importSpecifier clause (clause.source == l.runtimeModule) spec ∧
      lowered =
        if clause.isPrimitive (clause.source == l.runtimeModule) spec then spec.canonical
        else spec := by
  have hkind : ((if clause.isType spec then SymbolKind.type else .import_) == .import_) =
      !clause.isType spec := by
    cases clause.isType spec <;> rfl
  obtain ⟨_, middle, hdeclare, hrun⟩ := bind_eq_ok.mp hrun
  have hmiddle : middle.scoping = s.scoping.declare spec.localName (!clause.isType spec) :=
    (declare_eq_ok hdeclare).trans (congrArg (s.scoping.declare spec.localName) hkind)
  change (if clause.isPrimitive (clause.source == l.runtimeModule) spec = true then _ else _ :
    Lower _) middle = _ at hrun
  unfold Scoping.importSpecifier
  by_cases hprimitive : clause.isPrimitive (clause.source == l.runtimeModule) spec = true
  · rw [if_pos hprimitive] at hrun
    cases hrun
    rw [if_pos hprimitive, if_pos hprimitive, ← hmiddle]
    exact ⟨rfl, rfl⟩
  · rw [if_neg hprimitive] at hrun
    cases hrun
    rw [if_neg hprimitive, if_neg hprimitive]
    exact ⟨hmiddle, rfl⟩

omit h in
theorem importSpecifiers_eq_ok {clause : ImportClause} {specs lowered : List ImportSpecifier}
    {line column : Nat} {s s' : LoweringState}
    (hrun : specs.mapM (l.importSpecifier clause line column) s = (.ok lowered, s')) :
    s'.scoping =
        specs.foldl (·.importSpecifier clause (clause.source == l.runtimeModule) ·) s.scoping ∧
      lowered = specs.map fun spec ↦
        if clause.isPrimitive (clause.source == l.runtimeModule) spec then spec.canonical
        else spec := by
  induction specs generalizing s lowered with
  | nil =>
    cases hrun
    exact ⟨rfl, rfl⟩
  | cons spec specs ih =>
    rw [List.mapM_cons] at hrun
    obtain ⟨_, _, hfirst, hrun⟩ := bind_eq_ok.mp hrun
    obtain ⟨_, _, hrest, ⟨⟩⟩ := bind_eq_ok.mp hrun
    obtain ⟨hmiddle, rfl⟩ := importSpecifier_eq_ok hfirst
    obtain ⟨hlast, rfl⟩ := ih hrest
    exact ⟨by rw [hlast, hmiddle, List.foldl_cons], rfl⟩

omit h in
theorem importClause_follows (line column : Nat) (clause : ImportClause) :
    Follows 0 [.imports line column clause (clause.source == l.runtimeModule)]
      (l.importClause line column clause) fun lowered ↦ {.imports line column lowered} := by
  intro s view s' hrun
  obtain ⟨_, _, hspecs, hrun⟩ := bind_eq_ok.mp hrun
  obtain ⟨_, _, hdefault, hrun⟩ := bind_eq_ok.mp hrun
  obtain ⟨_, _, hnamespace, ⟨⟩⟩ := bind_eq_ok.mp hrun
  obtain ⟨hmiddle, rfl⟩ := importSpecifiers_eq_ok hspecs
  refine ⟨?_, rfl⟩
  rw [declare_eq_ok hnamespace, declare_eq_ok hdefault, hmiddle]
  rfl

theorem moduleItem_follows (node : Node) :
    Follows 0 (t.moduleItem node) (l.moduleItem node) View.names := by
  fun_induction moduleItem l node with
  | case1 range clause =>
    refine ((importClause_follows _ _ clause).bindLast fun lowered ↦ .pure ?_).of_eq ?_
    · exact View.names_eq _
    · rw [← h.runtimeModule]
      rfl
  | case2 =>
    rename_i ih
    refine ih.bind fun _ ↦ .pureBind ?_
    refine .keeping (.skip (Quiet.forM_nil fun _ _ ↦ .markUsed _) fun _ ↦ .pure ?_)
    simp [Plain.names, Plain.ownNames, Plain.slots, add_comm]
  | case3 =>
    refine .pureBind (.keeping (.skip (Quiet.forM_nil fun _ _ ↦ .markUsed _) fun _ ↦ .pure ?_))
    simp [Plain.names, Plain.ownNames, Plain.slots]
  | case4 =>
    rename_i ih
    refine ih.bindLast fun _ ↦ .pure ?_
    simp [Plain.names, Plain.ownNames, Plain.slots, DefaultExport.slots]
  | case5 =>
    refine (h.expression _).bindLast fun _ ↦ .pure ?_
    simp [Plain.names, Plain.ownNames, Plain.slots, DefaultExport.slots]
  | case6 => exact functionDeclaration_follows h _ _ _ _
  | case7 =>
    refine plainView_follows (variableDeclaration_follows h _ _ _ _ _ _)
  | case8 =>
    refine .skip (Quiet.forM_nil fun _ _ ↦ ?_) fun _ ↦ h.statement _
    exact .ite (fun _ ↦ Quiet.remark _ _ _) fun _ ↦ .pure rfl
  | case9 node =>
    rename_i himports hexport hdefault hfunction hvariable _
    refine (h.statement node).of_eq ?_
    unfold Tracing.moduleItem
    split
    · exact (himports _ _ rfl).elim
    · exact (hexport _ _ _ _ _ rfl).elim
    · exact (hdefault _ _ rfl).elim
    · exact (hfunction _ _ _ rfl).elim
    · exact (hvariable _ _ _ _ rfl).elim
    · rfl

/-! ## All statements -/

theorem switchCase_follows (c : SwitchCase Node) :
    Follows 0 (t.switchCase c) (l.switchCase c) fun d ↦ Slot.names d.slots := by
  refine (optionalExpression_follows h _).bind fun _ ↦ ?_
  refine (Follows.mapM fun node _ ↦ h.statement node).bindLast fun _ ↦ .pure ?_
  simp [SwitchCase.slots]

theorem catchClause_follows (shape : TryShape Node) (handler : Node) :
    Follows 0 (t.catchClause shape.param handler) (l.catchClause shape handler) fun clause ↦
      (clause.1.toList.map View.names).sum + clause.2.names := by
  refine .inScope (.after ((Quiet.optionForM fun pattern _ ↦
    declarePattern_follows _ (by decide) _ pattern).of_eq ?_) fun _ ↦ ?_) _
  · simp [Tracing.declares, List.map_flatMap]
  · refine (optionalExpression_follows h _).bind fun _ ↦ (block_follows h _ _).bindLast fun _ ↦ ?_
    exact .pure (by simp)

theorem tryShape_follows (shape : TryShape Node) :
    Follows 0 (t.tryShape shape) (l.tryShape shape) fun lowered ↦ Slot.names lowered.slots := by
  refine (block_follows h _ _).bind fun block ↦ ?_
  refine (Follows.optionMapM fun handler _ ↦ catchClause_follows h shape handler).bind
    fun clause ↦ ?_
  refine (Follows.optionMapM fun finalizer _ ↦ block_follows h true finalizer).bindLast
    fun finalizer ↦ .pure ?_
  cases clause <;> simp [TryShape.slots, add_comm, add_left_comm]

theorem enumMember_follows (m : EnumMember Node) :
    Follows 0 (t.optional m.init) (l.enumMember m) fun lowered ↦
      (lowered.init.toList.map View.names).sum :=
  (optionalExpression_follows h _).bindLast fun _ ↦ .pure (zero_add _).symm

theorem plainStatement_follows (node : Node) (form : Plain Node) (line column : Nat) :
    Follows 0 (t.plainStatement form) (l.plainStatement node form) (Plain.names line column) := by
  cases form with
  | jump | empty | debugger | exportAll => exact .pure rfl
  | interface | typeAlias =>
    exact (declare_follows _ _ (by decide) _ _ _ _).bindLast fun _ ↦ .pure rfl
  | expressionStatement | throw =>
    refine (h.expression _).bindLast fun _ ↦ .pure ?_
    simp [Plain.names, Plain.ownNames, Plain.slots]
  | returnValue argument =>
    refine (optionalExpression_follows h _).bindLast fun _ ↦ .pure ?_
    simp [Plain.names, Plain.ownNames, Plain.slots]
  | labeled label body =>
    refine (h.statement _).bindLast fun _ ↦ .pure ?_
    simp [Plain.names, Plain.ownNames, Plain.slots]
  | variableDeclaration keyword declarators isDeclare =>
    exact variableDeclaration_follows h _ _ _ _ _ _
  | ifElse test consequent alternate =>
    refine (h.expression _).bind fun _ ↦ (h.statement _).bind fun _ ↦ ?_
    refine (Follows.optionMapM fun node _ ↦ h.statement node).bindLast fun _ ↦ .pure ?_
    simp [Plain.names, Plain.ownNames, Plain.slots, add_assoc]
  | switch discriminant cases =>
    refine (h.expression _).bind fun _ ↦ ?_
    refine (Follows.inScope (.mapM fun c _ ↦ switchCase_follows h c) _).bindLast fun _ ↦ .pure ?_
    simp [Plain.names, Plain.ownNames, Plain.slots]
  | forLoop init test update body =>
    refine .inScope ((Follows.optionMapM fun node _ ↦ h.statement node).bind fun _ ↦ ?_) _
    refine (optionalExpression_follows h _).bind fun _ ↦ ?_
    refine (optionalExpression_follows h _).bind fun _ ↦ (h.statement _).bindLast fun _ ↦ .pure ?_
    simp [Plain.names, Plain.ownNames, Plain.slots, add_assoc]
  | forIn left right body isOf isAwait =>
    -- what is iterated over is lowered first
    refine (h.expression right).bind fun _ ↦ .inScope ?_ _
    refine (h.statement left).bind fun _ ↦ (h.statement body).bindLast fun _ ↦ .pure ?_
    simp [Plain.names, Plain.ownNames, Plain.slots, add_assoc, add_left_comm]
  | whileLoop test body =>
    refine (h.expression _).bind fun _ ↦ (h.statement _).bindLast fun _ ↦ .pure ?_
    simp [Plain.names, Plain.ownNames, Plain.slots]
  | doWhile body test =>
    refine (h.statement _).bind fun _ ↦ (h.expression _).bindLast fun _ ↦ .pure ?_
    simp [Plain.names, Plain.ownNames, Plain.slots]
  | tryCatch shape =>
    refine (tryShape_follows h shape).bindLast fun _ ↦ .pure ?_
    simp [Plain.names, Plain.ownNames, Plain.slots]
  | classDeclaration c =>
    refine .after (declare_follows _ _ (by decide) _ _ _ _) fun _ ↦ ?_
    refine (classShape_follows h c).bindLast fun _ ↦ .pure ?_
    simp [Plain.names, Plain.ownNames, Plain.slots]
  | enum name members isConst isDeclare =>
    refine .after (declare_follows _ _ (by decide) _ _ _ _) fun _ ↦ ?_
    refine (Follows.mapM fun m _ ↦ enumMember_follows h m).bindLast fun _ ↦ .pure ?_
    simp [Plain.names, Plain.ownNames, Plain.slots]
  | module keyword name body isDeclare =>
    refine .inScope ((Follows.optionMapM (w := fun views ↦ (views.map View.names).sum)
      fun items _ ↦ .mapM fun node _ ↦ h.statement node).bindLast fun lowered ↦ .pure ?_) _
    cases lowered <;> simp [Plain.names, Plain.ownNames, Plain.slots]
  | _ => exact .failAt _ _ _ _

theorem statementStep_follows (node : Node) :
    Follows 0 (t.statementStep node) (l.statementStep node) View.names := by
  cases node with
  | plain range form =>
    cases form with
    | block body => exact block_follows h true (.plain range (.block body))
    | functionDeclaration f isDeclare =>
      exact functionDeclaration_follows h false (.plain range (.functionDeclaration f isDeclare)) f
        _
    | imports | exportNamed | exportDefault => exact moduleItem_follows h _
    | _ => exact plainView_follows (plainStatement_follows h _ _ _ _)
  | surface range form =>
    cases form with
    | component f => exact function_follows h f _ (by decide) _ _ _ rfl rfl rfl
    | _ => exact .failAt _ _ _ _

end Traced

end Lowering

/-! ## Programs -/

open Lowering in
theorem lowering_traces (runtimeModule : Bytes) (limit : Int) (level : Nat) :
    (lowering runtimeModule limit level).Traces (tracing runtimeModule level) := by
  induction level with
  | zero => exact ⟨rfl, fun _ ↦ .fail _, fun _ ↦ .fail _, fun _ ↦ .fail _⟩
  | succ level ih =>
    exact {
      runtimeModule := rfl
      statement := statementStep_follows ih
      expression := expressionStep_follows ih
      element := elementStep_follows ih }

/-- A program has the names that are written for its events, and imports the primitives that are
found on the way. -/
theorem ViewProgram.ofNode_follows {options : Options} {root : Node} {program : ViewProgram}
    {state : LoweringState} (hrun : ofNode options root = (.ok program, state)) :
    program.names = Scoping.output {} (trace options root) ∧
      program.primitives = (Scoping.run {} (trace options root)).primitives := by
  obtain ⟨body, middle, hbody, hrun⟩ := bind_eq_ok.mp hrun
  cases hrun
  obtain ⟨hmiddle, hnames⟩ := Follows.mapM (fun item _ ↦
    Lowering.moduleItem_follows (lowering_traces _ _ _) item) hbody
  refine ⟨hnames.trans (zero_add _), ?_⟩
  exact congrArg Scoping.primitives hmiddle

end SignalView
