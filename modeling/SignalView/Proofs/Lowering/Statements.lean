import SignalView.Proofs.Lowering.Expressions

/-!
# Lowering components, statements and programs

Components add the faults of their own: parameters that are malformed and keys that occur twice.
With these, a program in which everything stands in its place is lowered to one of which the same
is true.
-/

namespace SignalView

open Lower LoweringState Slot

/-! ## Detection -/

/-- Detection has warnings to report at most. -/
theorem detect_diagnostics (place : DetectionPlace) (node : Node) :
    ∀ d ∈ (detect place node).diagnostics, d.severity = .warning := by
  unfold detect
  split
  · simp
  · split
    · next rule _ =>
      simp only [Detection.ofRule]
      split
      · simp [Detection.misannotated]
      · simp
    · simp

namespace Lowering

variable {I : LoweringState → Prop} [Lasting I] {deep : Prop}

theorem acceptDetected_runs (binding : Bytes) (node : Node) :
    Runs I deep (acceptDetected binding node) := by
  refine .bind (.forM fun d hd ↦ .report (detect_diagnostics _ _ d hd)) fun _ _ ↦ ?_
  exact (Yields.remark _ _ _).bind fun _ _ ↦ .pure trivial

theorem noteCallbacks_runs (node : Node) : Runs I deep (noteCallbacks node) :=
  .forM fun _ _ ↦ .ite (fun _ ↦ .remark _ _ _) fun _ ↦ .pure trivial

/-! ## Components -/

omit [Lasting I] in
theorem malformed_yields {α : Type} {Q : α → Prop} {other : Lower α} (name message : Bytes)
    (line column : Nat) : Yields I deep (malformed name message line column) other Q :=
  .failAt (by simp [faultCodes])

omit [Lasting I] in
theorem checkParams_runs (name : Bytes) (line column : Nat) (seen : List Bytes)
    (params : List (Param Node)) : Runs I deep (checkParams name line column seen params) := by
  induction params generalizing seen with
  | nil => exact .pure trivial
  | cons param rest ih =>
    unfold checkParams
    split
    · exact malformed_yields _ _ _ _
    · refine .iteThen (fun _ ↦ malformed_yields _ _ _ _) ?_
      refine .iteThen (fun _ ↦ malformed_yields _ _ _ _) ?_
      split
      · exact malformed_yields _ _ _ _
      · exact ih _

theorem register_runs (c : Component Node) : Runs I deep (register c) := by
  refine Yields.state.bind fun s _ ↦ .iteThen (fun _ ↦ .failAt (by simp [faultCodes])) ?_
  exact .modify fun _ hs ↦ Lasting.key hs _

theorem collectingFacts_yields {α : Type} {action deeper : Lower α} {Q : α → Prop}
    (h : Yields I deep action deeper Q) :
    Yields I deep (collectingFacts action) (collectingFacts deeper) fun result ↦ Q result.1 := by
  refine Yields.state.bind fun enclosing _ ↦ ?_
  refine .bind (.modify fun _ hs ↦ Lasting.facts hs _) fun _ _ ↦ ?_
  refine h.bind fun value hvalue ↦ Yields.state.bind fun s _ ↦ ?_
  exact .bind (.modify fun _ hs ↦ Lasting.facts hs _) fun _ _ ↦ .pure hvalue

section Served

variable {n : Nat} {l l' : Lowering} (h : Serves I deep n l l')

include h

theorem componentParts_yields {c : Component Node} (hc : AllHold (Node.Placed deep n) c.slots) :
    Yields I deep (l.componentParts c) (l'.componentParts c) fun d ↦
      AllHold (View.Placed deep n) d.slots := by
  obtain ⟨hparams, hblock, hvalue⟩ := by simpa [Component.slots] using hc
  refine (declareParams_runs _).bind fun _ _ ↦ (params_yields h hparams).bind fun ps hps ↦ ?_
  refine (Yields.optionMapM fun block hmem ↦ block_yields h (hblock block hmem) false).bind ?_
  rintro block ⟨-, hblock⟩
  refine .ite (fun _ ↦ .bind (.pure rfl) ?_) fun _ ↦ ?_
  · rintro _ rfl
    exact .pure (by simpa [Component.slots] using ⟨hps, hblock⟩)
  · refine (optionalExpression_yields h hvalue).bind fun value hvalue ↦ .pure ?_
    simpa [Component.slots] using ⟨hps, hblock, hvalue.2⟩

/-- A component stands where an expression or a statement does. -/
theorem component_yields {c : Component Node} (hc : AllHold (Node.Placed deep n) c.slots) :
    Yields I deep (l.component c) (l'.component c) fun view ↦
      view.Placed deep (n + 1) .expression ∧ view.Placed deep (n + 1) .statement := by
  refine (register_runs c).bind fun _ _ ↦ (checkParams_runs _ _ _ _ _).bind fun _ _ ↦ ?_
  refine (collectingFacts_yields (.inScope (componentParts_yields h hc))).bind ?_
  rintro ⟨lowered, facts⟩ hlowered
  refine .bind (.modify fun _ hs ↦ Lasting.component hs _) fun _ _ ↦ ?_
  refine (Yields.remark _ _ _).bind fun _ _ ↦ ?_
  exact .pure ⟨.of_rendered rfl hlowered, .of_rendered rfl hlowered⟩

theorem keywordComponent_yields {f : Callable Node}
    (hf : AllHold (Node.Placed deep n) (Surface.component f).slots) (line column : Nat) :
    Yields I deep (l.keywordComponent line column f)
      (l'.keywordComponent line column f) (View.Placed deep (n + 1) .statement) := by
  refine (declare_runs _ _ _ _ _ _).bind fun _ _ ↦ ?_
  refine (component_yields h ?_).mono fun _ hview ↦ hview.2
  obtain ⟨hparams, -, hbody⟩ := by simpa [Surface.slots] using hf
  simpa [Component.slots] using ⟨hparams, hbody⟩

theorem declaredComponent_yields {f : Callable Node} (hf : AllHold (Node.Placed deep n) f.slots)
    (line column : Nat) (detection : Detection) :
    Yields I deep (l.declaredComponent line column f detection)
      (l'.declaredComponent line column f detection) (View.Placed deep (n + 1) .statement) := by
  refine (declare_runs _ _ _ _ _ _).bind fun _ _ ↦ ?_
  refine (component_yields h ?_).mono fun _ hview ↦ hview.2
  simpa [Component.slots, Callable.slots] using hf

theorem boundComponent_yields {node : Node} (hnode : node.Placed deep n .expression)
    (binding : Bytes) (detection : Detection) :
    Yields I deep (l.boundComponent binding detection node)
      (l'.boundComponent binding detection node) (View.Placed deep n .expression) := by
  have hparts {c : Component Node} (hc : AllHold (Node.Placed deep (n - 1)) c.slots) :
      Yields I deep (l.component c) (l'.component c) (View.Placed deep n .expression) :=
    (component_yields (h.mono n.pred_le) hc).mono fun _ hview ↦ hview.1.of_pred hnode.pos
  unfold boundComponent
  split
  · next range f =>
    obtain ⟨-, -, hslots⟩ := hnode.plain_parts
    refine hparts ?_
    cases hbody : f.body <;>
      simpa [Component.slots, Plain.slots, Arrow.slots, ArrowBody.slots, hbody] using hslots
  · next range f =>
    obtain ⟨-, -, hslots⟩ := hnode.plain_parts
    exact hparts (by simpa [Component.slots, Plain.slots, Callable.slots] using hslots)
  · exact h.value hnode

/-! ## Variables and functions -/

theorem componentDeclarator_yields {d : Declarator Node} (hd : AllHold (Node.Placed deep n) d.slots)
    (keyword : Bytes) :
    Yields I deep (l.componentDeclarator? keyword d)
      (l'.componentDeclarator? keyword d) fun lowered ↦
      ∀ e ∈ lowered, AllHold (View.Placed deep n) e.slots := by
  obtain ⟨htarget, hinit⟩ := by simpa [Declarator.slots] using hd
  have hnone : Yields I deep (pure none) (pure none) fun lowered : Option (Declarator View) ↦
      ∀ e ∈ lowered, AllHold (View.Placed deep n) e.slots := .pure (by simp)
  unfold componentDeclarator?
  split
  · next name init hname hsome =>
    refine .ite (fun _ ↦ hnone) fun _ ↦ (acceptDetected_runs name init).bind fun found _ ↦ ?_
    cases found with
    | none => exact hnone
    | some detection =>
      refine (declare_runs _ _ _ _ _ _).bind fun _ _ ↦ ?_
      refine (boundComponent_yields h (hinit init hsome) name detection).bind fun value hvalue ↦ ?_
      refine (h.value htarget).bind fun target htarget ↦ .pure ?_
      rintro _ ⟨⟩
      simpa [Declarator.slots] using ⟨htarget, hvalue⟩
  · exact hnone

theorem plainDeclarator_yields {d : Declarator Node} (hd : AllHold (Node.Placed deep n) d.slots)
    (keyword : Bytes) :
    Yields I deep (l.plainDeclarator keyword d) (l'.plainDeclarator keyword d) fun e ↦
      AllHold (View.Placed deep n) e.slots := by
  obtain ⟨htarget, hinit⟩ := by simpa [Declarator.slots] using hd
  refine (declareSignals_runs keyword d).bind fun found _ ↦ ?_
  refine .iteThen (fun _ ↦ declarePattern_runs _ _ _ _) ?_
  refine (h.value htarget).bind fun target htarget ↦ ?_
  refine (optionalExpression_yields h hinit).bind fun init hinit ↦ .pure ?_
  simpa [Declarator.slots] using ⟨htarget, hinit.2⟩

theorem declarator_yields {d : Declarator Node} (hd : AllHold (Node.Placed deep n) d.slots)
    (atModule : Bool) (keyword : Bytes) :
    Yields I deep (l.declarator atModule keyword d) (l'.declarator atModule keyword d) fun e ↦
      AllHold (View.Placed deep n) e.slots := by
  have hplain := plainDeclarator_yields h hd keyword
  refine .ite (fun _ ↦ ?_) fun _ ↦ hplain
  refine (componentDeclarator_yields h hd keyword).bind fun found hfound ↦ ?_
  cases found with
  | none => exact hplain
  | some lowered => exact .pure (hfound lowered rfl)

theorem variableDeclaration_yields {declarators : List (Declarator Node)}
    (hdeclarators : ∀ d ∈ declarators, AllHold (Node.Placed deep n) d.slots) (atModule : Bool)
    (keyword : Bytes) (isDeclare : Bool) :
    Yields I deep (l.variableDeclaration atModule keyword declarators isDeclare)
      (l'.variableDeclaration atModule keyword declarators isDeclare) fun form ↦
      ∃ lowered, form = .variableDeclaration keyword lowered isDeclare ∧
        ∀ d ∈ lowered, AllHold (View.Placed deep n) d.slots := by
  refine .bind (.mapM fun d hd ↦ declarator_yields h (hdeclarators d hd) atModule keyword) ?_
  exact fun lowered hlowered ↦ .pure ⟨lowered, rfl, hlowered⟩

theorem plainFunction_yields {f : Callable Node} (hf : AllHold (Node.Placed deep n) f.slots)
    (line column : Nat) (isDeclare : Bool) :
    Yields I deep (l.plainFunction line column f isDeclare)
      (l'.plainFunction line column f isDeclare) (View.Placed deep (n + 1) .statement) := by
  refine (declare_runs _ _ _ _ _ _).bind fun _ _ ↦ ?_
  refine (Yields.inScope (callable_yields h hf)).bind fun g hg ↦ .pure ?_
  exact .of_plain rfl hg

theorem functionDeclaration_yields {f : Callable Node} (hf : AllHold (Node.Placed deep n) f.slots)
    (atModule : Bool) (node : Node) (isDeclare : Bool) :
    Yields I deep (l.functionDeclaration atModule node f isDeclare)
      (l'.functionDeclaration atModule node f isDeclare) (View.Placed deep (n + 1) .statement) := by
  have hplain := plainFunction_yields h hf node.line node.column isDeclare
  refine .ite (fun _ ↦ ?_) fun _ ↦ hplain
  refine (acceptDetected_runs [] node).bind fun found _ ↦ ?_
  cases found with
  | none => exact hplain
  | some detection => exact declaredComponent_yields h hf _ _ detection

/-! ## Module items -/

theorem importClause_yields (line column : Nat) (clause : ImportClause) :
    Yields I deep (l.importClause line column clause) (l'.importClause line column clause)
      fun _ ↦ True := by
  have hspecifiers : Yields I deep (clause.specifiers.mapM (l.importSpecifier clause line column))
      (clause.specifiers.mapM (l'.importSpecifier clause line column)) fun _ ↦ True := by
    refine (Yields.mapM (R := fun _ ↦ True) fun spec _ ↦ ?_).mono fun _ _ ↦ trivial
    unfold importSpecifier
    rw [h.runtime]
    refine (declare_runs _ _ _ _ _ _).bind fun _ _ ↦ .ite (fun _ ↦ ?_) fun _ ↦ .pure trivial
    exact .bind (.modify fun _ hs ↦ Lasting.runtimeName hs _) fun _ _ ↦ .pure trivial
  refine hspecifiers.bind fun _ _ ↦ (declare_runs _ _ _ _ _ _).bind fun _ _ ↦ ?_
  exact (declare_runs _ _ _ _ _ _).bind fun _ _ ↦ .pure trivial

theorem imports_yields (range : Range) (clause : ImportClause) :
    Yields I deep (l.moduleItem (.plain range (.imports clause)))
      (l'.moduleItem (.plain range (.imports clause))) (View.Placed deep (n + 1) .statement) := by
  rw [moduleItem, moduleItem]
  refine (importClause_yields h _ _ clause).bind fun lowered _ ↦ .pure ?_
  exact .of_plain rfl (by simp [Plain.slots])

omit h in
theorem exportNamed_yields {declaration : Option Node}
    (hdeclaration : ∀ item ∈ declaration, Yields I deep (l.moduleItem item) (l'.moduleItem item)
      (View.Placed deep n .statement))
    (range : Range) (specifiers : List ExportSpecifier) (source : Bytes) (typeOnly : Bool) :
    Yields I deep
      (l.moduleItem (.plain range (.exportNamed declaration specifiers source typeOnly)))
      (l'.moduleItem (.plain range (.exportNamed declaration specifiers source typeOnly)))
      (View.Placed deep (n + 1) .statement) := by
  have hrest {lowered : Option View}
      (hlowered : ∀ view ∈ lowered, view.Placed deep n .statement) :
      Yields I deep (do
        specifiers.forM fun spec ↦ markUsed spec.localName
        return View.plain range.start.line range.start.column
          (.exportNamed lowered specifiers source typeOnly)) (do
        specifiers.forM fun spec ↦ markUsed spec.localName
        return View.plain range.start.line range.start.column
          (.exportNamed lowered specifiers source typeOnly))
        (View.Placed deep (n + 1) .statement) := by
    refine .bind (.forM fun _ _ ↦ .markUsed _) fun _ _ ↦ .pure ?_
    exact .of_plain rfl (by simpa [Plain.slots] using hlowered)
  cases declaration with
  | none =>
    rw [moduleItem, moduleItem]
    exact hrest (by simp)
  | some declaration =>
    rw [moduleItem, moduleItem]
    refine (hdeclaration declaration rfl).bind fun view hview ↦ hrest ?_
    simpa using hview

theorem exportDefault_yields {value : DefaultExport Node}
    (hdeclaration : ∀ item, value = .declaration item → Yields I deep (l.moduleItem item)
      (l'.moduleItem item) (View.Placed deep n .statement))
    (hvalue : AllHold (Node.Placed deep n) value.slots) (range : Range) :
    Yields I deep (l.moduleItem (.plain range (.exportDefault value)))
      (l'.moduleItem (.plain range (.exportDefault value)))
      (View.Placed deep (n + 1) .statement) := by
  cases value with
  | declaration declaration =>
    rw [moduleItem, moduleItem]
    refine (hdeclaration declaration rfl).bind fun view hview ↦ .pure ?_
    exact .of_plain rfl (by simpa [Plain.slots, DefaultExport.slots] using hview)
  | expression expression =>
    rw [moduleItem, moduleItem]
    refine (h.value (by simpa [DefaultExport.slots] using hvalue)).bind fun view hview ↦ .pure ?_
    exact .of_plain rfl (by simpa [Plain.slots, DefaultExport.slots] using hview)

theorem moduleItem_yields {node : Node} (hnode : node.Placed deep n .statement) :
    Yields I deep (l.moduleItem node) (l'.moduleItem node) (View.Placed deep n .statement) := by
  obtain ⟨hfits, hpaths⟩ := hnode
  generalize hplace : Place.statement = place at hfits
  -- what is exported is an item one level below, and so is what that exports
  induction hfits generalizing n with
  | @plain place range form hstands hregular hfilled hparts ih =>
    subst hplace
    have hnode : (Node.plain range form).Placed deep n .statement :=
      ⟨.plain hstands hregular hfilled hparts, hpaths⟩
    obtain ⟨-, -, hslots⟩ := hnode.plain_parts
    have hbelow := h.mono n.pred_le
    have hitem {item : Node} (hmem : ⟨.statement, some item⟩ ∈ form.slots) :=
      ih .statement item hmem hbelow ((allHold_iff.mp hslots).2 _ _ hmem).2 rfl
    have hof (view : View) (hview : view.Placed deep (n - 1 + 1) .statement) :
        view.Placed deep n .statement := hview.of_pred hnode.pos
    cases form with
    | imports clause => exact (imports_yields hbelow range clause).mono hof
    | exportNamed declaration specifiers source typeOnly =>
      refine (exportNamed_yields (fun item hmem ↦ hitem ?_) range _ _ _).mono hof
      simp [Plain.slots, filled, Option.mem_def.mp hmem]
    | exportDefault value =>
      refine (exportDefault_yields hbelow (fun item hmem ↦ hitem ?_) hslots range).mono hof
      simp [Plain.slots, hmem, DefaultExport.slots, filled]
    | functionDeclaration f isDeclare =>
      rw [moduleItem, moduleItem]
      exact (functionDeclaration_yields hbelow hslots true _ isDeclare).mono hof
    | variableDeclaration keyword declarators isDeclare =>
      rw [moduleItem, moduleItem]
      simp only [Plain.slots, allHold_flatMap] at hslots
      refine (variableDeclaration_yields hbelow hslots true keyword isDeclare).bind ?_
      rintro _ ⟨lowered, rfl, hlowered⟩
      exact .pure (hof _ (.of_plain rfl (by simpa [Plain.slots] using hlowered)))
    | expressionStatement expression =>
      rw [moduleItem, moduleItem]
      exact (noteCallbacks_runs _).bind fun _ _ ↦ h.item hnode
    | _ =>
      rw [moduleItem, moduleItem]
      · exact h.item hnode
      all_goals simp
  | surface hstands hregular hfilled hparts =>
    subst hplace
    exact h.item ⟨.surface hstands hregular hfilled hparts, hpaths⟩

/-! ## All statements -/

theorem switchCase_yields {c : SwitchCase Node} (hc : AllHold (Node.Placed deep n) c.slots) :
    Yields I deep (l.switchCase c) (l'.switchCase c) fun d ↦
      AllHold (View.Placed deep n) d.slots := by
  obtain ⟨htest, hbody⟩ := by simpa [SwitchCase.slots] using hc
  refine (optionalExpression_yields h htest).bind fun test htest ↦ ?_
  refine (Yields.mapM fun node hnode ↦ h.item (hbody node hnode)).bind fun body hbody ↦ .pure ?_
  simpa [SwitchCase.slots] using ⟨htest.2, hbody⟩

theorem catchClause_yields {t : TryShape Node} {handler : Node}
    (hparam : ∀ param ∈ t.param, param.Placed deep n .expression)
    (hhandler : handler.Placed deep n .statement) :
    Yields I deep (l.catchClause t handler) (l'.catchClause t handler) fun clause ↦
      (∀ param ∈ clause.1, param.Placed deep n .expression) ∧
        clause.2.Placed deep n .statement := by
  refine .inScope (.bind (.optionForM fun _ _ ↦ declarePattern_runs _ _ _ _) fun _ _ ↦ ?_)
  refine (optionalExpression_yields h hparam).bind fun param hparam ↦ ?_
  exact (block_yields h hhandler false).bind fun view hview ↦ .pure ⟨hparam.2, hview⟩

theorem tryShape_yields {t : TryShape Node} (ht : AllHold (Node.Placed deep n) t.slots) :
    Yields I deep (l.tryShape t) (l'.tryShape t) fun lowered ↦
      AllHold (View.Placed deep n) lowered.slots := by
  simp only [TryShape.slots, allHold_append, allHold_filled, List.cons_append,
    List.forall_mem_cons, List.forall_mem_append, Option.mem_toList] at ht
  obtain ⟨⟨hblock, hhandler, hfinalizer⟩, hparam⟩ := ht
  refine (block_yields h hblock true).bind fun block hblock ↦ ?_
  refine .bind (.optionMapM fun handler hmem ↦
    catchClause_yields h hparam (hhandler handler hmem)) ?_
  rintro clause ⟨-, hclause⟩
  refine .bind (.optionMapM fun finalizer hmem ↦ block_yields h (hfinalizer finalizer hmem) true) ?_
  rintro finalizer ⟨-, hfinalizer⟩
  refine .pure ?_
  cases clause with
  | none => simpa [TryShape.slots] using ⟨hblock, hfinalizer⟩
  | some clause =>
    obtain ⟨hparam, hhandler⟩ := hclause clause rfl
    simpa [TryShape.slots] using ⟨⟨hblock, hhandler, hfinalizer⟩, hparam⟩

theorem enumMember_yields {m : EnumMember Node}
    (hm : ∀ init ∈ m.init, init.Placed deep n .expression) :
    Yields I deep (l.enumMember m) (l'.enumMember m) fun lowered ↦
      ∀ init ∈ lowered.init, init.Placed deep n .expression :=
  (optionalExpression_yields h hm).bind fun _ hinit ↦ .pure hinit.2

omit h in
/-- The statements that are lowered part by part: all but blocks, functions and module items. -/
def isSimple : Plain Node → Bool
  | .block _ | .functionDeclaration _ _ | .imports _ | .exportNamed _ _ _ _ | .exportDefault _ =>
    false
  | form => !form.isExpression

theorem plainStatement_yields {node : Node} {form : Plain Node} (hform : isSimple form)
    (hslots : AllHold (Node.Placed deep n) form.slots) :
    Yields I deep (l.plainStatement node form) (l'.plainStatement node form) fun lowered ↦
      lowered.stands .statement ∧ AllHold (View.Placed deep n) lowered.slots := by
  cases form with
  | jump | empty | debugger | exportAll => exact .pure ⟨rfl, by simp [Plain.slots]⟩
  | interface | typeAlias =>
    exact (declare_runs _ _ _ _ _ _).bind fun _ _ ↦ .pure ⟨rfl, by simp [Plain.slots]⟩
  | expressionStatement | throw =>
    simp only [Plain.slots, allHold_filled, List.forall_mem_singleton] at hslots
    exact (h.value hslots).bind fun view hview ↦ .pure ⟨rfl, by simpa [Plain.slots] using hview⟩
  | returnValue argument =>
    simp only [Plain.slots, allHold_filled, Option.mem_toList] at hslots
    exact (optionalExpression_yields h hslots).bind fun view hview ↦
      .pure ⟨rfl, by simpa [Plain.slots] using hview.2⟩
  | labeled label body =>
    simp only [Plain.slots, allHold_filled, List.forall_mem_singleton] at hslots
    exact (h.item hslots).bind fun view hview ↦ .pure ⟨rfl, by simpa [Plain.slots] using hview⟩
  | variableDeclaration keyword declarators isDeclare =>
    simp only [Plain.slots, allHold_flatMap] at hslots
    refine (variableDeclaration_yields h hslots false keyword isDeclare).mono ?_
    rintro _ ⟨lowered, rfl, hlowered⟩
    exact ⟨rfl, by simpa [Plain.slots] using hlowered⟩
  | ifElse test consequent alternate =>
    obtain ⟨htest, hconsequent, halternate⟩ := by simpa [Plain.slots] using hslots
    refine (h.value htest).bind fun test htest ↦ (h.item hconsequent).bind fun body hbody ↦ ?_
    refine (Yields.optionMapM fun node hmem ↦ h.item (halternate node hmem)).bind ?_
    intro other hother
    exact .pure ⟨rfl, by simpa [Plain.slots] using ⟨htest, hbody, hother.2⟩⟩
  | switch discriminant cases =>
    obtain ⟨hdiscriminant, hcases⟩ := by simpa [Plain.slots] using hslots
    refine (h.value hdiscriminant).bind fun discriminant hdiscriminant ↦ ?_
    refine (Yields.inScope (.mapM fun c hc ↦ switchCase_yields h (hcases c hc))).bind ?_
    intro cases hcases
    exact .pure ⟨rfl, by simpa [Plain.slots] using ⟨hdiscriminant, hcases⟩⟩
  | forLoop init test update body =>
    simp only [Plain.slots, allHold_append, allHold_filled, List.forall_mem_append,
      Option.mem_toList, List.forall_mem_singleton] at hslots
    obtain ⟨⟨hinit, htest, hupdate⟩, hbody⟩ := hslots
    refine .inScope (.bind (.optionMapM fun node hmem ↦
      h.statement n.le_refl (hinit node hmem) (.inr rfl)) fun init hinit ↦ ?_)
    refine (optionalExpression_yields h htest).bind fun test htest ↦ ?_
    refine (optionalExpression_yields h hupdate).bind fun update hupdate ↦ ?_
    refine (h.item hbody).bind fun body hbody ↦ .pure ⟨rfl, ?_⟩
    simp only [Plain.slots, allHold_append, allHold_filled, List.forall_mem_append,
      Option.mem_toList, List.forall_mem_singleton]
    exact ⟨⟨hinit.2, htest.2, hupdate.2⟩, hbody⟩
  | forIn left right body isOf isAwait =>
    obtain ⟨hleft, hright, hbody⟩ := by simpa [Plain.slots] using hslots
    refine (h.value hright).bind fun right hright ↦ .inScope ?_
    refine (h.statement n.le_refl hleft (.inr rfl)).bind fun left hleft ↦ ?_
    refine (h.item hbody).bind fun body hbody ↦ .pure ⟨rfl, ?_⟩
    simpa [Plain.slots] using ⟨hleft, hright, hbody⟩
  | whileLoop test body =>
    obtain ⟨htest, hbody⟩ := by simpa [Plain.slots] using hslots
    refine (h.value htest).bind fun test htest ↦ (h.item hbody).bind fun body hbody ↦ ?_
    exact .pure ⟨rfl, by simpa [Plain.slots] using ⟨htest, hbody⟩⟩
  | doWhile body test =>
    obtain ⟨hbody, htest⟩ := by simpa [Plain.slots] using hslots
    refine (h.item hbody).bind fun body hbody ↦ (h.value htest).bind fun test htest ↦ ?_
    exact .pure ⟨rfl, by simpa [Plain.slots] using ⟨hbody, htest⟩⟩
  | tryCatch t => exact (tryShape_yields h hslots).bind fun t ht ↦ .pure ⟨rfl, ht⟩
  | classDeclaration c =>
    refine (declare_runs _ _ _ _ _ _).bind fun _ _ ↦ ?_
    exact (classShape_yields h hslots).bind fun d hd ↦ .pure ⟨rfl, hd⟩
  | enum name members isConst isDeclare =>
    simp only [Plain.slots, allHold_flatMap, allHold_filled, Option.mem_toList] at hslots
    refine (declare_runs _ _ _ _ _ _).bind fun _ _ ↦ ?_
    refine .bind (.mapM fun m hm ↦ enumMember_yields h (hslots m hm)) fun lowered hlowered ↦ ?_
    exact .pure ⟨rfl, by simpa [Plain.slots] using hlowered⟩
  | module keyword name body isDeclare =>
    simp only [Plain.slots, allHold_filled] at hslots
    refine .inScope (.bind (.optionMapM fun items hitems ↦ .mapM fun node hnode ↦
      h.item (hslots node ?_)) ?_)
    · simpa [Option.mem_def.mp hitems] using hnode
    · rintro lowered ⟨-, hlowered⟩
      refine .pure ⟨rfl, ?_⟩
      cases lowered <;> simp_all [Plain.slots]
  | _ => cases hform

theorem statementStep_yields {place : Place} {node : Node}
    (hnode : node.Placed deep (n + 1) place) (hplace : place = .statement ∨ place = .loopHead) :
    Yields I deep (l.statementStep node) (l'.statementStep node)
      (View.Placed deep (n + 1) place) := by
  cases node with
  | plain range form =>
    obtain ⟨hstands, -, hslots⟩ := hnode.plain_parts
    rcases hplace with rfl | rfl
    · cases form with
      | block => exact blockOf_yields h (allHold_filled.mp hslots) range true
      | functionDeclaration f isDeclare =>
        exact functionDeclaration_yields h hslots false _ isDeclare
      | imports clause => exact imports_yields h range clause
      | exportNamed declaration specifiers source typeOnly =>
        refine exportNamed_yields (fun item hmem ↦ moduleItem_yields h ?_) range _ _ _
        exact allHold_filled.mp hslots item (Option.mem_toList.mpr hmem)
      | exportDefault value =>
        refine exportDefault_yields h (fun item hitem ↦ moduleItem_yields h ?_) hslots range
        simpa [Plain.slots, hitem, DefaultExport.slots] using hslots
      | _ =>
        refine .bind (plainStatement_yields h ?_ hslots) fun lowered hlowered ↦ ?_
        · exact hstands
        · exact .pure (.of_plain hlowered.1 hlowered.2)
    · cases form with
      | variableDeclaration keyword declarators isDeclare =>
        simp only [Plain.slots, allHold_flatMap] at hslots
        refine .bind (variableDeclaration_yields h hslots false keyword isDeclare) ?_
        rintro _ ⟨lowered, rfl, hlowered⟩
        exact .pure (.of_plain rfl (by simpa [Plain.slots] using hlowered))
      | expressionStatement expression =>
        refine .bind (P := fun lowered ↦ ∃ view, lowered = .expressionStatement view ∧
          view.Placed deep n .expression) ?_ ?_
        · have hexpression : expression.Placed deep n .expression := by
            simpa [Plain.slots] using hslots
          exact (h.value hexpression).bind fun view hview ↦ .pure ⟨view, rfl, hview⟩
        · rintro _ ⟨view, rfl, hview⟩
          exact .pure (.of_plain rfl (by simpa [Plain.slots] using hview))
      | _ => cases hstands
  | surface range form =>
    obtain ⟨hstands, -, hslots⟩ := hnode.surface_parts
    rcases hplace with rfl | rfl
    · cases form with
      | component f => exact keywordComponent_yields h hslots _ _
      | _ => cases hstands
    · cases form <;> cases hstands

end Served

end Lowering

/-! ## Programs -/

section Programs

variable {I : LoweringState → Prop} [Lasting I] {deep : Prop}

theorem lowering_succ (runtimeModule : Bytes) (limit : Int) (level : Nat) :
    lowering runtimeModule limit (level + 1) = {
      runtimeModule := runtimeModule
      statement := (lowering runtimeModule limit level).statementStep
      expression := (lowering runtimeModule limit level).expressionStep
      element := (lowering runtimeModule limit level).elementStep } := rfl

open Lowering in
/-- Entry points with more levels, of any limit, give what those with fewer levels give. -/
theorem lowering_serves (runtimeModule : Bytes) (limit limit' : Int) {level level' : Nat}
    (hle : level ≤ level') :
    Serves I deep level (lowering runtimeModule limit level)
      (lowering runtimeModule limit' level') := by
  induction level generalizing level' with
  | zero =>
    have hfail {Q : View → Prop} (node : Node) (other : Lower View) (hdeep : deep) :
        Yields I deep (lowering.tooDeep limit node) other Q := .tooDeep hdeep
    exact {
      runtime := by cases level' <;> rfl
      statement := fun hn _ node hnode _ ↦ hfail node _ (by
        exact hnode.pos.resolve_right (by omega))
      expression := fun hn _ node hnode _ ↦ hfail node _ (by
        exact hnode.pos.resolve_right (by omega))
      element := fun hn node hnode hmarkup ↦ hfail node _ (by
        exact (hnode.mono (by omega)).deep_of_isMarkup hmarkup) }
  | succ level ih =>
    obtain ⟨level', rfl⟩ : ∃ more, level' = more + 1 := ⟨level' - 1, by omega⟩
    have hserves {n : Nat} (hn : n ≤ level + 1) :
        Serves I deep (n - 1) (lowering runtimeModule limit level)
          (lowering runtimeModule limit' level') :=
      (ih (Nat.le_of_succ_le_succ hle)).mono (by omega)
    rw [lowering_succ, lowering_succ]
    exact {
      runtime := rfl
      statement := fun hn _ node hnode hplace ↦
        (statementStep_yields (hserves hn) (hnode.mono (by omega)) hplace).mono
          fun _ hview ↦ hview.of_pred hnode.pos
      expression := fun hn _ node hnode hplace ↦
        (expressionStep_yields (hserves hn) (hnode.mono (by omega)) hplace).mono
          fun _ hview ↦ hview.of_pred hnode.pos
      element := fun {n} hn node hnode hmarkup ↦
        (elementStep_yields (hserves hn) (hnode.mono (by omega)) hmarkup).mono
          fun _ hview ↦ hview.mono (show n - 1 + 1 ≤ n + 1 by omega) }

/-- Statements that stand in their places are lowered to ones that do, and to the same ones under a
limit that is no lower. -/
theorem ViewProgram.ofItems_yields {options options' : Options} {items : List Node} {n : Nat}
    (hitems : ∀ item ∈ items, item.Placed deep n .statement) (hn : n ≤ options.maxDepth.toNat)
    (hruntime : options'.runtimeModule = options.runtimeModule)
    (hdepth : options.maxDepth ≤ options'.maxDepth) :
    Yields I deep (ofItems options items) (ofItems options' items) fun program ↦
      (∀ view ∈ program.body, view.Placed deep n .statement) ∧
        ∃ state, I state ∧ state.primitives = program.primitives := by
  have hserves : Lowering.Serves I deep options.maxDepth.toNat
      (lowering options.runtimeModule options.maxDepth options.maxDepth.toNat)
      (lowering options'.runtimeModule options'.maxDepth options'.maxDepth.toNat) := by
    rw [hruntime]
    exact lowering_serves _ _ _ (by omega)
  refine .bind (.mapM fun item hitem ↦
    Lowering.moduleItem_yields (hserves.mono hn) (hitems item hitem)) fun body hbody ↦ ?_
  refine Yields.state.bind fun state hstate ↦ (Yields.remark _ _ _).bind fun _ _ ↦ ?_
  exact .pure ⟨hbody, state, hstate, rfl⟩

/-- A program whose statements stand in their places is lowered to one of which the same is true,
and to the same one under a limit that is no lower; or it has one of the known faults, or its
nesting is too deep. There are warnings at most, and no primitives but exports of the runtime. -/
theorem ViewProgram.ofNode_cases (options options' : Options) {root : Node} {n : Nat}
    (hitems : ∀ item ∈ root.children, item.Placed deep n .statement)
    (hn : n ≤ options.maxDepth.toNat) (hruntime : options'.runtimeModule = options.runtimeModule)
    (hdepth : options.maxDepth ≤ options'.maxDepth) :
    ∃ state, state.OnlyWarns ∧
      ((∃ program, ofNode options root = (.ok program, state) ∧
          ofNode options' root = (.ok program, state) ∧
          (∀ view ∈ program.body, view.Placed deep n .statement) ∧
          ∀ name ∈ program.primitives, name ∈ Primitive.exports) ∨
        ∃ failure, ofNode options root = (.error failure, state) ∧
          (failure.code ∈ faultCodes ∨ failure.code = Failure.depthCode .analyzer ∧ deep)) := by
  let I (s : LoweringState) : Prop := OnlyWarns s ∧ ImportsExports s
  have hstart : I {} := by simp [I, OnlyWarns, ImportsExports]
  obtain ⟨state, hstate, hrun⟩ := ofItems_yields hitems hn hruntime hdepth hstart
  refine ⟨state, hstate.1, hrun.imp_left ?_⟩
  rintro ⟨program, hok, hdeeper, hbody, middle, hmiddle, hprimitives⟩
  exact ⟨program, hok, hdeeper, hbody, hprimitives ▸ hmiddle.2⟩

end Programs

end SignalView
