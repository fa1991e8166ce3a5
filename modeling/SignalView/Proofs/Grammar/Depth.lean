import SignalView.Proofs.Grammar.Nesting
import SignalView.Token.Stream

/-!
# The depth of programs

Markup, declarations and statements under the limit on nesting, and what the limit says about a
program: up to chained constructs, no way down its tree is longer than seven times the limit.
-/

namespace SignalView.Grammar

open Parse Branch

variable {g : Grammar} {levels n : Nat}

/-! ## Markup -/

section NestsAt

variable (h : g.NestsAt levels n)
include h

theorem attributeValue_under : g.attributeValue.Under levels (Node.Nested false (n + 1)) := by
  unfold attributeValue
  refine .skip fun start ↦ .guard (leaf_under rfl) (.guard ?_ (.guard ?_ (.fail _ _)))
  · refine .skip fun _ ↦ .whenSo (h.assignment.bind fun expression hexpression ↦ .skip fun _ ↦ ?_)
    refine .surface fun range ↦ .of_surface_children rfl ?_
    simpa [Surface.children] using hexpression
  · exact h.element.mono fun _ hnode ↦ hnode.mono (Nat.le_succ n)

theorem markupAttribute_under : g.markupAttribute.Under levels (Node.Nested false (n + 2)) := by
  unfold markupAttribute
  refine .skip fun start ↦ .guard (.skip fun _ ↦ ?_) (.skip fun name ↦ ?_)
  · refine h.assignment.bind fun value hvalue ↦ .skip fun _ ↦ .surface fun range ↦ ?_
    have hvalue := hvalue.mono (Nat.le_succ n)
    exact .of_surface_children rfl (by simpa [Surface.children] using hvalue)
  · refine (Under.optionally (attributeValue_under h)).bind fun value hvalue ↦ ?_
    exact .surface fun range ↦
      .of_surface_children rfl (by simpa [Surface.children] using hvalue)

theorem child_under :
    g.child.Under levels fun part ↦ ∀ node ∈ part, node.Nested false (n + 2) := by
  have hsome {node : Parse Node} (hnode : node.Under levels (Node.Nested false (n + 2))) :
      (do return some (← node) : Parse (Option Node)).Under levels fun part ↦
        ∀ node ∈ part, node.Nested false (n + 2) :=
    hnode.bind fun _ hnode ↦ .pure (by simpa using hnode)
  unfold child
  refine .skip fun start ↦ ?_
  split
  · refine .skip fun _ ↦ .ite (.pure (by simp)) (hsome (.surface fun range ↦ ?_))
    exact .of_surface_children rfl (by simp [Surface.children])
  · refine .skip fun _ ↦ .guard (.pure (by simp)) ?_
    refine (spreadOr_under h.assignment (expression_under h)).bind fun expression hexpression ↦ ?_
    refine .skip fun _ ↦ hsome (.surface fun range ↦ .of_surface_children rfl ?_)
    simpa [Surface.children] using hexpression
  · exact hsome (h.element.mono fun _ hnode ↦ hnode.mono (by omega))
  · exact .fail _ _

theorem childNodes_under :
    g.childNodes.Under levels fun nodes ↦ ∀ node ∈ nodes, node.Nested false (n + 2) := by
  refine (Under.manyWhile (child_under h)).bind fun parts hparts ↦ .pure ?_
  simpa using fun node hmem ↦ hparts (some node) hmem node rfl

theorem fragmentRest_under (start : Token) :
    (g.fragmentRest start).Under levels (Node.Nested false (n + 3)) := by
  refine (childNodes_under h).bind fun children hchildren ↦ .skip fun _ ↦ ?_
  exact .guard (.surface fun range ↦ .of_surface_children rfl hchildren) (.fail _ _)

theorem elementRest_under (start : Token) (tag : Bytes) {attributes : List Node}
    (hattributes : ∀ node ∈ attributes, node.Nested false (n + 2)) :
    (g.elementRest start tag attributes).Under levels (Node.Nested false (n + 3)) := by
  unfold elementRest
  refine .skip fun _ ↦ (childNodes_under h).bind fun children hchildren ↦ .skip fun _ ↦ ?_
  refine .skip fun place ↦ .skip fun closing ↦ .whenSo ?_
  refine .skip fun _ ↦ .surface fun range ↦ .of_surface_children rfl ?_
  exact List.forall_mem_append.mpr ⟨hattributes, hchildren⟩

/-! ## Variables, functions and components -/

theorem declarator_under (place : VariablePlace) (keyword : Bytes) :
    (g.declarator place keyword).Under levels fun result ↦
      BranchesWithin (n + 3) result.1.branches := by
  unfold declarator
  refine h.bindingTarget.bind fun target htarget ↦ .skip fun _ ↦ .skip fun _ ↦ .whenSo ?_
  refine .skip fun type ↦ .skip fun _ ↦ .skip fun _ ↦ ?_
  refine .ite (.pure ?_) (.guard ?_ (.ite ?_ (.pure ?_)))
  · simpa [Declarator.branches] using htarget
  · refine h.assignment.bind fun value hvalue ↦ .pure ?_
    have hvalue := hvalue.mono (by omega : n ≤ n + 2)
    simpa [Declarator.branches] using ⟨htarget, hvalue⟩
  · exact .fail _ _
  · simpa [Declarator.branches] using htarget

theorem declarators_under (place : VariablePlace) (keyword : Bytes) :
    (g.declarators place keyword).Under levels fun result ↦
      ∀ d ∈ result.1, BranchesWithin (n + 3) d.branches := by
  refine .iterate (P := fun state : List (Declarator Node) × Bool ↦
    ∀ d ∈ state.1, BranchesWithin (n + 3) d.branches) (fun state hstate ↦ ?_) g.rounds (by simp)
  refine (declarator_under h place keyword).bind ?_
  rintro ⟨next, mayContinue⟩ hnext
  refine .choice .any .any fun more _ ↦ .pure ?_
  exact Under.forall_mem_concat hstate hnext

theorem variableDeclaration_under (place : VariablePlace) :
    (g.variableDeclaration place).Under levels (Node.Nested false (n + 3)) := by
  unfold variableDeclaration
  refine .skip fun start ↦ .skip fun _ ↦ ?_
  refine (declarators_under h place _).bind ?_
  rintro ⟨declarators, mayContinue⟩ hdeclarators
  refine .whenSo ?_
  exact .node fun range ↦ .plain (by omega) (by simpa [Plain.branches] using hdeclarators)

theorem functionDeclaration_under (start : Token) (mayBeAnonymous isAsync isDeclare : Bool) :
    (g.functionDeclaration start mayBeAnonymous isAsync isDeclare).Under levels
      (Node.Nested false (n + 3)) := by
  unfold functionDeclaration
  refine .skip fun _ ↦ .skip fun isGenerator ↦ .skip fun isNamed ↦ .whenSo ?_
  refine .skip fun name ↦ (signature_under h).bind ?_
  rintro f ⟨hparams, -⟩
  refine .skip fun hasBody ↦ ?_
  refine (Under.optionally (block_under h)).bind fun body hbody ↦ .whenSo ?_
  exact .node fun range ↦ .plain (by omega) (callable_within hparams hbody)

theorem plainFunction_under (isDeclare : Bool) :
    (g.plainFunction isDeclare).Under levels (Node.Nested false (n + 3)) :=
  .skip fun _ ↦ .skip fun start ↦ functionDeclaration_under h start _ _ _

theorem asyncFunction_under (isDeclare : Bool) :
    (g.asyncFunction isDeclare).Under levels (Node.Nested false (n + 3)) :=
  .skip fun _ ↦ .skip fun start ↦ .skip fun _ ↦ functionDeclaration_under h start _ _ _

theorem componentDeclaration_under :
    g.componentDeclaration.Under levels (Node.Nested false (n + 3)) := by
  unfold componentDeclaration
  refine .skip fun start ↦ .skip fun _ ↦ .skip fun name ↦ ?_
  refine (signature_under h).bind ?_
  rintro f ⟨hparams, -⟩
  refine .skip fun _ ↦ .whenSo ?_
  refine (block_under h).bind fun body hbody ↦ .surface fun range ↦ .surface (by omega) ?_
  exact callable_within hparams (by simpa using hbody)

/-! ## Other declarations -/

omit h in
theorem interface_under (isDeclare : Bool) :
    (g.interface isDeclare).Under levels (Node.Nested false (n + 3)) := by
  unfold interface
  refine .skip fun start ↦ .skip fun _ ↦ .skip fun name ↦ .skip fun typeParameters ↦ ?_
  refine .skip fun _ ↦ .choice .any .any fun extended _ ↦ .skip fun _ ↦ .skip fun members ↦ ?_
  exact .skip fun _ ↦ leaf_under rfl

omit h in
theorem typeAlias_under (isDeclare : Bool) :
    (g.typeAlias isDeclare).Under levels (Node.Nested false (n + 3)) := by
  unfold typeAlias
  refine .skip fun start ↦ .skip fun _ ↦ .skip fun name ↦ .skip fun typeParameters ↦ ?_
  exact .skip fun _ ↦ .skip fun type ↦ .skip fun _ ↦ leaf_under rfl

theorem enumMember_under :
    g.enumMember.Under levels fun member ↦ ∀ node ∈ member.init, node.Nested false n := by
  unfold enumMember
  refine .skip fun token ↦ .whenSo (.skip fun _ ↦ ?_)
  exact (Under.optionally h.assignment).bind fun init hinit ↦ .pure hinit

theorem enumeration_under (isConst isDeclare : Bool) :
    (g.enumeration isConst isDeclare).Under levels (Node.Nested false (n + 1)) := by
  unfold enumeration
  refine .choice .any .any fun start _ ↦ .skip fun _ ↦ .skip fun name ↦ .skip fun _ ↦ ?_
  refine (Under.commaList (enumMember_under h)).bind fun members hmembers ↦ .skip fun _ ↦ ?_
  refine .node fun range ↦ .of_children rfl ?_
  simpa [Plain.children] using fun node member hmem hnode ↦ hmembers member hmem node hnode

theorem namespaceDeclaration_under (isDeclare : Bool) :
    (g.namespaceDeclaration isDeclare).Under levels (Node.Nested false (n + 1)) := by
  unfold namespaceDeclaration
  refine .skip fun start ↦ .skip fun isGlobal ↦ .skip fun _ ↦ .choice .any .any fun name _ ↦ ?_
  refine .guard ?_ (.skip fun _ ↦ leaf_under rfl)
  refine (Under.manyWhile h.statement).bind fun body hbody ↦ .skip fun _ ↦ .node fun range ↦ ?_
  exact .of_children rfl hbody

theorem ambient_under : g.ambient.Under levels (Node.Nested false (n + 3)) := by
  have hvariables := variableDeclaration_under h .ambient
  have henum (isConst : Bool) : (g.enumeration isConst true).Under levels
      (Node.Nested false (n + 3)) :=
    (enumeration_under h isConst true).mono fun _ hnode ↦ hnode.mono (by omega)
  have hnamespace : (g.namespaceDeclaration true).Under levels (Node.Nested false (n + 3)) :=
    (namespaceDeclaration_under h true).mono fun _ hnode ↦ hnode.mono (by omega)
  unfold ambient
  refine .skip fun token ↦ ?_
  split
  · exact hvariables
  · exact hvariables
  · exact .guard (.skip fun _ ↦ henum true) hvariables
  · exact plainFunction_under h true
  · exact asyncFunction_under h true
  · exact classDeclaration_under h (by simp) false true
  · exact .skip fun _ ↦ classDeclaration_under h (by simp) true true
  · exact interface_under true
  · exact typeAlias_under true
  · exact henum false
  · exact hnamespace
  · exact hnamespace
  · exact .guard hnamespace (.fail _ _)

theorem ambientDeclaration_under :
    g.ambientDeclaration.Under levels (Node.Nested false (n + 3)) := by
  refine .skip fun start ↦ .skip fun _ ↦ (ambient_under h).bind fun node hnode ↦ .pure ?_
  exact hnode.startingAt _

theorem maybeAbstractClass_under {decorators : List Node}
    (hdecorators : ∀ node ∈ decorators, node.Nested false (n + 3)) :
    (g.maybeAbstractClass decorators).Under levels (Node.Nested false (n + 3)) :=
  .skip fun isAbstract ↦ classDeclaration_under h hdecorators isAbstract false

theorem decorated_under : g.decorated.Under levels (Node.Nested false (n + 4)) := by
  unfold decorated
  refine (decorators_under h).bind fun decorators hdecorators ↦ .skip fun start ↦ .guard ?_ ?_
  · refine .skip fun isDefault ↦ (maybeAbstractClass_under h hdecorators).bind ?_
    refine fun declaration hdeclaration ↦ .ite (.node fun range ↦ ?_) (.node fun range ↦ ?_)
    · exact .of_children rfl (by simpa [Plain.children, DefaultExport.node] using hdeclaration)
    · exact .of_children rfl (by simpa [Plain.children] using hdeclaration)
  · exact (maybeAbstractClass_under h hdecorators).mono fun _ hnode ↦ hnode.mono (Nat.le_succ _)

/-! ## Imports and exports -/

omit h in
theorem importDeclaration_under :
    g.importDeclaration.Under levels (Node.Nested false (n + 1)) := by
  unfold importDeclaration
  refine .skip fun start ↦ .skip fun _ ↦ .skip fun first ↦ .guard (.skip fun _ ↦ leaf_under rfl) ?_
  refine .skip fun typeOnly ↦ .skip ?_
  rintro ⟨defaultName, more⟩
  refine .choice .any .any fun names _ ↦ ?_
  refine .skip fun _ ↦ .whenSo ?_
  exact .skip fun source ↦ .skip fun _ ↦ .skip fun _ ↦ leaf_under rfl

theorem defaultExpression_under :
    g.defaultExpression.Under levels fun value ↦ value.node.Nested false (n + 3) :=
  h.assignment.bind fun _ hvalue ↦ .skip fun _ ↦ .pure (hvalue.mono (by omega))

theorem exportedDefault_under :
    g.exportedDefault.Under levels fun value ↦ value.node.Nested false (n + 3) := by
  have hdeclaration {declaration : Parse Node}
      (hnode : declaration.Under levels (Node.Nested false (n + 3))) :
      (do return .declaration (← declaration) : Parse (DefaultExport Node)).Under levels
        fun value ↦ value.node.Nested false (n + 3) :=
    hnode.bind fun _ hnode ↦ .pure hnode
  unfold exportedDefault
  refine .skip fun token ↦ ?_
  split
  · exact hdeclaration (plainFunction_under h false)
  · exact .guard (hdeclaration (asyncFunction_under h false)) (defaultExpression_under h)
  · exact hdeclaration (classDeclaration_under h (by simp) false false)
  · exact .skip fun _ ↦ hdeclaration (classDeclaration_under h (by simp) true false)
  · refine (decorators_under h).bind fun decorators hdecorators ↦ ?_
    exact hdeclaration (maybeAbstractClass_under h hdecorators)
  · exact hdeclaration (interface_under false)
  · exact .guard (hdeclaration (componentDeclaration_under h)) (defaultExpression_under h)
  · exact defaultExpression_under h

omit h in
theorem exportAll_under (start : Token) :
    (exportAll start).Under levels (Node.Nested false (n + 1)) := by
  unfold exportAll
  refine .skip fun typeOnly ↦ .skip fun _ ↦ .skip fun name ↦ .skip fun _ ↦ .whenSo ?_
  exact .skip fun source ↦ .skip fun _ ↦ leaf_under rfl

omit h in
theorem exportList_under (start : Token) :
    (g.exportList start).Under levels (Node.Nested false (n + 1)) := by
  unfold exportList
  refine .skip fun typeOnly ↦ .skip fun _ ↦ .skip fun specifiers ↦ .skip fun _ ↦ ?_
  exact .skip fun source ↦ .skip fun _ ↦ leaf_under rfl

theorem exportedDeclaration_under (start : Token) :
    (g.exportedDeclaration start).Under levels (Node.Nested false (n + 1)) := by
  unfold exportedDeclaration
  refine .skip fun _ ↦ .whenSo (h.statement.bind fun declaration hdeclaration ↦ ?_)
  split
  · exact .failWith _
  · exact .node fun range ↦ .of_children rfl (by simpa [Plain.children] using hdeclaration)

theorem exportDeclaration_under :
    g.exportDeclaration.Under levels (Node.Nested false (n + 4)) := by
  have hmono {action : Parse Node} (haction : action.Under levels (Node.Nested false (n + 1))) :
      action.Under levels (Node.Nested false (n + 4)) :=
    haction.mono fun _ hnode ↦ hnode.mono (by omega)
  unfold exportDeclaration
  refine .skip fun start ↦ .skip fun _ ↦ .skip fun ofTypes ↦ .guard ?_ ?_
  · refine (exportedDefault_under h).bind fun value hvalue ↦ .node fun range ↦ ?_
    exact .of_children rfl (by simpa [Plain.children] using hvalue)
  · refine .skip fun _ ↦ .skip fun _ ↦ .ite (hmono (exportAll_under start)) ?_
    refine .skip fun _ ↦ .skip fun _ ↦ .ite (hmono (exportList_under start)) ?_
    exact hmono (exportedDeclaration_under h start)

/-! ## Conditions and loops -/

theorem condition_under (keyword closing : String) :
    (g.condition keyword closing).Under levels (Node.Nested false (n + 1)) :=
  .skip fun _ ↦ (expression_under h).bind fun _ htest ↦ .skip fun _ ↦ .pure htest

theorem ifStatement_under : g.ifStatement.Under levels (Node.Nested false (n + 2)) := by
  unfold ifStatement
  refine .skip fun start ↦ .skip fun _ ↦ (condition_under h _ _).bind fun test htest ↦ ?_
  refine h.statement.bind fun consequent hconsequent ↦ ?_
  refine (Under.optionally h.statement).bind fun alternate halternate ↦ .node fun range ↦ ?_
  have hconsequent := hconsequent.mono (Nat.le_succ n)
  have halternate (node : Node) (hmem : node ∈ alternate) : node.Nested false (n + 1) :=
    (halternate node hmem).mono (Nat.le_succ n)
  exact .of_children rfl (by simpa [Plain.children] using ⟨htest, hconsequent, halternate⟩)

theorem switchCase_under (hasDefault : Bool) :
    (g.switchCase hasDefault).Under levels fun result ↦
      ∀ node ∈ result.1.children, node.Nested false (n + 1) := by
  unfold switchCase
  refine .skip fun isDefault ↦ (Under.optionally (expression_under h)).bind fun test htest ↦ ?_
  have hrest : (do
      expectMark .colon "Expected ':' after case label"
      let body ← manyWhile g.rounds beforeCase g.statement
      return (({ test := test, body := body } : SwitchCase Node), hasDefault || isDefault)).Under
      levels fun result ↦ ∀ node ∈ result.1.children, node.Nested false (n + 1) := by
    refine .skip fun _ ↦ (Under.manyWhile h.statement).bind fun body hbody ↦ .pure ?_
    have hbody (node : Node) (hmem : node ∈ body) : node.Nested false (n + 1) :=
      (hbody node hmem).mono (Nat.le_succ n)
    simpa [SwitchCase.children, or_imp, forall_and] using ⟨htest, hbody⟩
  exact .ite (.whenSo (.whenSo (.skip fun _ ↦ hrest))) hrest

theorem switchCases_under : g.switchCases.Under levels fun result ↦
    ∀ c ∈ result.1, ∀ node ∈ c.children, node.Nested false (n + 1) := by
  refine .iterate (P := fun state : List (SwitchCase Node) × Bool ↦
    ∀ c ∈ state.1, ∀ node ∈ c.children, node.Nested false (n + 1)) (fun state hstate ↦ ?_)
    g.rounds (by simp)
  refine .guard ((switchCase_under h state.2).bind ?_) (.pure hstate)
  rintro ⟨next, hasDefault⟩ hnext
  exact .pure (Under.forall_mem_concat hstate hnext)

theorem switchStatement_under : g.switchStatement.Under levels (Node.Nested false (n + 2)) := by
  unfold switchStatement
  refine .skip fun start ↦ .skip fun _ ↦ (condition_under h _ _).bind fun discriminant hvalue ↦ ?_
  refine .skip fun _ ↦ (switchCases_under h).bind ?_
  rintro ⟨cases, hasDefault⟩ hcases
  refine .skip fun _ ↦ .node fun range ↦ .of_children rfl ?_
  exact List.forall_mem_cons.mpr ⟨hvalue, List.forall_mem_flatMap.mpr hcases⟩

theorem loopInit_under : g.loopInit.Under levels (Node.Nested false (n + 3)) := by
  refine .withoutIn (.guard (variableDeclaration_under h .loopHead) (.skip fun start ↦ ?_))
  refine (expression_under h).bind fun expression hexpression ↦ .node fun range ↦ ?_
  have hexpression := hexpression.mono (Nat.le_succ (n + 1))
  exact .of_children rfl (by simpa [Plain.children] using hexpression)

theorem countedLoop_under (start : Token) {init : Option Node}
    (hinit : ∀ node ∈ init, node.Nested false (n + 3)) :
    (g.countedLoop start init).Under levels (Node.Nested false (n + 4)) := by
  have hexpression {part : Option Node} (hpart : ∀ node ∈ part, node.Nested false (n + 1)) :
      ∀ node ∈ part, node.Nested false (n + 3) :=
    fun node hmem ↦ (hpart node hmem).mono (by omega)
  unfold countedLoop
  refine .skip fun _ ↦ (Under.optionally (expression_under h)).bind fun test htest ↦ ?_
  refine .skip fun _ ↦ (Under.optionally (expression_under h)).bind fun update hupdate ↦ ?_
  refine .skip fun _ ↦ h.statement.bind fun body hbody ↦ .node fun range ↦ ?_
  have hbody := hbody.mono (by omega : n ≤ n + 3)
  refine .of_children rfl ?_
  simpa [Plain.children, or_imp, forall_and] using
    ⟨hinit, hexpression htest, hexpression hupdate, hbody⟩

theorem collectionLoop_under (start : Token) {left : Node} (hleft : left.Nested false (n + 3))
    (isAwait : Bool) :
    (g.collectionLoop start left isAwait).Under levels (Node.Nested false (n + 4)) := by
  unfold collectionLoop
  refine .skip fun isOf ↦ .skip fun _ ↦ .choice (R := Node.Nested false (n + 3)) ?_ ?_ ?_
  · exact h.assignment.mono fun _ hnode ↦ hnode.mono (by omega)
  · exact (expression_under h).mono fun _ hnode ↦ hnode.mono (by omega)
  · refine fun right hright ↦ .skip fun _ ↦ h.statement.bind fun body hbody ↦ .node fun range ↦ ?_
    have hbody := hbody.mono (by omega : n ≤ n + 3)
    exact .of_children rfl (by simpa [Plain.children] using ⟨hleft, hright, hbody⟩)

theorem forStatement_under : g.forStatement.Under levels (Node.Nested false (n + 4)) := by
  unfold forStatement
  refine .skip fun start ↦ .skip fun _ ↦ .skip fun isAwait ↦ .skip fun _ ↦ .guard ?_ ?_
  · exact countedLoop_under h start (by simp)
  · refine (loopInit_under h).bind fun init hinit ↦ .skip fun _ ↦ .skip fun _ ↦ .ite ?_ ?_
    · exact collectionLoop_under h start hinit isAwait
    · exact countedLoop_under h start (by simpa using hinit)

theorem whileStatement_under : g.whileStatement.Under levels (Node.Nested false (n + 2)) := by
  unfold whileStatement
  refine .skip fun start ↦ .skip fun _ ↦ (condition_under h _ _).bind fun test htest ↦ ?_
  refine h.statement.bind fun body hbody ↦ .node fun range ↦ .of_children rfl ?_
  simpa [Plain.children] using ⟨htest, hbody.mono (Nat.le_succ n)⟩

theorem doWhileStatement_under : g.doWhileStatement.Under levels (Node.Nested false (n + 2)) := by
  unfold doWhileStatement
  refine .skip fun start ↦ .skip fun _ ↦ h.statement.bind fun body hbody ↦ .skip fun _ ↦ ?_
  refine (condition_under h _ _).bind fun test htest ↦ .skip fun _ ↦ .node fun range ↦ ?_
  exact .of_children rfl (by simpa [Plain.children] using ⟨hbody.mono (Nat.le_succ n), htest⟩)

/-! ## Jumps -/

omit h in
theorem jump_under (isBreak : Bool) : (jump isBreak).Under levels (Node.Nested false (n + 1)) := by
  unfold jump
  refine .skip fun start ↦ .skip fun _ ↦ .skip fun _ ↦ .skip fun _ ↦ .skip fun label ↦ ?_
  exact .skip fun _ ↦ leaf_under rfl

theorem returnStatement_under : g.returnStatement.Under levels (Node.Nested false (n + 2)) := by
  unfold returnStatement
  refine .skip fun start ↦ .skip fun _ ↦ .skip fun _ ↦ .skip fun _ ↦ .skip fun _ ↦ ?_
  refine (Under.optionally (expression_under h)).bind fun argument hargument ↦ .skip fun _ ↦ ?_
  exact .node fun range ↦ .of_children rfl (by simpa [Plain.children] using hargument)

theorem throwStatement_under : g.throwStatement.Under levels (Node.Nested false (n + 2)) := by
  unfold throwStatement
  refine .skip fun start ↦ .skip fun _ ↦ .skip fun _ ↦ .whenSo ?_
  refine (expression_under h).bind fun argument hargument ↦ .skip fun _ ↦ .node fun range ↦ ?_
  exact .of_children rfl (by simpa [Plain.children] using hargument)

theorem catchParam_under : g.catchParam.Under levels fun result ↦
    ∀ node ∈ result.1, node.Nested true (n + 2) := by
  refine .guard (h.bindingTarget.bind fun param hparam ↦ ?_) (.pure (by simp))
  exact .skip fun type ↦ .skip fun _ ↦ .pure (by simpa using hparam)

theorem tryStatement_under : g.tryStatement.Under levels (Node.Nested false (n + 3)) := by
  unfold tryStatement
  refine .skip fun start ↦ .skip fun _ ↦ (block_under h).bind fun block hblock ↦ ?_
  have hhandler : (do
      let param ← g.catchParam
      return (param, ← g.block) : Parse ((Option Node × Bytes) × Node)).Under levels fun clause ↦
        (∀ node ∈ clause.1.1, node.Nested true (n + 2)) ∧ clause.2.Nested false (n + 2) := by
    refine (catchParam_under h).bind fun param hparam ↦ ?_
    refine (block_under h).bind fun handler hhandler ↦ ?_
    exact .pure ⟨hparam, hhandler.mono (Nat.le_succ _)⟩
  refine (Under.optionally hhandler).bind fun clause hclause ↦ ?_
  refine (Under.optionally (block_under h)).bind fun finalizer hfinalizer ↦ .whenSo ?_
  refine .node fun range ↦ .plain (by omega) ?_
  have hblock := hblock.mono (Nat.le_succ _)
  have hfinalizer (node : Node) (hmem : node ∈ finalizer) : node.Nested false (n + 2) :=
    (hfinalizer node hmem).mono (Nat.le_succ _)
  cases clause with
  | none => simpa [Plain.branches, TryShape.branches] using ⟨hblock, hfinalizer⟩
  | some clause =>
    obtain ⟨hparam, hhandler⟩ := hclause clause rfl
    simpa [Plain.branches, TryShape.branches] using ⟨hblock, hparam, hhandler, hfinalizer⟩

/-! ## All statements -/

theorem expressionStatement_under :
    g.expressionStatement.Under levels (Node.Nested false (n + 2)) := by
  refine .skip fun start ↦ (expression_under h).bind fun expression hexpression ↦ .skip fun _ ↦ ?_
  exact .node fun range ↦ .of_children rfl (by simpa [Plain.children] using hexpression)

theorem labeledStatement_under : g.labeledStatement.Under levels (Node.Nested false (n + 1)) := by
  refine .skip fun start ↦ .skip fun _ ↦ .skip fun _ ↦ h.statement.bind fun body hbody ↦ ?_
  exact .node fun range ↦ .of_children rfl (by simpa [Plain.children] using hbody)

theorem contextual_under {fits : Parse Bool} {declaration : Parse Node}
    (hdeclaration : declaration.Under levels (Node.Nested false (n + 4))) :
    (g.contextual fits declaration).Under levels (Node.Nested false (n + 4)) :=
  .guard hdeclaration ((expressionStatement_under h).mono fun _ hnode ↦ hnode.mono (by omega))

end NestsAt

/-! ## From one level to the next -/

section Nests

variable (h : g.Nests)
include h

theorem elementStep_under (levels : Nat) :
    g.elementStep.Under levels (Node.Nested false (7 * levels)) := by
  refine .nested fun fewer hlevels ↦ ?_
  subst hlevels
  have h := h fewer
  have hmono {action : Parse Node}
      (haction : action.Under fewer (Node.Nested false (7 * fewer + 3))) :
      action.Under fewer (Node.Nested false (7 * fewer + 7)) :=
    haction.mono fun _ hnode ↦ hnode.mono (by omega)
  refine .skip fun start ↦ .guard (hmono (fragmentRest_under h start)) (.skip fun tag ↦ ?_)
  refine (Under.manyWhile (markupAttribute_under h)).bind fun attributes hattributes ↦ ?_
  refine hmono (.guard (.surface fun range ↦ ?_) (elementRest_under h start tag hattributes))
  exact .of_surface_children rfl (by simpa [Surface.children] using hattributes)

theorem statementStep_under (levels : Nat) :
    g.statementStep.Under levels (Node.Nested false (7 * levels)) := by
  refine .nested fun fewer hlevels ↦ ?_
  subst hlevels
  have h := h fewer
  suffices hstatement : Under fewer _ (Node.Nested false (7 * fewer + 4)) from
    hstatement.mono fun _ hnode ↦ hnode.mono (by omega)
  have hmono {action : Parse Node} {k : Nat}
      (haction : action.Under fewer (Node.Nested false (7 * fewer + k))) (hk : k ≤ 4) :
      action.Under fewer (Node.Nested false (7 * fewer + 4)) :=
    haction.mono fun _ hnode ↦ hnode.mono (by omega)
  have hvariables := hmono (variableDeclaration_under h .statement) (by omega)
  have hexpression := hmono (expressionStatement_under h) (by omega)
  refine .skip fun start ↦ ?_
  split
  · exact hmono (block_under h) (by omega)
  · exact .skip fun _ ↦ leaf_under rfl
  · exact .guard (.skip fun _ ↦ hmono (enumeration_under h true false) (by omega)) hvariables
  · exact hvariables
  · exact contextual_under h hvariables
  · exact hmono (plainFunction_under h false) (by omega)
  · exact contextual_under h (hmono (asyncFunction_under h false) (by omega))
  · exact hmono (classDeclaration_under h (by simp) false false) (by omega)
  · exact contextual_under h (hmono (maybeAbstractClass_under h (by simp)) (by omega))
  · exact decorated_under h
  · exact contextual_under h (hmono (interface_under false) (by omega))
  · exact contextual_under h (hmono (typeAlias_under false) (by omega))
  · exact hmono (enumeration_under h false false) (by omega)
  · exact contextual_under h (hmono (namespaceDeclaration_under h false) (by omega))
  · exact contextual_under h (hmono (namespaceDeclaration_under h false) (by omega))
  · exact contextual_under h (hmono (ambientDeclaration_under h) (by omega))
  · exact contextual_under h (hmono (componentDeclaration_under h) (by omega))
  · refine .skip fun _ ↦ .skip fun _ ↦ .ite hexpression ?_
    exact hmono importDeclaration_under (by omega)
  · exact exportDeclaration_under h
  · exact hmono (ifStatement_under h) (by omega)
  · exact hmono (switchStatement_under h) (by omega)
  · exact forStatement_under h
  · exact hmono (whileStatement_under h) (by omega)
  · exact hmono (doWhileStatement_under h) (by omega)
  · exact hmono (jump_under true) (by omega)
  · exact hmono (jump_under false) (by omega)
  · exact hmono (returnStatement_under h) (by omega)
  · exact hmono (throwStatement_under h) (by omega)
  · exact hmono (tryStatement_under h) (by omega)
  · exact .skip fun _ ↦ .skip fun _ ↦ leaf_under rfl
  · exact contextual_under h (hmono (labeledStatement_under h) (by omega))
  · exact hexpression

end Nests

theorem grammar_nests (level : Nat) : (grammar level).Nests := by
  induction level with
  | zero =>
    exact fun levels ↦ ⟨.failWith _, .failWith _, .failWith _, .failWith _, fun _ ↦ .failWith _,
      .failWith _, .failWith _, .failWith _⟩
  | succ level ih =>
    exact fun levels ↦ {
      statement := statementStep_under ih levels
      assignment := assignmentStep_under ih levels
      element := elementStep_under ih levels
      unary := unaryStep_under ih levels
      binary := binaryStep_under (ih levels)
      construction := constructionStep_under (ih levels)
      primary := primaryStep_under (ih levels)
      bindingTarget := bindingTargetStep_under (ih levels) }

end SignalView.Grammar

namespace SignalView.Program

open Parse Branch

/-- Statements that nest up to a bound make a program of such statements. -/
theorem statements_nested {statement : Parse Node} {options : Options} {context : ParseContext}
    {rounds n : Nat} {progress result : Progress}
    (hstatement : statement.Under (context.maxDepth - context.depth).toNat (Node.Nested false n))
    (hbody : ∀ node ∈ progress.body, node.Nested false n)
    (hrun : statements statement options context rounds progress = .ok result) :
    ∀ node ∈ result.body, node.Nested false n := by
  induction rounds generalizing progress with
  | zero =>
    cases hrun
    exact hbody
  | succ rounds ih =>
    unfold statements at hrun
    split at hrun
    · cases hrun
      exact hbody
    · split at hrun
      · exact ih (Under.forall_mem_concat hbody (hstatement rfl ‹_›)) hrun
      · split at hrun
        · dsimp only at hrun
          split at hrun
          · cases hrun
            exact hbody
          · refine ih ?_ hrun
            exact hbody
        · cases hrun

/-- The limit on nesting bounds a program in which chained constructs do not count. -/
theorem parse_nested {options : Options} {tokens : List Token} {parsed : Parsed}
    (h : parse options tokens = .ok parsed) :
    parsed.root.Nested false (7 * options.maxDepth.toNat + 1) := by
  unfold parse at h
  generalize splitFinal tokens = split at h
  change (statements _ _ _ _ _ >>= _) = _ at h
  generalize hrun : statements _ _ _ _ _ = result at h
  cases result with
  | error => cases h
  | ok progress =>
    obtain rfl := Except.ok.inj h
    have hstatement := (Grammar.grammar_nests (levelsPerToken * (split.1.length + 1))
      options.maxDepth.toNat).statement
    refine .of_surface_children rfl (statements_nested (by simpa using hstatement) ?_ hrun)
    exact List.forall_mem_nil _

/-- Patterns take up no levels of nesting, so ten of them are read under the limit one. -/
theorem parse_nested_patterns :
    ∃ parsed, parse { maxDepth := 1 }
        (tokenize {} (bytes "let [[[[[[[[[[a]]]]]]]]]];")).lexer.tokenList = .ok parsed ∧
      parsed.root.Nested false 8 := by
  have hparses : (parse { maxDepth := 1 }
      (tokenize {} (bytes "let [[[[[[[[[[a]]]]]]]]]];")).lexer.tokenList).toOption.isSome := by
    decide +kernel
  generalize hparse : parse { maxDepth := 1 } _ = result at hparses
  cases result with
  | error => cases hparses
  | ok parsed => exact ⟨parsed, rfl, parse_nested hparse⟩

end SignalView.Program
