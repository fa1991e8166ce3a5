import SignalView.Proofs.Grammar.Attempts
import SignalView.Proofs.Grammar.TypedExpressions
import SignalView.Proofs.Grammar.TypeTexts

/-!
# Types in programs

Declarations and statements keep the types that the grammar gives as well, so the types of a program
are bracketed up to the names and the stretches of tokens that are copied into them.
-/

namespace SignalView

namespace Grammar

open Parse Tape

variable {tape : Tape} {p : Nat} {g : Grammar} {T : Bytes → Prop}

section Annotates

variable (h : tape.Annotates g T)
include h

/-! ## Variables, functions and components -/

theorem declarator_typed (place : VariablePlace) (keyword : Bytes) :
    tape.Provides p (g.declarator place keyword) fun result ↦ result.1.Typed T := by
  refine (h.bindingTarget p).bind fun target q htarget ↦ .ask (.ask (.whenSo fun r ↦ ?_))
  refine (annotation_typed h).bind fun type s htype ↦ .ask (.ask ?_)
  have hbare (definite : Bool) :
      ({ target := target, type := type, definite := definite } : Declarator Node).Typed T :=
    ⟨htype, by simpa [Declarator.children] using htarget⟩
  refine .ite (fun _ ↦ .pure (hbare _)) fun _ ↦ .test (fun _ ↦ ?_) ?_
  · refine (h.assignment _).bind fun value t hvalue ↦ .pure ⟨htype, ?_⟩
    simpa [Declarator.children] using ⟨htarget, hvalue⟩
  · exact .ite (fun _ ↦ .fail _ _) fun _ ↦ .pure (hbare _)

theorem declarators_typed (place : VariablePlace) (keyword : Bytes) :
    tape.Provides p (g.declarators place keyword) fun result ↦ ∀ d ∈ result.1, d.Typed T := by
  refine .iterate (P := fun state : List (Declarator Node) × Bool ↦ ∀ d ∈ state.1, d.Typed T)
    (fun state q hstate ↦ (declarator_typed h place keyword).bind ?_) (by simp)
  rintro ⟨next, mayContinue⟩ r hnext
  have hmore := Under.forall_mem_concat hstate hnext
  exact .ite (fun _ ↦ .skip fun _ _ ↦ .pure hmore) fun _ ↦ .pure hmore

theorem variableDeclaration_typed (place : VariablePlace) :
    tape.Provides p (g.variableDeclaration place) (Node.Typed T) := by
  refine .ask (.skip fun _ q ↦ (declarators_typed h place _).bind ?_)
  rintro ⟨declarators, mayContinue⟩ r hdeclarators
  refine .whenSo fun s ↦ .node fun _ ↦ .plain ?_ ?_
  · exact List.forall_mem_map.mpr fun d hd ↦ (hdeclarators d hd).1
  · exact List.forall_mem_flatMap.mpr fun d hd ↦ (hdeclarators d hd).2

theorem functionDeclaration_typed (start : Token) (mayBeAnonymous isAsync isDeclare : Bool) :
    tape.Provides p (g.functionDeclaration start mayBeAnonymous isAsync isDeclare)
      (Node.Typed T) := by
  refine .skip fun _ q ↦ .skip fun isGenerator r ↦ .ask (.whenSo fun s ↦ .skip fun name t ↦ ?_)
  refine (signature_typed h _).bind fun f u ⟨_, hf⟩ ↦ .ask ?_
  refine (Provides.optionally fun _ ↦ block_typed h).bind fun body v hbody ↦ .whenSo fun w ↦ ?_
  exact .node fun _ ↦ .plain (hf body hbody).1 (hf body hbody).2

theorem plainFunction_typed (isDeclare : Bool) :
    tape.Provides p (g.plainFunction isDeclare) (Node.Typed T) :=
  .ask (.ask (functionDeclaration_typed h _ _ _ _))

theorem asyncFunction_typed (isDeclare : Bool) :
    tape.Provides p (g.asyncFunction isDeclare) (Node.Typed T) :=
  .ask (.ask (.skip fun _ _ ↦ functionDeclaration_typed h _ _ _ _))

theorem componentDeclaration_typed : tape.Provides p g.componentDeclaration (Node.Typed T) := by
  refine .ask (.skip fun _ q ↦ .skip fun name r ↦ (signature_typed h _).bind fun f s ⟨_, hf⟩ ↦ ?_)
  refine .ask (.whenSo fun t ↦ (block_typed h).bind fun body u hbody ↦ .surface fun _ ↦ ?_)
  have hf := hf (some body) (by simpa using hbody)
  exact .surface hf.1 hf.2

/-! ## Other declarations -/

/-- Types behind a word, which may be missing. -/
theorem typeList_typed {w : Word} {β : Type} {Q : β → Prop} {next : List Bytes → Parse β}
    (hnext : ∀ types q, (∀ type ∈ types, T type) → tape.Provides q (next types) Q) :
    tape.Provides p (do
      if ← acceptWord w then
        let types ← separated g.rounds .comma g.type
        next types
      else next []) Q :=
  .test (fun _ ↦ (Provides.separated h.type).bind hnext) (hnext [] p (List.forall_mem_nil _))

theorem interface_typed (isDeclare : Bool) :
    tape.Provides p (g.interface isDeclare) (Node.Typed T) := by
  refine .ask (.skip fun _ q ↦ .skip fun name r ↦ ?_)
  refine (optionalTypeParameters_typed h).bind fun types s htypes ↦ ?_
  refine typeList_typed h fun extended t hextended ↦ .skip fun _ u ↦ ?_
  refine (h.typeMembers u).bind fun members v hmembers ↦ .skip fun _ w ↦ .node fun _ ↦ ?_
  refine .plain (List.forall_mem_cons.mpr ⟨htypes, ?_⟩) (List.forall_mem_nil _)
  exact List.forall_mem_append.mpr ⟨hextended, hmembers⟩

theorem typeAlias_typed (isDeclare : Bool) :
    tape.Provides p (g.typeAlias isDeclare) (Node.Typed T) := by
  refine .ask (.skip fun _ q ↦ .skip fun name r ↦ ?_)
  refine (optionalTypeParameters_typed h).bind fun types s htypes ↦ .skip fun _ t ↦ ?_
  refine (h.type t).bind fun type u htype ↦ .skip fun _ v ↦ .node fun _ ↦ ?_
  exact .plain (by simpa [Plain.typeTexts] using ⟨htypes, htype⟩) (List.forall_mem_nil _)

theorem enumMember_typed :
    tape.Provides p g.enumMember fun m ↦ ∀ node ∈ m.init, node.Typed T := by
  refine .ask (.whenSo fun q ↦ .skip fun _ r ↦ (initial_typed h).bind fun init s hinit ↦ ?_)
  exact .pure hinit

theorem enumeration_typed (isConst isDeclare : Bool) :
    tape.Provides p (g.enumeration isConst isDeclare) (Node.Typed T) := by
  refine .choose (P := fun _ ↦ True) (fun _ ↦ Stays.provides p) (fun _ ↦ Stays.provides p) ?_
  refine fun start q _ ↦ .skip fun _ r ↦ .skip fun name s ↦ .skip fun _ t ↦ ?_
  refine (Provides.commaList fun u _ ↦ enumMember_typed h).bind fun members u hmembers ↦ ?_
  refine .skip fun _ v ↦ .node fun _ ↦ .of_parts rfl (List.forall_mem_flatMap.mpr ?_)
  exact fun m hm ↦ by simpa using hmembers m hm

omit h in
instance namespaceName_stays : tape.Stays g.namespaceName where
  provides _ := .ask (.test (fun _ ↦ .pure trivial)
    (.skip fun _ _ ↦ .skip fun _ _ ↦ .pure trivial))

theorem namespaceDeclaration_typed (isDeclare : Bool) :
    tape.Provides p (g.namespaceDeclaration isDeclare) (Node.Typed T) := by
  refine .ask (.ask (.skip fun _ q ↦ .choose (P := fun _ ↦ True) (fun _ ↦ .pure trivial)
    (fun _ ↦ Stays.provides q) fun name r _ ↦ .test (fun _ ↦ ?_) ?_))
  · refine (Provides.manyWhile fun s _ ↦ h.statement _).bind fun body s hbody ↦ ?_
    exact .skip fun _ t ↦ .node fun _ ↦ .of_parts rfl hbody
  · exact .skip fun _ s ↦ leafNode_typed rfl rfl

theorem ambient_typed : tape.Provides p g.ambient (Node.Typed T) := by
  have hclass {q : Nat} (isAbstract : Bool) :
      tape.Provides q (g.classDeclaration [] isAbstract true) (Node.Typed T) :=
    classDeclaration_typed h (List.forall_mem_nil _) isAbstract true
  refine .ask ?_
  split
  · exact variableDeclaration_typed h .ambient
  · exact variableDeclaration_typed h .ambient
  · refine .test (fun _ ↦ .skip fun _ q ↦ ?_) (variableDeclaration_typed h .ambient)
    exact enumeration_typed h true true
  · exact plainFunction_typed h true
  · exact asyncFunction_typed h true
  · exact hclass false
  · exact .skip fun _ q ↦ hclass true
  · exact interface_typed h true
  · exact typeAlias_typed h true
  · exact enumeration_typed h false true
  · exact namespaceDeclaration_typed h true
  · exact namespaceDeclaration_typed h true
  · exact .test (fun _ ↦ namespaceDeclaration_typed h true) (.fail _ _)

theorem ambientDeclaration_typed : tape.Provides p g.ambientDeclaration (Node.Typed T) :=
  .ask (.skip fun _ _ ↦ (ambient_typed h).bind fun _ _ hnode ↦ .pure (hnode.startingAt _))

theorem maybeAbstractClass_typed {decorators : List Node}
    (hdecorators : ∀ node ∈ decorators, node.Typed T) :
    tape.Provides p (g.maybeAbstractClass decorators) (Node.Typed T) :=
  .skip fun isAbstract _ ↦ classDeclaration_typed h hdecorators isAbstract false

omit h in
theorem exportDefault_typed {range : Range} {value : DefaultExport Node}
    (hvalue : value.node.Typed T) : (Node.plain range (.exportDefault value)).Typed T :=
  .of_parts rfl (by simpa [Plain.children] using hvalue)

omit h in
theorem exportNamed_typed {range : Range} {declaration : Node} (hnode : declaration.Typed T) :
    (Node.plain range (.exportNamed (some declaration) [] [] false)).Typed T :=
  .of_parts rfl (by simpa [Plain.children] using hnode)

theorem decorated_typed : tape.Provides p g.decorated (Node.Typed T) := by
  refine (decorators_typed h).bind fun decorators q hdecorators ↦ .ask (.test (fun _ ↦ ?_) ?_)
  · refine .skip fun isDefault r ↦ (maybeAbstractClass_typed h hdecorators).bind ?_
    refine fun node s hnode ↦ .ite (fun _ ↦ .node fun _ ↦ ?_) fun _ ↦ .node fun _ ↦ ?_
    · exact exportDefault_typed hnode
    · exact exportNamed_typed hnode
  · exact maybeAbstractClass_typed h hdecorators

/-! ## Imports and exports -/

instance exchangedName_stays : tape.Stays exchangedName :=
  .of_reads fun _ ↦ exchangedName_passes

instance acceptTypeOnly_stays : tape.Stays acceptTypeOnly :=
  .of_reads fun _ ↦ acceptTypeOnly_skips

instance importDefault_stays : tape.Stays importDefault := .of_reads fun _ ↦ importDefault_skips

instance importAttributes_stays : tape.Stays importAttributes :=
  .of_reads fun _ ↦ importAttributes_skips

instance modulePath_stays : tape.Stays modulePath := .of_reads fun _ ↦ modulePath_passes

omit h in
instance importNames_stays : tape.Stays g.importNames where
  provides _ := by
    refine .test (fun _ ↦ .skip fun _ _ ↦ .skip fun _ _ ↦ .pure trivial)
      (.test (fun _ ↦ ?_) (.fail _ _))
    refine (Provides.commaList (Q := fun _ ↦ True) fun q _ ↦ ?_).bind
      fun _ _ _ ↦ .skip fun _ _ ↦ .pure trivial
    exact importSpecifier_passes.provides.any

omit h in
theorem importDeclaration_typed : tape.Provides p g.importDeclaration (Node.Typed T) := by
  refine .ask (.skip fun _ q ↦ .ask (.test (fun _ ↦ .skip fun _ r ↦ leafNode_typed rfl rfl) ?_))
  refine .skip fun typeOnly r ↦ .skip ?_
  rintro ⟨defaultName, more⟩ s
  refine .choose (P := fun _ ↦ True) (fun _ ↦ Stays.provides s) (fun _ ↦ .pure trivial) ?_
  rintro ⟨namespaceName, specifiers⟩ t -
  refine .skip fun hasFrom u ↦ .whenSo fun v ↦ .skip fun source w ↦ ?_
  exact .skip fun _ x ↦ .skip fun _ y ↦ leafNode_typed rfl rfl

theorem defaultExpression_typed :
    tape.Provides p g.defaultExpression fun value ↦ value.node.Typed T :=
  (h.assignment p).bind fun _ _ hvalue ↦ .skip fun _ _ ↦ .pure hvalue

omit h in
theorem defaultDeclaration_typed {action : Parse Node}
    (haction : tape.Provides p action (Node.Typed T)) :
    tape.Provides p (do return .declaration (← action) : Parse (DefaultExport Node))
      fun value ↦ value.node.Typed T :=
  haction.bind fun _ _ hnode ↦ .pure hnode

theorem exportedDefault_typed :
    tape.Provides p g.exportedDefault fun value ↦ value.node.Typed T := by
  have hclass {q : Nat} (isAbstract : Bool) :
      tape.Provides q (g.classDeclaration [] isAbstract false) (Node.Typed T) :=
    classDeclaration_typed h (List.forall_mem_nil _) isAbstract false
  refine .ask ?_
  split
  · exact defaultDeclaration_typed (plainFunction_typed h false)
  · refine .test (fun _ ↦ ?_) (defaultExpression_typed h)
    exact defaultDeclaration_typed (asyncFunction_typed h false)
  · exact defaultDeclaration_typed (hclass false)
  · exact .skip fun _ q ↦ defaultDeclaration_typed (hclass true)
  · refine (decorators_typed h).bind fun decorators q hdecorators ↦ ?_
    exact defaultDeclaration_typed (maybeAbstractClass_typed h hdecorators)
  · exact defaultDeclaration_typed (interface_typed h false)
  · refine .test (fun _ ↦ ?_) (defaultExpression_typed h)
    exact defaultDeclaration_typed (componentDeclaration_typed h)
  · exact defaultExpression_typed h

omit h in
theorem exportAll_typed (start : Token) : tape.Provides p (exportAll start) (Node.Typed T) := by
  refine .skip fun typeOnly q ↦ .skip fun _ r ↦ .skip fun name s ↦ .skip fun hasFrom t ↦ ?_
  refine .whenSo fun u ↦ .skip fun source v ↦ .skip fun _ w ↦ ?_
  exact leafNode_typed rfl rfl

omit h in
theorem exportList_typed (start : Token) : tape.Provides p (g.exportList start) (Node.Typed T) := by
  refine .skip fun typeOnly q ↦ .skip fun _ r ↦ ?_
  refine (Provides.commaList (Q := fun _ ↦ True) fun s _ ↦ ?_).bind fun specifiers s _ ↦ ?_
  · exact exportSpecifier_passes.provides.any
  · exact .skip fun _ t ↦ .skip fun source u ↦ .skip fun _ v ↦ leafNode_typed rfl rfl

theorem exportedDeclaration_typed (start : Token) :
    tape.Provides p (g.exportedDeclaration start) (Node.Typed T) := by
  refine .ask (.whenSo fun q ↦ (h.statement q).bind fun declaration r hdeclaration ↦ ?_)
  split
  · exact .failWith _
  · exact .node fun _ ↦ exportNamed_typed hdeclaration

theorem exportDeclaration_typed : tape.Provides p g.exportDeclaration (Node.Typed T) := by
  refine .ask (.skip fun _ q ↦ .ask (.test (fun _ ↦ ?_) (.ask (.ask (.ite (fun _ ↦ ?_)
    fun _ ↦ .ask (.ask (.ite (fun _ ↦ ?_) fun _ ↦ ?_)))))))
  · exact (exportedDefault_typed h).bind fun value r hvalue ↦ .node fun _ ↦
      exportDefault_typed hvalue
  · exact exportAll_typed _
  · exact exportList_typed _
  · exact exportedDeclaration_typed h _

/-! ## Conditions and loops -/

theorem condition_typed (keyword closing : String) :
    tape.Provides p (g.condition keyword closing) (Node.Typed T) :=
  .skip fun _ _ ↦ (expression_typed h).bind fun _ _ htest ↦ .skip fun _ _ ↦ .pure htest

theorem ifStatement_typed : tape.Provides p g.ifStatement (Node.Typed T) := by
  refine .ask (.skip fun _ q ↦ (condition_typed h _ _).bind fun test r htest ↦ ?_)
  refine (h.statement r).bind fun consequent s hconsequent ↦ ?_
  refine (Provides.optionally fun _ ↦ h.statement _).bind fun alternate t halternate ↦ ?_
  refine .node fun _ ↦ .of_parts rfl ?_
  simpa [Plain.children] using ⟨htest, hconsequent, halternate⟩

theorem switchCase_typed (hasDefault : Bool) : tape.Provides p (g.switchCase hasDefault)
    fun result ↦ ∀ node ∈ result.1.children, node.Typed T := by
  refine .ask ((Provides.optionally fun _ ↦ expression_typed h).bind fun test q htest ↦ ?_)
  have hrest (r : Nat) : tape.Provides r (do
      expectMark .colon "Expected ':' after case label"
      let body ← manyWhile g.rounds beforeCase g.statement
      return (({ test := test, body := body } : SwitchCase Node),
        hasDefault || tape.kind p == .word .default)) fun result ↦
      ∀ node ∈ result.1.children, node.Typed T := by
    refine .skip fun _ s ↦ (Provides.manyWhile fun t _ ↦ h.statement _).bind fun body t hbody ↦ ?_
    exact .pure (List.forall_mem_append.mpr ⟨by simpa using htest, hbody⟩)
  exact .ite (fun _ ↦ .whenSo fun r ↦ .whenSo fun s ↦ .skip fun _ t ↦ hrest t) fun _ ↦ hrest q

theorem switchCases_typed : tape.Provides p g.switchCases fun result ↦
    ∀ c ∈ result.1, ∀ node ∈ c.children, node.Typed T := by
  refine .iterate (P := fun state : List (SwitchCase Node) × Bool ↦
    ∀ c ∈ state.1, ∀ node ∈ c.children, node.Typed T) (fun state q hstate ↦ ?_) (by simp)
  refine .test (fun _ ↦ (switchCase_typed h state.2).bind ?_) (.pure hstate)
  rintro ⟨next, hasDefault⟩ r hnext
  exact .pure (Under.forall_mem_concat hstate hnext)

theorem switchStatement_typed : tape.Provides p g.switchStatement (Node.Typed T) := by
  refine .ask (.skip fun _ q ↦ (condition_typed h _ _).bind fun discriminant r hvalue ↦ ?_)
  refine .skip fun _ s ↦ (switchCases_typed h).bind ?_
  rintro ⟨cases, hasDefault⟩ t hcases
  refine .skip fun _ u ↦ .node fun _ ↦ .of_parts rfl ?_
  exact List.forall_mem_cons.mpr ⟨hvalue, List.forall_mem_flatMap.mpr hcases⟩

theorem loopInit_typed : tape.Provides p g.loopInit (Node.Typed T) := by
  refine .withoutIn (.test (fun _ ↦ variableDeclaration_typed h .loopHead) (.ask ?_))
  refine (expression_typed h).bind fun expression q hexpression ↦ .node fun _ ↦ ?_
  exact .of_parts rfl (by simpa [Plain.children] using hexpression)

theorem countedLoop_typed (start : Token) {init : Option Node}
    (hinit : ∀ node ∈ init, node.Typed T) :
    tape.Provides p (g.countedLoop start init) (Node.Typed T) := by
  refine .skip fun _ q ↦ (Provides.optionally fun _ ↦ expression_typed h).bind fun test r htest ↦ ?_
  refine .skip fun _ s ↦ (Provides.optionally fun _ ↦ expression_typed h).bind ?_
  refine fun update t hupdate ↦ .skip fun _ u ↦ (h.statement u).bind fun body v hbody ↦ ?_
  refine .node fun _ ↦ .of_parts rfl ?_
  simpa [Plain.children, or_imp, forall_and] using ⟨hinit, htest, hupdate, hbody⟩

theorem collectionLoop_typed (start : Token) {left : Node} (hleft : left.Typed T) (isAwait : Bool) :
    tape.Provides p (g.collectionLoop start left isAwait) (Node.Typed T) := by
  refine .ask (.skip fun _ q ↦ .choose (fun _ ↦ h.assignment q) (fun _ ↦ expression_typed h) ?_)
  refine fun right r hright ↦ .skip fun _ s ↦ (h.statement s).bind fun body t hbody ↦ ?_
  exact .node fun _ ↦ .of_parts rfl (by simpa [Plain.children] using ⟨hleft, hright, hbody⟩)

theorem forStatement_typed : tape.Provides p g.forStatement (Node.Typed T) := by
  refine .ask (.skip fun _ q ↦ .skip fun isAwait r ↦ .skip fun _ s ↦ .test (fun _ ↦ ?_) ?_)
  · exact countedLoop_typed h _ (by simp)
  · refine (loopInit_typed h).bind fun init t hinit ↦ .ask (.ask (.ite (fun _ ↦ ?_) fun _ ↦ ?_))
    · exact collectionLoop_typed h _ hinit isAwait
    · exact countedLoop_typed h _ (by simpa using hinit)

theorem whileStatement_typed : tape.Provides p g.whileStatement (Node.Typed T) := by
  refine .ask (.skip fun _ q ↦ (condition_typed h _ _).bind fun test r htest ↦ ?_)
  refine (h.statement r).bind fun body s hbody ↦ .node fun _ ↦ .of_parts rfl ?_
  simpa [Plain.children] using ⟨htest, hbody⟩

theorem doWhileStatement_typed : tape.Provides p g.doWhileStatement (Node.Typed T) := by
  refine .ask (.skip fun _ q ↦ (h.statement q).bind fun body r hbody ↦ .skip fun _ s ↦ ?_)
  refine (condition_typed h _ _).bind fun test t htest ↦ .skip fun _ u ↦ .node fun _ ↦ ?_
  exact .of_parts rfl (by simpa [Plain.children] using ⟨hbody, htest⟩)

/-! ## Jumps and failures -/

omit h in
theorem jump_typed (isBreak : Bool) : tape.Provides p (jump isBreak) (Node.Typed T) :=
  .ask (.skip fun _ _ ↦ .ask (.ask (.skip fun _ _ ↦ .skip fun _ _ ↦ leafNode_typed rfl rfl)))

theorem returnStatement_typed : tape.Provides p g.returnStatement (Node.Typed T) := by
  refine .ask (.skip fun _ q ↦ .ask (.ask (.ask ?_)))
  refine (Provides.optionally fun _ ↦ expression_typed h).bind fun argument r hargument ↦ ?_
  refine .skip fun _ s ↦ .node fun _ ↦ .of_parts rfl ?_
  simpa [Plain.children] using hargument

theorem throwStatement_typed : tape.Provides p g.throwStatement (Node.Typed T) := by
  refine .ask (.skip fun _ q ↦ .ask (.whenSo fun r ↦ ?_))
  refine (expression_typed h).bind fun argument s hargument ↦ .skip fun _ t ↦ .node fun _ ↦ ?_
  exact .of_parts rfl (by simpa [Plain.children] using hargument)

theorem catchParam_typed : tape.Provides p g.catchParam fun param ↦
    (∀ node ∈ param.1, node.Typed T) ∧ T param.2 := by
  refine .test (fun _ ↦ (h.bindingTarget _).bind fun param q hparam ↦ ?_) (.pure ⟨by simp, h.nil⟩)
  refine (annotation_typed h).bind fun type r htype ↦ .skip fun _ s ↦ .pure ⟨?_, htype⟩
  simpa using hparam

theorem tryStatement_typed : tape.Provides p g.tryStatement (Node.Typed T) := by
  refine .ask (.skip fun _ q ↦ (block_typed h).bind fun block r hblock ↦ ?_)
  refine (Provides.optionally (Q := fun clause : (Option Node × Bytes) × Node ↦
    ((∀ node ∈ clause.1.1, node.Typed T) ∧ T clause.1.2) ∧ clause.2.Typed T) fun _ ↦ ?_).bind
    fun clause s hclause ↦ ?_
  · refine (catchParam_typed h).bind fun param s hparam ↦ ?_
    exact (block_typed h).bind fun handler t hhandler ↦ .pure ⟨hparam, hhandler⟩
  refine (Provides.optionally fun _ ↦ block_typed h).bind fun finalizer t hfinalizer ↦ ?_
  refine .whenSo fun u ↦ .node fun _ ↦ ?_
  cases clause with
  | none =>
    refine .plain (by simpa [Plain.typeTexts] using h.nil) ?_
    simpa [Plain.children, TryShape.children] using ⟨hblock, hfinalizer⟩
  | some clause =>
    obtain ⟨⟨hparam, htype⟩, hhandler⟩ := hclause clause rfl
    refine .plain (by simpa [Plain.typeTexts] using htype) ?_
    simpa [Plain.children, TryShape.children, or_imp, forall_and] using
      ⟨hblock, hparam, hhandler, hfinalizer⟩

/-! ## All statements -/

theorem expressionStatement_typed : tape.Provides p g.expressionStatement (Node.Typed T) := by
  refine .ask ((expression_typed h).bind fun expression q hexpression ↦ .skip fun _ r ↦ ?_)
  exact .node fun _ ↦ .of_parts rfl (by simpa [Plain.children] using hexpression)

theorem labeledStatement_typed : tape.Provides p g.labeledStatement (Node.Typed T) := by
  refine .ask (.skip fun _ q ↦ .skip fun _ r ↦ (h.statement r).bind fun body s hbody ↦ ?_)
  exact .node fun _ ↦ .of_parts rfl (by simpa [Plain.children] using hbody)

theorem contextual_typed {fits : Parse Bool} [tape.Stays fits] {declaration : Parse Node}
    (hdeclaration : ∀ q, tape.Provides q declaration (Node.Typed T)) :
    tape.Provides p (g.contextual fits declaration) (Node.Typed T) :=
  .skip fun _ q ↦ .ite (fun _ ↦ hdeclaration q) fun _ ↦ expressionStatement_typed h

omit h in
instance atAmbient_stays : tape.Stays atAmbient where
  provides p := by
    obtain ⟨answer, hambient⟩ : ∃ b, Asks tape p atAmbient b := asks_atAmbient
    exact Reads.asked.provides.any

theorem statementStep_typed : tape.Provides p g.statementStep (Node.Typed T) := by
  have hnone : ∀ node ∈ ([] : List Node), node.Typed T := List.forall_mem_nil _
  refine .nested (.ask ?_)
  split
  · exact block_typed h
  · exact .skip fun _ q ↦ leafNode_typed rfl rfl
  · refine .test (fun _ ↦ .skip fun _ q ↦ ?_) (variableDeclaration_typed h .statement)
    exact enumeration_typed h true false
  · exact variableDeclaration_typed h .statement
  · exact contextual_typed h fun _ ↦ variableDeclaration_typed h .statement
  · exact plainFunction_typed h false
  · exact contextual_typed h fun _ ↦ asyncFunction_typed h false
  · exact classDeclaration_typed h hnone false false
  · exact contextual_typed h fun _ ↦ maybeAbstractClass_typed h hnone
  · exact decorated_typed h
  · exact contextual_typed h fun _ ↦ interface_typed h false
  · exact contextual_typed h fun _ ↦ typeAlias_typed h false
  · exact enumeration_typed h false false
  · exact contextual_typed h fun _ ↦ namespaceDeclaration_typed h false
  · exact contextual_typed h fun _ ↦ namespaceDeclaration_typed h false
  · exact contextual_typed h fun _ ↦ ambientDeclaration_typed h
  · exact contextual_typed h fun _ ↦ componentDeclaration_typed h
  · refine .ask (.ask (.ite (fun _ ↦ expressionStatement_typed h) fun _ ↦ ?_))
    exact importDeclaration_typed
  · exact exportDeclaration_typed h
  · exact ifStatement_typed h
  · exact switchStatement_typed h
  · exact forStatement_typed h
  · exact whileStatement_typed h
  · exact doWhileStatement_typed h
  · exact jump_typed true
  · exact jump_typed false
  · exact returnStatement_typed h
  · exact throwStatement_typed h
  · exact tryStatement_typed h
  · exact .skip fun _ q ↦ .skip fun _ r ↦ leafNode_typed rfl rfl
  · exact contextual_typed h fun _ ↦ labeledStatement_typed h
  · exact expressionStatement_typed h

end Annotates

end Grammar

/-! ## Programs -/

/-- Every level keeps what the rules for types give. -/
theorem grammar_annotates {tape : Tape} (horderly : ∀ token ∈ tape.tokens, token.IsOrderly)
    (level : Nat) : tape.Annotates (grammar level) tape.Bracketed := by
  have hbrackets (level : Nat) : tape.Brackets (grammar level) := grammar_brackets horderly level
  induction level with
  | zero =>
    exact {
      nil := IsBracketed.nil.upTo
      type := (hbrackets 0).type
      typeParameters := fun _ ↦ Grammar.typeParameters_brackets (hbrackets 0)
      typeArguments := fun _ ↦ Grammar.typeArguments_brackets (hbrackets 0)
      typeMember := fun _ ↦ Grammar.typeMember_brackets (hbrackets 0)
      typeMembers := fun _ ↦ Grammar.typeMembers_brackets (hbrackets 0)
      statement := fun _ ↦ .failWith _
      assignment := fun _ ↦ .failWith _
      binary := fun _ _ ↦ .failWith _
      unary := fun _ ↦ .failWith _
      construction := fun _ ↦ .failWith _
      primary := fun _ ↦ .failWith _
      element := fun _ ↦ .failWith _
      bindingTarget := fun _ ↦ .failWith _ }
  | succ level ih =>
    have htypes := hbrackets (level + 1)
    exact {
      nil := IsBracketed.nil.upTo
      type := htypes.type
      typeParameters := fun _ ↦ Grammar.typeParameters_brackets htypes
      typeArguments := fun _ ↦ Grammar.typeArguments_brackets htypes
      typeMember := fun _ ↦ Grammar.typeMember_brackets htypes
      typeMembers := fun _ ↦ Grammar.typeMembers_brackets htypes
      statement := fun _ ↦ Grammar.statementStep_typed ih
      assignment := fun _ ↦ Grammar.assignmentStep_typed ih
      binary := fun _ least ↦ Grammar.binaryStep_typed ih least
      unary := fun _ ↦ Grammar.unaryStep_typed ih
      construction := fun _ ↦ Grammar.constructionStep_typed ih
      primary := fun _ ↦ Grammar.primaryStep_typed ih
      element := fun _ ↦ Grammar.elementStep_typed ih
      bindingTarget := fun _ ↦ Grammar.bindingTargetStep_typed ih }

namespace Program

theorem Course.typed {T : Bytes → Prop} {tape : Tape} {statement : Parse Node} {options : Options}
    {context : ParseContext} {p failures last : Nat} {trace : List Attempt}
    (hfinal : context.final = tape.final)
    (hstatement : ∀ p, tape.Provides p statement (Node.Typed T))
    (h : Course tape statement options context p failures trace last) :
    ∀ node ∈ Attempt.nodes trace, node.Typed T := by
  induction h with
  | done | stop => simp
  | read hpq hq hfits hrun hrest ih =>
    refine List.forall_mem_cons.mpr ⟨?_, ih⟩
    exact (hstatement _ hfinal (by omega) hrun).1
  | resume hpq hpr hqr hr hblames hrun hrecover hgoes hrest ih => exact ih

theorem splitFinal_isInitial (tokens : List Token) : (splitFinal tokens).1 <+: tokens := by
  unfold splitFinal
  split
  · exact List.nil_prefix
  · dsimp only
    split
    · exact List.dropLast_prefix tokens
    · exact List.prefix_rfl

/-- All types in a program that is read from orderly tokens are bracketed. -/
theorem parse_typed {tokens : List Token} (hend : ∀ token ∈ tokens.dropLast, token.kind ≠ .eof)
    (horderly : ∀ token ∈ tokens, token.IsOrderly) {options : Options} {parsed : Parsed}
    (h : parse options tokens = .ok parsed) :
    parsed.root.Typed (Tape.ofTokens tokens hend).Bracketed := by
  obtain ⟨last, hcourse, hparse⟩ := parse_eq_after hend options
  have htape : ∀ token ∈ (Tape.ofTokens tokens hend).tokens, token.IsOrderly :=
    fun token hmem ↦ horderly token ((splitFinal_isInitial tokens).subset hmem)
  have hnodes := hcourse.typed rfl (grammar_annotates htape _).statement
  rw [hparse, Progress.after] at h
  split at h
  · cases h
  · cases h
    exact .of_surface_parts rfl (by simpa [Surface.children] using hnodes)

/-- The types in a program are properly bracketed, up to names and stretches of tokens that are
copied into them: a text that is not bracketed has such a piece in it that is not bracketed. -/
theorem parse_typeTexts_bracketed {lexing : LexerOptions} {source : Bytes} {tokens : List Token}
    (hstrict : lexing.mode = .strict) (htokens : (tokenize lexing source).result = .ok tokens)
    {options : Options} {parsed : Parsed} (h : parse options tokens = .ok parsed) :
    ∀ node ∈ parsed.root.descendants, ∀ text ∈ node.typeTexts,
      BracketedUpTo (Captured tokens) text := by
  obtain ⟨front, final, rfl, -, -, -, hfront⟩ := tokenize_allScanned hstrict htokens
  have hend : ∀ token ∈ (front ++ [final]).dropLast, token.kind ≠ .eof := by
    rwa [List.dropLast_concat]
  intro node hnode text htext
  have htyped := parse_typed hend (isOrderly_of_mem hstrict htokens) h
  refine ((htyped.descendants node hnode).own text htext).imp_right ?_
  rintro ⟨piece, hpiece, hnot, hin⟩
  exact ⟨piece, hpiece.mono (splitFinal_isInitial _).isInfix, hnot, hin⟩

/-- The parentheses behind `import` are passed over up to a bracket that does not close them, and
what is copied is the text of the type. -/
theorem parse_typeTexts_bracketed_import :
    let lexed := (tokenize {} (bytes "type A = import(];")).result
    ∃ tokens, lexed = .ok tokens ∧ ∃ parsed, parse {} tokens = .ok parsed ∧
      ∃ node ∈ parsed.root.descendants, bytes "import(]" ∈ node.typeTexts ∧
        ¬ IsBracketed (bytes "import(]") ∧ BracketedUpTo (Captured tokens) (bytes "import(]") := by
  intro lexed
  have hfound : ((lexed.toOption.bind fun tokens ↦ (parse {} tokens).toOption).any fun parsed ↦
      parsed.root.descendants.any fun node ↦
        node.typeTexts.contains (bytes "import(]")) = true := by decide +kernel
  cases hlexed : lexed with
  | error => simp [hlexed, Except.toOption] at hfound
  | ok tokens =>
    cases hparsed : parse {} tokens with
    | error => simp [hlexed, hparsed, Except.toOption] at hfound
    | ok parsed =>
      obtain ⟨node, hnode, htext⟩ : ∃ node ∈ parsed.root.descendants,
          bytes "import(]" ∈ node.typeTexts := by
        simpa [hlexed, hparsed, Except.toOption] using hfound
      exact ⟨tokens, rfl, parsed, hparsed, node, hnode, htext, by decide,
        parse_typeTexts_bracketed rfl hlexed hparsed node hnode _ htext⟩

end Program

end SignalView
