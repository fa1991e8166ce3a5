import SignalView.Proofs.Grammar.Expressions

/-!
# Declarations, imports and exports on a tape
-/

namespace SignalView.Grammar

open Parse Tape

variable {tape : Tape} {o p level : Nat} {g : Grammar}

/-- Where a declaration of variables stands in the tree. -/
def VariablePlace.position : VariablePlace → Place
  | .loopHead => .loopHead
  | .statement | .ambient => .statement

instance tests_atVariables : Tests tape p atVariables p (p < tape.size) := by
  by_cases hend : tape.kind p = .eof
  · have hno : Asks tape p atVariables false := by
      refine ⟨fun context hfinal ↦ ?_⟩
      rw [atVariables, Parse.bind_of_ok (Asks.current.run context hfinal), token_kind, hend]
      rfl
    exact .of_asks hno (by simp)
  · obtain ⟨b, hb⟩ : ∃ b, Asks tape p atVariables b := by
      refine Asks.exists_bind ?_
      split <;> exact ⟨_, inferInstance⟩
    exact .of_asks hb fun _ ↦ lt_size_of_kind_ne hend

instance asks_afterDefault : Asks tape p afterDefault
    ((tape.cursor p).before.head?.any (·.kind == .word .default)) := Asks.bind

instance asks_atAsyncFunction : Asks tape p atAsyncFunction
    (tape.kind (p + 1) == .word .function && !(tape.token (p + 1)).newlineBefore) := Asks.bind

instance asks_atComponent : Asks tape p atComponent ((tape.kind (p + 1)).isName &&
    (tape.kind (p + 2) == .mark .openParen || tape.kind (p + 2) == .mark .typeOpen)) := Asks.bind

section Served

variable (h : tape.Serves g level)

include h

/-! ## Variables -/

theorem declarator_passes (hlevel : 12 * (tape.size - p) + 2 ≤ level) (place : VariablePlace)
    (keyword : Bytes) :
    tape.Passes o p (g.declarator place keyword) fun result ↦ tape.Fills result.1.slots ∧
      (place = .statement → keyword = bytes "const" → result.1.init.isSome) := by
  refine (h.bindingTarget hlevel).bind fun target q hq _ htarget ↦ .ask (.ask ?_)
  refine .iteThen (P := fun r ↦ q ≤ r) (fun _ ↦ ?_) (fun _ ↦ Nat.le_refl q) fun r hr _ _ ↦ ?_
  · exact Reads.advance_skips.mono fun _ _ hr _ _ ↦ hr
  refine (annotation_skips h (by omega)).bind fun type s hs _ _ ↦ .ask (.ask ?_)
  refine .ite (fun hhead ↦ .pure ⟨by omega, ?_, ?_⟩) fun _ ↦ .test (fun _ _ _ ↦ ?_)
    (.ite (fun _ ↦ .fail (by simp)) fun hconst ↦ .pure ⟨by omega, ?_, ?_⟩)
  · simpa [Declarator.slots] using htarget
  · rintro rfl
    simp at hhead
  · refine (h.assignment (by omega)).bind fun value t ht _ hvalue ↦ .pure ⟨by omega, ?_, by simp⟩
    simpa [Declarator.slots] using ⟨htarget, hvalue⟩
  · simpa [Declarator.slots] using htarget
  · rintro rfl rfl
    simp at hconst

theorem declarators_passes (hlevel : 12 * (tape.size - p) + 2 ≤ level) (place : VariablePlace)
    (keyword : Bytes) :
    tape.Passes o p (g.declarators place keyword) fun result ↦ ∀ d ∈ result.1,
      tape.Fills d.slots ∧ (place = .statement → keyword = bytes "const" → d.init.isSome) := by
  have hrounds := h.rounds
  refine .iterate (P := fun state _ ↦ ∀ d ∈ state.1,
    tape.Fills d.slots ∧ (place = .statement → keyword = bytes "const" → d.init.isSome)) ?_
    (by omega) (by simp)
  intro state q hq _ hstate
  refine (declarator_passes h (by omega) place keyword).bind ?_
  rintro ⟨next, mayContinue⟩ r hr _ hnext
  have hmore : ∀ d ∈ state.1 ++ [next], tape.Fills d.slots ∧
      (place = .statement → keyword = bytes "const" → d.init.isSome) := by
    intro d hd
    rcases List.mem_append.mp hd with hd | hd
    · exact hstate d hd
    · rw [List.mem_singleton.mp hd]
      exact hnext
  refine .ite (fun _ ↦ .decide (fun _ _ _ ↦ .pure (.more (by omega) hmore)) ?_) fun _ ↦ .ask ?_
  · exact .pure (.last ⟨by omega, hmore⟩)
  · exact .pure (.last ⟨by omega, hmore⟩)

theorem variableDeclaration_forms (hlt : p < tape.size) (hlevel : 12 * (tape.size - p) ≤ level)
    (place : VariablePlace) : tape.Forms o p (g.variableDeclaration place) place.position := by
  refine .ask (.advance hlt ((declarators_passes h (by omega) place _).bind ?_))
  rintro ⟨declarators, mayContinue⟩ q hq _ hdeclarators
  refine .iteThen (P := fun r ↦ q ≤ r) (fun _ ↦ ?_) (fun _ ↦ Nat.le_refl q)
    fun r hr _ _ ↦ .node fun _ ↦ ⟨by omega, .of_plain ?_ ?_ ?_⟩
  · exact Reads.semicolon.mono fun _ _ hr _ _ ↦ hr
  · cases place <;> rfl
  · intro hstatement hkeyword hdeclare d hd
    refine (hdeclarators d hd).2 ?_ hkeyword
    cases place with
    | statement => rfl
    | ambient => cases hdeclare
    | loopHead => cases hstatement
  · simpa [Plain.slots] using fun d hd ↦ (hdeclarators d hd).1

/-! ## Functions and components -/

theorem functionDeclaration_forms (hlevel : 12 * (tape.size - p) ≤ level) (start : Token)
    (mayBeAnonymous isAsync isDeclare : Bool) :
    tape.Forms o p (g.functionDeclaration start mayBeAnonymous isAsync isDeclare) .statement := by
  refine .expectWord fun _ ↦ Reads.condition.bind fun isGenerator q hq _ _ ↦ .ask ?_
  refine .failWhen (by simp) fun _ ↦ (Skips.textIf fun hnamed _ _ ↦ ?_).bind fun name r hr _ _ ↦ ?_
  · exact (Reads.takes (lt_size_of_holds (f := TokenKind.isName) hnamed rfl)).mono
      fun _ _ _ _ _ ↦ trivial
  refine (signature_passes h (by omega) _).bind ?_
  rintro f s hs _ ⟨-, -, hparams⟩
  refine .ask (Reads.bind (P := fun body _ ↦ ∀ node ∈ body, node.Fits tape.Tag .statement)
    (.optionally (fun _ _ _ ↦ ?_) (by simp)) fun body t ht _ hbody ↦ ?_)
  · exact (block_forms h (by omega)).mono fun _ _ _ _ hnode ↦ by simpa using hnode.2
  refine .iteThen (P := fun u ↦ t ≤ u) (fun _ ↦ ?_) (fun _ ↦ Nat.le_refl t)
    fun u hu _ _ ↦ .node fun _ ↦ ⟨by omega, ?_⟩
  · exact Reads.semicolon.mono fun _ _ hr _ _ ↦ hr
  · exact .of_plain rfl trivial (by simpa [Plain.slots, Callable.slots] using ⟨hparams, hbody⟩)

theorem plainFunction_forms (hlevel : 12 * (tape.size - p) ≤ level) (isDeclare : Bool) :
    tape.Forms o p (g.plainFunction isDeclare) .statement :=
  .ask (.ask (functionDeclaration_forms h hlevel _ _ _ _))

theorem asyncFunction_forms (hlevel : 12 * (tape.size - p) ≤ level) (isDeclare : Bool) :
    tape.Forms o p (g.asyncFunction isDeclare) .statement := by
  refine .ask (.ask (Reads.advance_skips.bind fun _ q hq _ _ ↦ ?_))
  exact (functionDeclaration_forms h (by omega) _ _ _ _).onward hq

theorem componentDeclaration_forms (hlevel : 12 * (tape.size - p) ≤ level) :
    tape.Forms o p g.componentDeclaration .statement := by
  refine .ask (.expectWord fun _ ↦ Reads.expectName.bind fun name q hq _ _ ↦ ?_)
  refine (signature_passes h (by omega) _).bind ?_
  rintro f r hr _ ⟨-, -, hparams⟩
  refine .ask (.failWhen (by simp) fun _ ↦ ?_)
  refine (block_forms h (by omega)).bind fun body s hs _ hbody ↦ ?_
  exact .surface fun _ ↦ ⟨by omega,
    .of_surface rfl trivial (by simpa [Surface.slots] using ⟨hparams, hbody⟩)⟩

/-! ## Types -/

theorem interface_forms (hlevel : 12 * (tape.size - p) ≤ level) (isDeclare : Bool) :
    tape.Forms o p (g.interface isDeclare) .statement := by
  have hrounds := h.rounds
  refine .ask (.expectWord fun _ ↦ Reads.expectName.bind fun name q hq _ _ ↦ ?_)
  refine (optionalTypeParameters_skips h (by omega)).bind fun _ r hr _ _ ↦ ?_
  refine .either (P := fun _ s ↦ r ≤ s) (fun _ _ _ ↦ ?_) (.pure (Nat.le_refl r))
    fun extended s hs _ _ ↦ .expectMark fun _ ↦ ?_
  · exact (Reads.separated (fun _ _ _ ↦ h.type (by omega)) (by omega)).mono
      fun _ _ _ _ _ ↦ by omega
  refine (typeMembers_skips h (by omega)).bind fun members t ht _ _ ↦ .expectMark fun _ ↦ ?_
  exact .node fun _ ↦ ⟨by omega, .of_plain rfl trivial (by simp [Plain.slots])⟩

theorem typeAlias_forms (hlevel : 12 * (tape.size - p) ≤ level) (isDeclare : Bool) :
    tape.Forms o p (g.typeAlias isDeclare) .statement := by
  refine .ask (.expectWord fun _ ↦ Reads.expectName.bind fun name q hq _ _ ↦ ?_)
  refine (optionalTypeParameters_skips h (by omega)).bind fun _ r hr _ _ ↦ .expectMark fun _ ↦ ?_
  refine (h.type (by omega)).bind fun type s hs _ _ ↦ Reads.semicolon.bind fun _ t ht _ _ ↦ ?_
  exact .node fun _ ↦ ⟨by omega, .of_plain rfl trivial (by simp [Plain.slots])⟩

theorem enumMember_passes (hlevel : 12 * (tape.size - p) ≤ level) :
    tape.Passes o p g.enumMember fun m ↦ ∀ node ∈ m.init, node.Fits tape.Tag .expression := by
  refine .ask (.failWhen (by simp) fun hname ↦ ?_)
  have hlt : p < tape.size :=
    lt_size_of_holds (f := TokenKind.isPropertyName) (by simpa using hname) rfl
  refine .advance hlt ((optionally_assignment h (by omega)).bind fun init q hq _ hinit ↦ ?_)
  exact .pure ⟨by omega, hinit⟩

theorem enumeration_forms (hlevel : 12 * (tape.size - p) ≤ level) (isConst isDeclare : Bool) :
    tape.Forms o p (g.enumeration isConst isDeclare) .statement := by
  have hrounds := h.rounds
  refine .choose (P := fun _ q ↦ q = p) (fun _ ↦ Reads.asked.mono fun _ _ _ _ h ↦ h.2)
    (fun _ ↦ Reads.asked.mono fun _ _ _ _ h ↦ h.2) ?_
  rintro start _ _ _ rfl
  refine .expectWord fun _ ↦ Reads.expectName.bind fun name q hq _ _ ↦ .expectMark fun _ ↦ ?_
  refine (Reads.commaList (fun r hr _ _ _ ↦ enumMember_passes h (by omega)) (by omega)).bind
    fun members r hr _ hmembers ↦ .expectMark fun _ ↦ .node fun _ ↦ ⟨by omega, ?_⟩
  exact .of_plain rfl trivial (by simpa [Plain.slots] using hmembers)

/-! ## Namespaces -/

theorem namespaceName_passes (hlevel : 12 * (tape.size - p) ≤ level) :
    tape.Passes o p g.namespaceName fun _ ↦ True := by
  have hrounds := h.rounds
  refine .ask (.test (fun _ _ _ ↦ .pure ⟨by omega, trivial⟩) ?_)
  refine .within fun _ hp ↦ Reads.expectName.bind fun name q hq _ _ ↦ ?_
  refine (Reads.dottedNames (fun _ _ _ ↦ Reads.expectName.skips) (by omega)).bind
    fun path r hr _ _ ↦ .pure ⟨by omega, trivial⟩

theorem namespaceDeclaration_forms (hlt : p < tape.size) (hlevel : 12 * (tape.size - p) ≤ level)
    (isDeclare : Bool) : tape.Forms o p (g.namespaceDeclaration isDeclare) .statement := by
  have hrounds := h.rounds
  refine .ask (.ask (.advance hlt ?_))
  refine .choose (P := fun _ q ↦ p < q) (fun _ ↦ .pure (by omega))
    (fun _ ↦ (namespaceName_passes h (by omega)).mono fun _ _ _ _ _ ↦ by omega)
    fun name q _ _ hq ↦ .test (fun _ _ _ ↦ ?_) (Reads.semicolon.bind fun _ r hr _ _ ↦ ?_)
  · refine (Reads.manyWhile (fun r hr _ _ _ ↦ h.statement (by omega)) (by omega)).bind
      fun body r hr _ hbody ↦ .expectMark fun _ ↦ .node fun _ ↦ ⟨by omega, ?_⟩
    exact .of_plain rfl trivial (by simpa [Plain.slots] using hbody)
  · exact .node fun _ ↦ ⟨by omega, .of_plain rfl trivial (by simp [Plain.slots])⟩

/-! ## Ambient declarations and decorators -/

theorem ambient_forms (hlevel : 12 * (tape.size - p) ≤ level) :
    tape.Forms o p g.ambient .statement := by
  have hclass {q : Nat} (hlevel : 12 * (tape.size - q) ≤ level) (isAbstract : Bool) :
      tape.Forms o q (g.classDeclaration [] isAbstract true) .statement :=
    (classDeclaration_passes h hlevel (by simp) isAbstract true).weaken fun _ hnode ↦ hnode.1
  refine .ask ?_
  split
  · next hkind => exact variableDeclaration_forms h (lt_size_of_kind hkind) hlevel .ambient
  · next hkind => exact variableDeclaration_forms h (lt_size_of_kind hkind) hlevel .ambient
  · next hkind =>
    refine .test (fun _ _ _ ↦ .advance (lt_size_of_kind hkind) ?_) ?_
    · exact (enumeration_forms h (by omega) true true).onward (by omega)
    · exact variableDeclaration_forms h (lt_size_of_kind hkind) hlevel .ambient
  · exact plainFunction_forms h hlevel true
  · exact asyncFunction_forms h hlevel true
  · exact hclass hlevel false
  · next hkind =>
    exact .advance (lt_size_of_kind hkind) ((hclass (by omega) true).onward (by omega))
  · exact interface_forms h hlevel true
  · exact typeAlias_forms h hlevel true
  · exact enumeration_forms h hlevel false true
  · next hkind => exact namespaceDeclaration_forms h (lt_size_of_kind hkind) hlevel true
  · next hkind => exact namespaceDeclaration_forms h (lt_size_of_kind hkind) hlevel true
  · refine .test (fun hglobal _ _ ↦ ?_) (.fail (by simp))
    have hlt : p < tape.size := lt_size_of_beq (Bool.and_eq_true_iff.mp hglobal).1
    exact namespaceDeclaration_forms h hlt hlevel true

theorem ambientDeclaration_forms (hlt : p < tape.size) (hlevel : 12 * (tape.size - p) ≤ level) :
    tape.Forms o p g.ambientDeclaration .statement := by
  refine .ask (.advance hlt ((ambient_forms h (by omega)).bind fun node q hq _ hnode ↦ ?_))
  exact .pure ⟨by omega, hnode.startingAt _⟩

theorem maybeAbstractClass_forms (hlevel : 12 * (tape.size - p) ≤ level) {decorators : List Node}
    (hdecorators : ∀ node ∈ decorators, node.Fits tape.Tag .expression) :
    tape.Forms o p (g.maybeAbstractClass decorators) .statement := by
  refine Reads.condition.bind fun isAbstract q hq _ _ ↦ ?_
  exact (classDeclaration_passes h (by omega) hdecorators isAbstract false).mono
    fun _ _ _ _ hnode ↦ ⟨by omega, hnode.2.1⟩

omit h in
theorem exportDefault_fits {range : Range} {value : DefaultExport Node}
    (hvalue : tape.Fills value.slots) :
    (Node.plain range (.exportDefault value)).Fits tape.Tag .statement :=
  .of_plain rfl trivial hvalue

omit h in
theorem exportNamed_fits {range : Range} {declaration : Node}
    (hdeclaration : declaration.Fits tape.Tag .statement) :
    (Node.plain range (.exportNamed (some declaration) [] [] false)).Fits tape.Tag .statement :=
  .of_plain rfl trivial (by simpa [Plain.slots] using hdeclaration)

theorem decorated_forms (hlevel : 12 * (tape.size - p) + 1 ≤ level) :
    tape.Forms o p g.decorated .statement := by
  refine (decorators_skips h hlevel).bind fun decorators q hq _ hdecorators ↦ .ask ?_
  refine .test (fun _ _ _ ↦ Reads.condition.bind fun isDefault r hr _ _ ↦ ?_) ?_
  · refine (maybeAbstractClass_forms h (by omega) hdecorators).bind fun node s hs _ hnode ↦ ?_
    refine .ite (fun _ ↦ .node fun _ ↦ ⟨by omega, ?_⟩) fun _ ↦ .node fun _ ↦ ⟨by omega, ?_⟩
    · exact exportDefault_fits (by simpa [DefaultExport.slots] using hnode)
    · exact exportNamed_fits hnode
  · exact (maybeAbstractClass_forms h (by omega) hdecorators).onward hq

/-! ## Imports -/

omit h in
theorem exchangedName_passes : tape.Passes o p exchangedName fun _ ↦ True := by
  refine .ask (.test (fun _ _ _ ↦ .pure ⟨by omega, trivial⟩) ?_)
  exact Passes.weaken (Reads.expectMemberName (by simp)) fun _ _ ↦ trivial

omit h in
theorem acceptTypeMark_skips : tape.Skips o p acceptTypeMark fun _ ↦ True := by
  refine .ask (.ask (.ite (fun _ ↦ ?_) fun _ ↦ .pure trivial))
  exact Reads.advance_skips.bind fun _ _ _ _ _ ↦ .pure trivial

omit h in
theorem modulePath_passes : tape.Passes o p modulePath fun _ ↦ True :=
  .expect fun _ _ ↦ .pure ⟨by omega, trivial⟩

omit h in
theorem importSpecifier_passes : tape.Passes o p importSpecifier fun _ ↦ True := by
  refine acceptTypeMark_skips.bind fun isType q hq _ _ ↦ ?_
  refine exchangedName_passes.bind fun imported r hr _ _ ↦ ?_
  refine .either (P := fun _ s ↦ r ≤ s) (fun _ _ _ ↦ ?_) (.pure (Nat.le_refl r))
    fun localName s hs _ _ ↦ .pure ⟨by omega, trivial⟩
  exact Reads.expectName.mono fun _ _ _ _ _ ↦ by omega

omit h in
theorem acceptTypeOnly_skips : tape.Skips o p acceptTypeOnly fun _ ↦ True := by
  refine .ask (.ask (.ask (.ite (fun _ ↦ ?_) fun _ ↦ .pure trivial)))
  exact Reads.advance_skips.bind fun _ _ _ _ _ ↦ .pure trivial

omit h in
theorem importDefault_skips : tape.Skips o p importDefault fun _ ↦ True := by
  refine .ask (.ask (.ite (fun hname ↦ ?_) fun _ ↦ .ask (.ask (.ite (fun hword ↦ ?_) fun _ ↦ ?_))))
  · have hlt : p < tape.size :=
      lt_size_of_holds (f := TokenKind.isName) (Bool.and_eq_true_iff.mp hname).1 rfl
    refine (Reads.takes hlt).bind fun _ _ _ _ _ ↦ Reads.condition.bind fun _ _ _ _ _ ↦ ?_
    exact .pure trivial
  · have hlt : p < tape.size := lt_size_of_beq (Bool.and_eq_true_iff.mp hword).1
    exact (Reads.takes hlt).bind fun _ _ _ _ _ ↦ .pure trivial
  · exact .pure trivial

theorem importNames_skips (hlevel : 12 * (tape.size - p) + 1 ≤ level) :
    tape.Skips o p g.importNames fun _ ↦ True := by
  have hrounds := h.rounds
  refine .test (fun _ _ _ ↦ .expectWord fun _ ↦ ?_) (.test (fun _ _ _ ↦ ?_) (.fail (by simp)))
  · exact Reads.expectName.bind fun _ _ _ _ _ ↦ .pure trivial
  · refine (Reads.commaList (fun _ _ _ _ _ ↦ importSpecifier_passes) (by omega)).bind
      fun _ _ _ _ _ ↦ .expectMark fun _ ↦ .pure trivial

omit h in
theorem importAttributes_skips : tape.Skips o p importAttributes fun _ ↦ True := by
  refine .ask (.ask (.ask (.ask (.ite (fun _ ↦ ?_) fun _ ↦ .pure trivial))))
  refine Reads.advance_skips.bind fun _ _ _ _ _ ↦ ?_
  exact Reads.balanced.discard.mono fun _ _ _ _ _ ↦ trivial

theorem importDeclaration_forms (hlevel : 12 * (tape.size - p) + 1 ≤ level) :
    tape.Forms o p g.importDeclaration .statement := by
  have himports {range : Range} (clause : ImportClause) :
      (Node.plain range (.imports clause)).Fits tape.Tag .statement :=
    .of_plain rfl trivial (by simp [Plain.slots])
  refine .ask (.expectWord fun _ ↦ .ask (.test (fun _ _ _ ↦ ?_) ?_))
  · exact Reads.semicolon.bind fun _ q hq _ _ ↦ .node fun _ ↦ ⟨by omega, himports _⟩
  refine acceptTypeOnly_skips.bind fun typeOnly q hq _ _ ↦ importDefault_skips.bind ?_
  rintro ⟨defaultName, more⟩ r hr _ -
  refine .choose (P := fun _ s ↦ r ≤ s) (fun _ ↦ ?_) (fun _ ↦ .pure (Nat.le_refl r)) ?_
  · exact (importNames_skips h (by omega)).mono fun _ _ hs _ _ ↦ hs
  rintro ⟨namespaceName, specifiers⟩ s hs _ -
  refine .decide (fun _ _ _ ↦ ?_) (.failThen (by simp))
  refine modulePath_passes.bind fun source t ht _ _ ↦ ?_
  refine importAttributes_skips.bind fun _ u hu _ _ ↦ Reads.semicolon.bind fun _ v hv _ _ ↦ ?_
  exact .node fun _ ↦ ⟨by omega, himports _⟩

/-! ## Exports -/

theorem defaultExpression_passes (hlevel : 12 * (tape.size - p) + 6 ≤ level) :
    tape.Passes o p g.defaultExpression fun value ↦ tape.Fills value.slots := by
  refine (h.assignment hlevel).bind fun value q hq _ hvalue ↦ ?_
  refine Reads.semicolon.bind fun _ r hr _ _ ↦ .pure ⟨by omega, ?_⟩
  simpa [DefaultExport.slots] using hvalue

omit h in
theorem defaultDeclaration_passes {action : Parse Node} {q : Nat}
    (haction : tape.Forms o q action .statement) (hq : p ≤ q) :
    tape.Reads o q (do return .declaration (← action)) fun value r ↦
      p < r ∧ tape.Fills (DefaultExport.slots value) :=
  haction.bind fun node r hr _ hnode ↦
    .pure ⟨by omega, by simpa [DefaultExport.slots] using hnode⟩

theorem exportedDefault_passes (hlevel : 12 * (tape.size - p) + 6 ≤ level) :
    tape.Passes o p g.exportedDefault fun value ↦ tape.Fills value.slots := by
  have hclass {q : Nat} (hlevel : 12 * (tape.size - q) ≤ level) (isAbstract : Bool) :
      tape.Forms o q (g.classDeclaration [] isAbstract false) .statement :=
    (classDeclaration_passes h hlevel (by simp) isAbstract false).weaken fun _ hnode ↦ hnode.1
  refine .ask ?_
  split
  · exact defaultDeclaration_passes (plainFunction_forms h (by omega) false) (Nat.le_refl p)
  · refine .test (fun _ _ _ ↦ ?_) (defaultExpression_passes h hlevel)
    exact defaultDeclaration_passes (asyncFunction_forms h (by omega) false) (Nat.le_refl p)
  · exact defaultDeclaration_passes (hclass (by omega) false) (Nat.le_refl p)
  · next hkind =>
    refine .advance (lt_size_of_kind hkind) ?_
    exact defaultDeclaration_passes (hclass (by omega) true) (by omega)
  · refine (decorators_skips h (by omega)).bind fun decorators q hq _ hdecorators ↦ ?_
    exact defaultDeclaration_passes (maybeAbstractClass_forms h (by omega) hdecorators) hq
  · exact defaultDeclaration_passes (interface_forms h (by omega) false) (Nat.le_refl p)
  · refine .test (fun _ _ _ ↦ ?_) (defaultExpression_passes h hlevel)
    exact defaultDeclaration_passes (componentDeclaration_forms h (by omega)) (Nat.le_refl p)
  · exact defaultExpression_passes h hlevel

omit h in
theorem exportAll_forms {start : Token} : tape.Forms o p (exportAll start) .statement := by
  refine Reads.condition.bind fun typeOnly q hq _ _ ↦ ?_
  refine Reads.advance_skips.bind fun _ r hr _ _ ↦ ?_
  refine (Skips.textIf fun _ _ _ ↦ exchangedName_passes.skips).bind fun name s hs _ _ ↦ ?_
  refine .decide (fun _ _ _ ↦ ?_) (.failThen (by simp))
  refine modulePath_passes.bind fun source t ht _ _ ↦ Reads.semicolon.bind fun _ u hu _ _ ↦ ?_
  exact .node fun _ ↦ ⟨by omega, .of_plain rfl trivial (by simp [Plain.slots])⟩

omit h in
theorem exportSpecifier_passes : tape.Passes o p exportSpecifier fun _ ↦ True := by
  refine acceptTypeMark_skips.bind fun isType q hq _ _ ↦ ?_
  refine exchangedName_passes.bind fun localName r hr _ _ ↦ ?_
  refine .either (P := fun _ s ↦ r ≤ s) (fun _ _ _ ↦ ?_) (.pure (Nat.le_refl r))
    fun exported s hs _ _ ↦ .pure ⟨by omega, trivial⟩
  exact exchangedName_passes.mono fun _ _ _ _ _ ↦ by omega

theorem exportList_forms (hlevel : 12 * (tape.size - p) + 1 ≤ level) {start : Token} :
    tape.Forms o p (g.exportList start) .statement := by
  have hrounds := h.rounds
  refine Reads.condition.bind fun typeOnly q hq _ _ ↦ ?_
  refine Reads.advance_skips.bind fun _ r hr _ _ ↦ ?_
  refine (Reads.commaList (fun _ _ _ _ _ ↦ exportSpecifier_passes.onward (Nat.le_refl _))
    (by omega)).bind fun specifiers s hs _ _ ↦ .expectMark fun _ ↦ ?_
  refine (Skips.textIf fun _ _ _ ↦ modulePath_passes.skips).bind fun source t ht _ _ ↦ ?_
  refine Reads.semicolon.bind fun _ u hu _ _ ↦ .node fun _ ↦ ⟨by omega, ?_⟩
  exact .of_plain rfl trivial (by simp [Plain.slots])

theorem exportedDeclaration_forms (hlevel : 12 * (tape.size - p) + 7 ≤ level) {t : Nat}
    (ho : o ≤ t) (ht : t ≤ p) :
    tape.Forms o p (g.exportedDeclaration (tape.token t)) .statement := by
  refine .ask (.failWhen (by simp) fun _ ↦ (h.statement hlevel).bind fun node q hq _ hnode ↦ ?_)
  split
  · exact .failAt ho (by omega) (by simp)
  · exact .node fun _ ↦ ⟨hq, exportNamed_fits hnode⟩

theorem exportDeclaration_forms (hlevel : 12 * (tape.size - p) ≤ level) :
    tape.Forms o p g.exportDeclaration .statement := by
  refine .within fun ho _ ↦ .ask (.expectWord fun hlt ↦ .ask ?_)
  refine .test (fun _ _ _ ↦ ?_) (.ask (.ask (.ite (fun _ ↦ ?_)
    fun _ ↦ .ask (.ask (.ite (fun _ ↦ ?_) fun _ ↦ ?_)))))
  · refine (exportedDefault_passes h (by omega)).bind fun value q hq _ hvalue ↦ ?_
    exact .node fun _ ↦ ⟨by omega, exportDefault_fits hvalue⟩
  · exact exportAll_forms.onward (by omega)
  · exact (exportList_forms h (by omega)).onward (by omega)
  · exact (exportedDeclaration_forms h (by omega) ho (by omega)).onward (by omega)

end Served

end SignalView.Grammar
