import SignalView.Grammar.Program
import SignalView.Proofs.Grammar.Declarations

/-!
# Statements on a tape

Every statement moves on and gives a construct that stands as a statement, or it fails. From the
entry points of one level this leads to those of the level above, and so to grammars of any number
of levels.
-/

namespace SignalView

open Parse Tape

variable {tape : Tape} {o p level : Nat} {g : Grammar}

namespace Grammar

section Served

variable (h : tape.Serves g level)

include h

/-! ## Conditions -/

theorem condition_forms (hlevel : 12 * (tape.size - p) ≤ level) (keyword closing : String) :
    tape.Forms o p (g.condition keyword closing) .expression := by
  refine .expectMark fun _ ↦ (expression_forms h (by omega)).bind fun test q hq _ htest ↦ ?_
  exact .expectMark fun _ ↦ .pure ⟨by omega, htest⟩

theorem ifStatement_forms (hlt : p < tape.size) (hlevel : 12 * (tape.size - p) ≤ level) :
    tape.Forms o p g.ifStatement .statement := by
  refine .ask (.advance hlt ((condition_forms h (by omega) _ _).bind fun test q hq _ htest ↦ ?_))
  refine (h.statement (by omega)).bind fun consequent r hr _ hconsequent ↦ ?_
  refine Reads.bind (P := fun alternate _ ↦ ∀ node ∈ alternate, node.Fits tape.Tag .statement)
    (.optionally (fun _ _ _ ↦ ?_) (by simp)) fun alternate s hs _ halternate ↦ ?_
  · exact (h.statement (by omega)).mono fun _ _ _ _ hnode ↦ by simpa using hnode.2
  · refine .node fun _ ↦ ⟨by omega, .of_plain rfl trivial ?_⟩
    simpa [Plain.slots] using ⟨htest, hconsequent, halternate⟩

omit h in
instance asks_beforeCase : Asks tape p beforeCase
    (!(tape.kind p == .word .case) && !(tape.kind p == .word .default) &&
      (tape.kind p != .mark .closeBrace && tape.kind p != .eof)) :=
  Asks.bind

/-- A clause without a test is the only one. -/
theorem switchCase_passes (hlevel : 12 * (tape.size - p) ≤ level) (hasDefault : Bool) :
    tape.Passes o p (g.switchCase hasDefault) fun result ↦ tape.Fills result.1.slots ∧
      (hasDefault = true → result.2 = true) ∧
      (result.1.test = none → hasDefault = false ∧ result.2 = true) := by
  have hrounds := h.rounds
  refine .ask (Reads.bind (P := fun test _ ↦ ∀ node ∈ test, node.Fits tape.Tag .expression)
    (.optionally (fun _ _ _ ↦ ?_) (by simp)) fun test q hq _ htest ↦ ?_)
  · exact (expression_forms h (by omega)).mono fun _ _ _ _ hnode ↦ by simpa using hnode.2
  have hrest (r : Nat) (hr : p ≤ r) (hdefault : test = none →
      hasDefault = false ∧ tape.kind p = .word .default) : tape.Reads o r (do
        expectMark .colon "Expected ':' after case label"
        let body ← manyWhile g.rounds beforeCase g.statement
        return (({ test := test, body := body } : SwitchCase Node),
          hasDefault || tape.kind p == .word .default)) fun result s ↦
      p < s ∧ tape.Fills result.1.slots ∧ (hasDefault = true → result.2 = true) ∧
        (result.1.test = none → hasDefault = false ∧ result.2 = true) := by
    refine .expectMark fun _ ↦ (Reads.manyWhile (K := Node.Fits tape.Tag .statement)
      (fun s _ _ _ _ ↦ h.statement (by omega)) (by omega)).bind fun body s hs _ hbody ↦ ?_
    refine .pure ⟨by omega, ?_, fun hdone ↦ by simp [hdone], fun hnone ↦ ?_⟩
    · simpa [SwitchCase.slots] using ⟨htest, hbody⟩
    · obtain ⟨hfirst, hkind⟩ := hdefault hnone
      exact ⟨hfirst, by simp [hkind]⟩
  refine .ite (fun _ ↦ .failWhen (by simp) fun hkind ↦ .failWhen (by simp) fun hdone ↦ ?_)
    fun hsome ↦ ?_
  · refine Reads.advance_skips.bind fun _ r hr _ _ ↦ hrest r (by omega) fun _ ↦ ?_
    simpa using And.intro hdone hkind
  · exact hrest q hq fun hnone ↦ by simp [hnone] at hsome

theorem switchCases_skips (hlevel : 12 * (tape.size - p) + 1 ≤ level) :
    tape.Skips o p g.switchCases fun result ↦
      (∀ c ∈ result.1, tape.Fills c.slots) ∧ result.1.countP (·.test.isNone) ≤ 1 := by
  have hrounds := h.rounds
  refine .iterate (P := fun state _ ↦ (∀ c ∈ state.1, tape.Fills c.slots) ∧
    state.1.countP (·.test.isNone) ≤ state.2.toNat) ?_ (by omega) (by simp)
  rintro ⟨cases, hasDefault⟩ q hq _ ⟨hcases, hcount⟩
  refine .test (fun _ _ _ ↦ ?_) (.pure (.last ⟨hcases, Nat.le_trans hcount hasDefault.toNat_le⟩))
  refine (switchCase_passes h (by omega) hasDefault).bind ?_
  rintro ⟨next, isDefault⟩ r hr _ ⟨hnext, hkeeps, hnone⟩
  refine .pure (.more hr ⟨by simpa [or_imp, forall_and] using ⟨hcases, hnext⟩, ?_⟩)
  -- Only a clause without a test counts, and there has been none before it.
  cases htest : next.test with
  | none =>
    obtain ⟨rfl, rfl⟩ := hnone htest
    simpa [List.countP_append, htest] using hcount
  | some test =>
    have hmono : hasDefault.toNat ≤ isDefault.toNat := by
      cases hasDefault with
      | false => exact Nat.zero_le _
      | true => exact Nat.le_of_eq (congrArg Bool.toNat (hkeeps rfl).symm)
    simpa [List.countP_append, htest] using Nat.le_trans hcount hmono

theorem switchStatement_forms (hlt : p < tape.size) (hlevel : 12 * (tape.size - p) ≤ level) :
    tape.Forms o p g.switchStatement .statement := by
  refine .ask (.advance hlt ((condition_forms h (by omega) _ _).bind fun test q hq _ htest ↦ ?_))
  refine .expectMark fun _ ↦ (switchCases_skips h (by omega)).bind ?_
  rintro ⟨cases, hasDefault⟩ r hr _ ⟨hcases, hcount⟩
  refine .expectMark fun _ ↦ .node fun _ ↦ ⟨by omega, .of_plain rfl hcount ?_⟩
  simpa [Plain.slots] using ⟨htest, hcases⟩

/-! ## Loops -/

theorem loopInit_forms (hlevel : 12 * (tape.size - p) + 6 ≤ level) :
    tape.Forms o p g.loopInit .loopHead := by
  refine .withoutIn (.test (fun hlt _ _ ↦ ?_) (.ask ?_))
  · exact variableDeclaration_forms h hlt (by omega) .loopHead
  · refine (expression_forms h hlevel).bind fun inner q hq _ hinner ↦ .node fun _ ↦ ⟨hq, ?_⟩
    exact .of_plain rfl trivial (by simpa [Plain.slots] using hinner)

/-- A part of a head that ends with a mark. -/
theorem headPart_skips (hlevel : 12 * (tape.size - p) + 6 ≤ level) (m : Mark) :
    tape.Skips o p (optionally (do return !(← atMark m)) g.expression) fun part ↦
      ∀ node ∈ part, node.Fits tape.Tag .expression := by
  refine .optionally (fun _ _ _ ↦ ?_) (by simp)
  exact (expression_forms h hlevel).mono fun _ _ _ _ hnode ↦ by simpa using hnode.2

theorem countedLoop_forms (hlevel : 12 * (tape.size - p) ≤ level) {start : Token}
    {init : Option Node} (hinit : ∀ node ∈ init, node.Fits tape.Tag .loopHead) :
    tape.Forms o p (g.countedLoop start init) .statement := by
  refine .expectMark fun _ ↦ (headPart_skips h (by omega) _).bind fun test q hq _ htest ↦ ?_
  refine .expectMark fun _ ↦ (headPart_skips h (by omega) _).bind fun update r hr _ hupdate ↦ ?_
  refine .expectMark fun _ ↦ (h.statement (by omega)).bind fun body s hs _ hbody ↦ ?_
  refine .node fun _ ↦ ⟨by omega, .of_plain rfl trivial ?_⟩
  simpa [Plain.slots, or_imp, forall_and] using ⟨hinit, ⟨htest, hupdate⟩, hbody⟩

theorem collectionLoop_forms (hlt : p < tape.size) (hlevel : 12 * (tape.size - p) ≤ level)
    {start : Token} {left : Node} (hleft : left.Fits tape.Tag .loopHead) (isAwait : Bool) :
    tape.Forms o p (g.collectionLoop start left isAwait) .statement := by
  refine .ask (.advance hlt (.choose (P := fun right q ↦ p < q ∧ right.Fits tape.Tag .expression)
    (fun _ ↦ ?_) (fun _ ↦ ?_) fun right q _ _ hright ↦ ?_))
  · exact (h.assignment (by omega)).onward (by omega)
  · exact (expression_forms h (by omega)).onward (by omega)
  obtain ⟨hq, hright⟩ := hright
  refine .expectMark fun _ ↦ (h.statement (by omega)).bind fun body r hr _ hbody ↦ ?_
  refine .node fun _ ↦ ⟨by omega, .of_plain rfl trivial ?_⟩
  simpa [Plain.slots] using ⟨hleft, hright, hbody⟩

theorem forStatement_forms (hlt : p < tape.size) (hlevel : 12 * (tape.size - p) ≤ level) :
    tape.Forms o p g.forStatement .statement := by
  refine .ask (.advance hlt (Reads.condition.bind fun isAwait q hq _ _ ↦ .expectMark fun _ ↦ ?_))
  refine .test (fun _ _ _ ↦ ?_) ((loopInit_forms h (by omega)).bind fun init r hr _ hinit ↦ ?_)
  · exact (countedLoop_forms h (by omega) (by simp)).onward (by omega)
  refine .ask (.ask (.ite (fun hkind ↦ ?_) fun _ ↦ ?_))
  · have hlt : r < tape.size := by
      rcases Bool.or_eq_true_iff.mp hkind with hof | hin
      · exact lt_size_of_beq hof
      · exact lt_size_of_beq hin
    exact (collectionLoop_forms h hlt (by omega) hinit isAwait).onward (by omega)
  · exact (countedLoop_forms h (by omega) (by simpa using hinit)).onward (by omega)

theorem whileStatement_forms (hlt : p < tape.size) (hlevel : 12 * (tape.size - p) ≤ level) :
    tape.Forms o p g.whileStatement .statement := by
  refine .ask (.advance hlt ((condition_forms h (by omega) _ _).bind fun test q hq _ htest ↦ ?_))
  refine (h.statement (by omega)).bind fun body r hr _ hbody ↦ .node fun _ ↦ ⟨by omega, ?_⟩
  exact .of_plain rfl trivial (by simpa [Plain.slots] using ⟨htest, hbody⟩)

theorem doWhileStatement_forms (hlt : p < tape.size) (hlevel : 12 * (tape.size - p) ≤ level) :
    tape.Forms o p g.doWhileStatement .statement := by
  refine .ask (.advance hlt ((h.statement (by omega)).bind fun body q hq _ hbody ↦ ?_))
  refine .expectWord fun _ ↦ (condition_forms h (by omega) _ _).bind fun test r hr _ htest ↦ ?_
  refine Reads.condition.discard.bind fun _ s hs _ _ ↦ .node fun _ ↦ ⟨by omega, ?_⟩
  exact .of_plain rfl trivial (by simpa [Plain.slots] using ⟨hbody, htest⟩)

/-! ## Jumps -/

omit h in
theorem jump_forms (hlt : p < tape.size) (isBreak : Bool) :
    tape.Forms o p (jump isBreak) .statement := by
  refine .ask (.advance hlt (.ask (.ask ?_)))
  refine (Skips.textIf fun hlabel _ _ ↦ ?_).bind fun label q hq _ _ ↦ ?_
  · have hname := (Bool.and_eq_true_iff.mp hlabel).1
    exact (Reads.takes (lt_size_of_holds (f := TokenKind.isName) hname rfl)).mono
      fun _ _ _ _ _ ↦ trivial
  refine Reads.semicolon.bind fun _ r hr _ _ ↦ .node fun _ ↦ ⟨by omega, ?_⟩
  exact .of_plain rfl trivial (by simp [Plain.slots])

theorem returnStatement_forms (hlt : p < tape.size) (hlevel : 12 * (tape.size - p) ≤ level) :
    tape.Forms o p g.returnStatement .statement := by
  refine .ask (.advance hlt (.ask (.ask (.ask ?_))))
  refine Reads.bind (P := fun argument _ ↦ ∀ node ∈ argument, node.Fits tape.Tag .expression)
    (.optionally (fun _ _ _ ↦ ?_) (by simp)) fun argument q hq _ hargument ↦ ?_
  · exact (expression_forms h (by omega)).mono fun _ _ _ _ hnode ↦ by simpa using hnode.2
  refine Reads.semicolon.bind fun _ r hr _ _ ↦ .node fun _ ↦ ⟨by omega, ?_⟩
  exact .of_plain rfl trivial (by simpa [Plain.slots] using hargument)

theorem throwStatement_forms (hlt : p < tape.size) (hlevel : 12 * (tape.size - p) ≤ level) :
    tape.Forms o p g.throwStatement .statement := by
  refine .ask (.advance hlt (.ask (.failWhen (by simp) fun _ ↦ ?_)))
  refine (expression_forms h (by omega)).bind fun argument q hq _ hargument ↦ ?_
  refine Reads.semicolon.bind fun _ r hr _ _ ↦ .node fun _ ↦ ⟨by omega, ?_⟩
  exact .of_plain rfl trivial (by simpa [Plain.slots] using hargument)

theorem catchParam_skips (hlevel : 12 * (tape.size - p) ≤ level) :
    tape.Skips o p g.catchParam fun param ↦ ∀ node ∈ param.1, node.Fits tape.Tag .expression := by
  refine .test (fun _ _ _ ↦ ?_) (.pure (by simp))
  refine (h.bindingTarget (by omega)).bind fun param q hq _ hparam ↦ ?_
  refine (annotation_skips h (by omega)).bind fun type r hr _ _ ↦ .expectMark fun _ ↦ .pure ?_
  simpa using hparam

theorem tryStatement_forms (hlt : p < tape.size) (hlevel : 12 * (tape.size - p) ≤ level) :
    tape.Forms o p g.tryStatement .statement := by
  refine .ask (.advance hlt ((block_forms h (by omega)).bind fun block q hq _ hblock ↦ ?_))
  refine Reads.bind (P := fun clause _ ↦ ∀ c ∈ clause,
      (∀ node ∈ c.1.1, node.Fits tape.Tag .expression) ∧ c.2.Fits tape.Tag .statement)
    (.optionally (fun _ _ _ ↦ ?_) (by simp)) fun clause r hr _ hclause ↦ ?_
  · refine (catchParam_skips h (by omega)).bind fun param r hr _ hparam ↦ ?_
    refine (block_forms h (by omega)).bind fun handler s hs _ hhandler ↦ .pure ?_
    simpa using ⟨hparam, hhandler⟩
  refine Reads.bind (P := fun finalizer _ ↦ ∀ node ∈ finalizer, node.Fits tape.Tag .statement)
    (.optionally (fun _ _ _ ↦ ?_) (by simp)) fun finalizer s hs _ hfinalizer ↦ ?_
  · exact (block_forms h (by omega)).mono fun _ _ _ _ hnode ↦ by simpa using hnode.2
  refine .failWhen (by simp) fun hsome ↦ .node fun _ ↦ ⟨by omega, .of_plain rfl ?_ ?_⟩
  · cases clause <;> cases finalizer <;> simp_all [Plain.Regular]
  · cases clause with
    | none => simpa [Plain.slots, TryShape.slots] using ⟨hblock, hfinalizer⟩
    | some c =>
      obtain ⟨hparam, hhandler⟩ := hclause c rfl
      simpa [Plain.slots, TryShape.slots, or_imp, forall_and] using
        ⟨⟨hblock, hhandler, hfinalizer⟩, hparam⟩

/-! ## All statements -/

theorem expressionStatement_forms (hlevel : 12 * (tape.size - p) + 6 ≤ level) :
    tape.Forms o p g.expressionStatement .statement := by
  refine .ask ((expression_forms h hlevel).bind fun inner q hq _ hinner ↦ ?_)
  refine Reads.semicolon.bind fun _ r hr _ _ ↦ .node fun _ ↦ ⟨by omega, ?_⟩
  exact .of_plain rfl trivial (by simpa [Plain.slots] using hinner)

theorem labeledStatement_forms (hlt : p < tape.size) (hlevel : 12 * (tape.size - p) ≤ level) :
    tape.Forms o p g.labeledStatement .statement := by
  refine .ask (.advance hlt (Reads.advance_skips.bind fun _ q hq _ _ ↦ ?_))
  refine (h.statement (by omega)).bind fun body r hr _ hbody ↦ .node fun _ ↦ ⟨by omega, ?_⟩
  exact .of_plain rfl trivial (by simpa [Plain.slots] using hbody)

theorem contextual_forms (hlevel : 12 * (tape.size - p) + 6 ≤ level) {fits : Parse Bool} {c : Prop}
    [Tests tape p fits p c] {declaration : Parse Node}
    (hdeclaration : c → tape.Forms o p declaration .statement) :
    tape.Forms o p (g.contextual fits declaration) .statement :=
  .test (fun hc _ _ ↦ hdeclaration hc) (expressionStatement_forms h hlevel)

omit h in
instance asks_atTypeAlias : Asks tape p atTypeAlias ((tape.kind (p + 1)).isName &&
    (tape.kind (p + 2) == .mark .assign || tape.kind (p + 2) == .mark .typeOpen ||
      tape.kind (p + 2) == .mark .lt)) := Asks.bind

omit h in
instance asks_atNamespace : Asks tape p atNamespace (!(tape.token (p + 1)).newlineBefore &&
    ((tape.kind (p + 1)).isName || tape.kind (p + 1) == .string)) := Asks.bind

omit h in
theorem asks_atAmbient : ∃ b, Asks tape p atAmbient b :=
  Asks.exists_bind ⟨_, inferInstance⟩

theorem statementStep_forms (hlevel : 12 * (tape.size - p) + 6 ≤ level) :
    tape.Forms o p g.statementStep .statement := by
  obtain ⟨startsAmbient, hambient⟩ : ∃ b, Asks tape p atAmbient b := asks_atAmbient
  have hclass : tape.Forms o p (g.classDeclaration [] false false) .statement :=
    (classDeclaration_passes h (by omega) (by simp) false false).weaken fun _ hnode ↦ hnode.1
  refine .nested (.ask ?_)
  split
  · exact block_forms h (by omega)
  · next hkind =>
    refine .advance (lt_size_of_kind hkind) (.node fun _ ↦ ⟨by omega, ?_⟩)
    exact .of_plain rfl trivial (by simp [Plain.slots])
  · next hkind =>
    refine .test (fun _ _ _ ↦ .advance (lt_size_of_kind hkind) ?_) ?_
    · exact (enumeration_forms h (by omega) true false).onward (by omega)
    · exact variableDeclaration_forms h (lt_size_of_kind hkind) (by omega) .statement
  · next hkind => exact variableDeclaration_forms h (lt_size_of_kind hkind) (by omega) .statement
  · exact contextual_forms h hlevel fun hlt ↦ variableDeclaration_forms h hlt (by omega) .statement
  · exact plainFunction_forms h (by omega) false
  · exact contextual_forms h hlevel fun _ ↦ asyncFunction_forms h (by omega) false
  · exact hclass
  · exact contextual_forms h hlevel fun _ ↦ maybeAbstractClass_forms h (by omega) (by simp)
  · exact decorated_forms h (by omega)
  · exact contextual_forms h hlevel fun _ ↦ interface_forms h (by omega) false
  · exact contextual_forms h hlevel fun _ ↦ typeAlias_forms h (by omega) false
  · exact enumeration_forms h (by omega) false false
  · next hkind =>
    exact contextual_forms h hlevel fun _ ↦
      namespaceDeclaration_forms h (lt_size_of_kind hkind) (by omega) false
  · next hkind =>
    exact contextual_forms h hlevel fun _ ↦
      namespaceDeclaration_forms h (lt_size_of_kind hkind) (by omega) false
  · next hkind =>
    exact contextual_forms h hlevel fun _ ↦
      ambientDeclaration_forms h (lt_size_of_kind hkind) (by omega)
  · exact contextual_forms h hlevel fun _ ↦ componentDeclaration_forms h (by omega)
  · refine .ask (.ask (.ite (fun _ ↦ expressionStatement_forms h hlevel) fun _ ↦ ?_))
    exact importDeclaration_forms h (by omega)
  · exact exportDeclaration_forms h (by omega)
  · next hkind => exact ifStatement_forms h (lt_size_of_kind hkind) (by omega)
  · next hkind => exact switchStatement_forms h (lt_size_of_kind hkind) (by omega)
  · next hkind => exact forStatement_forms h (lt_size_of_kind hkind) (by omega)
  · next hkind => exact whileStatement_forms h (lt_size_of_kind hkind) (by omega)
  · next hkind => exact doWhileStatement_forms h (lt_size_of_kind hkind) (by omega)
  · next hkind => exact jump_forms (lt_size_of_kind hkind) true
  · next hkind => exact jump_forms (lt_size_of_kind hkind) false
  · next hkind => exact returnStatement_forms h (lt_size_of_kind hkind) (by omega)
  · next hkind => exact throwStatement_forms h (lt_size_of_kind hkind) (by omega)
  · next hkind => exact tryStatement_forms h (lt_size_of_kind hkind) (by omega)
  · next hkind =>
    refine .advance (lt_size_of_kind hkind) (Reads.semicolon.bind fun _ q hq _ _ ↦ ?_)
    exact .node fun _ ↦ ⟨by omega, .of_plain rfl trivial (by simp [Plain.slots])⟩
  · next hkind =>
    exact contextual_forms h hlevel fun _ ↦
      labeledStatement_forms h (lt_size_of_kind hkind) (by omega)
  · exact expressionStatement_forms h hlevel

end Served

end Grammar

/-! ## Levels -/

/-- Each level reads what it stands for from the level below it. -/
theorem grammar_serves (tape : Tape) (level : Nat) : tape.Serves (grammar level) level := by
  induction level with
  | zero =>
    exact {
      rounds := Nat.le_refl 0
      statement := fun h ↦ by omega
      assignment := fun h ↦ by omega
      binary := fun h ↦ by omega
      unary := fun h ↦ by omega
      primary := fun h ↦ by omega
      construction := fun h ↦ by omega
      element := fun h ↦ by omega
      bindingTarget := fun h ↦ by omega
      type := fun h ↦ by omega
      typeOperator := fun h ↦ by omega }
  | succ level ih =>
    exact {
      rounds := Nat.le_refl (level + 1)
      statement := fun h ↦ Grammar.statementStep_forms ih (by omega)
      assignment := fun h ↦ Grammar.assignmentStep_forms ih (by omega)
      binary := fun h least ↦ Grammar.binaryStep_forms ih (by omega) least
      unary := fun h ↦ Grammar.unaryStep_forms ih (by omega)
      primary := fun h ↦ Grammar.primaryStep_forms ih (by omega)
      construction := fun h ↦ Grammar.constructionStep_forms ih (by omega)
      element := fun h ↦ Grammar.elementStep_passes ih (by omega)
      bindingTarget := fun h ↦ Grammar.bindingTargetStep_forms ih (by omega)
      type := fun h ↦ Grammar.typeStep_passes ih (by omega)
      typeOperator := fun h ↦ Grammar.typeOperatorStep_passes ih (by omega) }

end SignalView
