import SignalView.Proofs.Grammar.Operands

/-!
# Expressions and markup on a tape
-/

namespace SignalView.Grammar

open Parse Tape

variable {tape : Tape} {o p level : Nat} {g : Grammar}

section Served

variable (h : tape.Serves g level)

include h

/-! ## Operators -/

theorem incremented_forms (hlevel : 12 * (tape.size - p) + 3 ≤ level) :
    tape.Forms o p g.incremented .expression := by
  refine .ask ((leftHandSide_forms h hlevel).bind fun operand q hq _ hoperand ↦ ?_)
  refine .ask (.ask (.ite (fun hfound ↦ ?_) fun _ ↦ .pure ⟨hq, hoperand⟩))
  refine .take (lt_size_of_marks (Bool.and_eq_true_iff.mp hfound).1) (.node fun _ ↦ ⟨by omega, ?_⟩)
  exact .of_plain rfl trivial (by simpa [Plain.slots] using hoperand)

theorem unaryStep_forms (hlevel : 12 * (tape.size - p) + 3 ≤ level) :
    tape.Forms o p g.unaryStep .expression := by
  -- an operator in front of an operand, whatever is made of the two
  have hleading (hlt : p < tape.size) {form : Node → Plain Node}
      (hform : ∀ operand range, operand.Fits tape.Tag .expression →
        (Node.plain range (form operand)).Fits tape.Tag .expression) :
      tape.Forms o p (nested do
        advance
        let operand ← g.unary
        node (tape.token p) (form operand)) .expression := by
    refine .nested (.advance hlt ((h.unary (by omega)).bind fun operand q hq _ hoperand ↦ ?_))
    exact .node fun range ↦ ⟨by omega, hform operand range hoperand⟩
  have hunary (operand : Node) (range : Range) (hoperand : operand.Fits tape.Tag .expression) :
      (Node.plain range (.unary (tape.token p).value operand true)).Fits tape.Tag .expression :=
    .of_plain rfl trivial (by simpa [Plain.slots] using hoperand)
  refine .ask ?_
  split
  all_goals try next hkind => exact hleading (lt_size_of_kind hkind) hunary
  · next hkind =>
    refine .ask (.ite (fun _ ↦ incremented_forms h hlevel) fun _ ↦ ?_)
    refine hleading (lt_size_of_kind hkind) fun operand range hoperand ↦ ?_
    exact .of_plain rfl trivial (by simpa [Plain.slots] using hoperand)
  · exact incremented_forms h hlevel

theorem binaryLink_links (hlevel : 12 * (tape.size - p) ≤ level) {start : Token} {left : Node}
    (hleft : left.Fits tape.Tag .expression) (least : Nat) :
    tape.Links o p (g.binaryLink least start left) := by
  refine .ask (.ite (fun _ ↦ Links.stop) fun hstrength ↦ ?_)
  have hlt : p < tape.size :=
    lt_size_of_kind_ne fun hend ↦ hstrength (by simp [hend, precedence])
  refine .context ?_ fun context ↦ .ite (fun _ ↦ Links.stop) fun _ ↦ .ite (fun _ ↦ ?_) fun _ ↦ ?_
  · intro context deeper hnoIn
    simp only [hnoIn]
  · refine .ite (fun _ ↦ Links.stop) fun _ ↦ .advance hlt ?_
    refine (h.type (by omega)).bind fun type q hq _ _ ↦ Links.node (by omega) fun _ ↦ ?_
    exact .of_plain rfl trivial (by simpa [Plain.slots] using hleft)
  · refine .advance hlt ((h.binary (by omega) _).bind fun right q hq _ hright ↦ ?_)
    exact Links.node (by omega) fun _ ↦
      .of_plain rfl trivial (by simpa [Plain.slots] using ⟨hleft, hright⟩)

theorem binaryStep_forms (hlevel : 12 * (tape.size - p) + 4 ≤ level) (least : Nat) :
    tape.Forms o p (g.binaryStep least) .expression := by
  have hrounds := h.rounds
  refine .ask ((h.unary hlevel).bind fun first q hq _ hfirst ↦ ?_)
  have hchain : tape.Skips o q
      (iterate (Links.round (g.binaryLink least (tape.token p))) g.rounds first)
      (Node.Fits tape.Tag .expression) :=
    Links.chain (fun left r hr _ hleft ↦ binaryLink_links h (by omega) hleft least) (by omega)
      hfirst
  exact hchain.onward hq

theorem conditional_forms (hlevel : 12 * (tape.size - p) + 5 ≤ level) :
    tape.Forms o p g.conditional .expression := by
  refine .ask ((h.binary hlevel 1).bind fun test q hq _ htest ↦ ?_)
  refine .test (fun _ _ _ ↦ ?_) (.pure ⟨hq, htest⟩)
  refine (h.assignment (by omega)).allowingIn.bind ?_
  rintro consequent r _ _ ⟨hr, hconsequent⟩
  refine .expectMark fun _ ↦ (h.assignment (by omega)).bind fun alternate s hs _ halternate ↦ ?_
  exact .node fun _ ↦ ⟨by omega,
    .of_plain rfl trivial (by simpa [Plain.slots] using ⟨htest, hconsequent, halternate⟩)⟩

/-! ## Arrow functions -/

theorem arrowParams_passes (hlevel : 12 * (tape.size - p) ≤ level) :
    tape.Passes o p g.arrowParams fun parts ↦ ∀ param ∈ parts.1, tape.Fills param.slots := by
  refine .test (fun _ _ _ ↦ ?_) (.ask ?_)
  · refine (params_passes h hlevel).bind fun params q hq _ hparams ↦ ?_
    exact (annotation_skips h (by omega)).bind fun _ r hr _ _ ↦ .pure ⟨by omega, hparams⟩
  · refine Reads.expectName.bind fun name q hq _ _ ↦ .nodeThen fun _ ↦ .pure ⟨hq, ?_⟩
    simpa [Param.slots] using Node.identifier_fits

theorem arrowFunction_forms (hlevel : 12 * (tape.size - p) ≤ level) (isAsync : Bool) :
    tape.Forms o p (g.arrowFunction isAsync) .expression := by
  refine .choose (P := fun _ q ↦ q = p) (fun _ ↦ Reads.asked.mono fun _ _ _ _ h ↦ h.2)
    (fun _ ↦ Reads.asked.mono fun _ _ _ _ h ↦ h.2) ?_
  rintro start _ _ _ rfl
  refine (Skips.textIf fun _ _ _ ↦ (typeParameters_passes h hlevel).skips).bind fun _ q hq _ _ ↦ ?_
  refine (arrowParams_passes h (by omega)).bind ?_
  rintro ⟨params, returnType⟩ r hr _ hparams
  refine .expectMark fun _ ↦ .test (fun _ _ _ ↦ ?_) ?_
  · refine (block_forms h (by omega)).allowingIn.bind ?_
    rintro body s _ _ ⟨hs, hbody⟩
    exact .ask (.node fun _ ↦ ⟨by omega, .of_plain rfl trivial
      (by simpa [Plain.slots, Arrow.slots, ArrowBody.slots] using ⟨hparams, hbody⟩)⟩)
  · refine (h.assignment (by omega)).bind fun value s hs _ hvalue ↦ ?_
    exact .ask (.node fun _ ↦ ⟨by omega, .of_plain rfl trivial
      (by simpa [Plain.slots, Arrow.slots, ArrowBody.slots] using ⟨hparams, hvalue⟩)⟩)

omit h in
instance tests_atAsyncArrow : Tests tape p atAsyncArrow p (p < tape.size) := by
  by_cases hkind : tape.kind p = .word .async
  · obtain ⟨b, hb⟩ : ∃ b, Asks tape p atAsyncArrow b := by
      refine Asks.exists_bind (Asks.exists_bind ?_)
      split
      · refine Asks.exists_bind ?_
        split <;> exact ⟨_, inferInstance⟩
      · exact ⟨_, inferInstance⟩
    exact .of_asks hb fun _ ↦ lt_size_of_kind hkind
  · have hno : Asks tape p atAsyncArrow false := by
      refine ⟨fun context hfinal ↦ ?_⟩
      have hword : Asks tape p (atWord .async) (tape.kind p == .word .async) := inferInstance
      have hnext : Asks tape p (peek 1) (tape.token (p + 1)) := inferInstance
      rw [atAsyncArrow, Parse.bind_of_ok (hword.run context hfinal),
        Parse.bind_of_ok (hnext.run context hfinal), beq_false_of_ne hkind]
      rfl
    exact .of_asks hno (by simp)

omit h in
instance tests_atArrow : Tests tape p atArrow p True := by
  obtain ⟨b, hb⟩ : ∃ b, Asks tape p atArrow b := by
    refine Asks.exists_bind ?_
    split <;> exact ⟨_, inferInstance⟩
  exact .of_asks hb fun _ ↦ trivial

/-! ## Assignments -/

theorem yielding_forms (hlt : p < tape.size) (hlevel : 12 * (tape.size - p) ≤ level) :
    tape.Forms o p g.yielding .expression := by
  refine .ask (.advance hlt (Reads.condition.bind fun delegate q hq _ _ ↦ .ask ?_))
  refine Reads.bind (P := fun argument _ ↦ ∀ node ∈ argument, node.Fits tape.Tag .expression)
    (.optionally (fun _ _ _ ↦ ?_) (by simp)) fun argument r hr _ hargument ↦ .node fun _ ↦ ?_
  · exact (h.assignment (by omega)).mono fun _ _ _ _ hnode ↦ by simpa using hnode.2
  · exact ⟨by omega, .of_plain rfl trivial (by simpa [Plain.slots] using hargument)⟩

theorem assignmentStep_forms (hlevel : 12 * (tape.size - p) + 5 ≤ level) :
    tape.Forms o p g.assignmentStep .expression := by
  refine .nested (.ask (.test (fun _ _ _ ↦ ?_) (.test (fun _ _ _ ↦ ?_) (.test (fun hyield _ _ ↦ ?_)
    ((conditional_forms h hlevel).bind fun target q hq _ htarget ↦ .ask ?_)))))
  · refine Reads.advance_skips.bind fun _ q hq _ _ ↦ ?_
    exact (arrowFunction_forms h (by omega) true).onward hq
  · exact arrowFunction_forms h (by omega) false
  · exact yielding_forms h (lt_size_of_beq hyield) (by omega)
  · split
    · next m hkind =>
      refine .ite (fun _ ↦ ?_) fun _ ↦ .pure ⟨hq, htarget⟩
      refine .take (lt_size_of_kind hkind) ?_
      refine (h.assignment (by omega)).bind fun value r hr _ hvalue ↦ .node fun _ ↦ ⟨by omega, ?_⟩
      exact .of_plain rfl trivial (by simpa [Plain.slots] using ⟨htarget, hvalue⟩)
    · exact .pure ⟨hq, htarget⟩

/-! ## Tags -/

theorem tagName_passes (hlevel : 12 * (tape.size - p) ≤ level) :
    tape.Passes o p g.tagName tape.Tag := by
  have hrounds := h.rounds
  refine Passes.bind (Reads.expectMemberName (by simp)) fun name q hq _ hname ↦ ?_
  refine .test (fun _ _ _ ↦ .expect fun _ _ ↦ .pure ⟨by omega, ?_⟩) ?_
  · rw [List.append_assoc]
    exact hname _
  · refine (Reads.dottedMemberNames (by simp) (by omega)).bind fun path r hr _ _ ↦ ?_
    exact .pure ⟨by omega, hname path⟩

omit h in
theorem attributeName_passes : tape.Passes o p attributeName fun _ ↦ True := by
  refine Passes.bind (Reads.expectMemberName (by simp)) fun name q hq _ _ ↦ ?_
  refine (Skips.textIf fun _ _ _ ↦ ?_).bind fun _ r hr _ _ ↦ .pure ⟨by omega, trivial⟩
  exact .expect fun _ _ ↦ .pure trivial

theorem attributeValue_forms (hlevel : 12 * (tape.size - p) + 2 ≤ level) :
    tape.Forms o p g.attributeValue .attributeValue := by
  refine .ask (.test (fun _ _ _ ↦ ?_) (.test (fun _ _ _ ↦ ?_) (.test (fun _ _ _ ↦ ?_) ?_)))
  · exact .node fun _ ↦ ⟨by omega, .of_plain rfl trivial (by simp [Plain.slots])⟩
  · refine .ask (.failWhen (by simp) fun _ ↦ ?_)
    refine (h.assignment (by omega)).bind fun inner q hq _ hinner ↦ .expectMark fun _ ↦ ?_
    exact .surface fun _ ↦ ⟨by omega,
      .of_surface rfl trivial (by simpa [Surface.slots] using hinner)⟩
  · exact (h.element hlevel).weaken fun _ hnode ↦ hnode.1.of_isMarkup hnode.2 (.inl rfl)
  · exact .fail (by simp)

theorem markupAttribute_forms (hlevel : 12 * (tape.size - p) ≤ level) :
    tape.Forms o p g.markupAttribute .attribute := by
  refine .ask (.test (fun _ _ _ ↦ .expectMark fun _ ↦ ?_) ?_)
  · refine (h.assignment (by omega)).bind fun value q hq _ hvalue ↦ .expectMark fun _ ↦ ?_
    exact .surface fun _ ↦ ⟨by omega,
      .of_surface rfl trivial (by simpa [Surface.slots] using hvalue)⟩
  · refine attributeName_passes.bind fun name q hq _ _ ↦ ?_
    refine Reads.bind (P := fun value _ ↦ ∀ node ∈ value, node.Fits tape.Tag .attributeValue)
      (.optionally (fun _ _ _ ↦ ?_) (by simp)) fun value r hr _ hvalue ↦ .surface fun _ ↦ ?_
    · exact (attributeValue_forms h (by omega)).mono fun _ _ _ _ hnode ↦ by simpa using hnode.2
    · exact ⟨by omega, .of_surface rfl trivial (by simpa [Surface.slots] using hvalue)⟩

/-! ## Children -/

theorem child_passes (hlevel : 12 * (tape.size - p) + 2 ≤ level) :
    tape.Passes o p g.child fun child ↦ ∀ node ∈ child, node.Fits tape.Tag .child := by
  have hsome {q : Nat} (hq : p < q) {form : Surface Node} (hstands : form.stands .child)
      (hregular : form.Regular tape.Tag) (hslots : tape.Fills form.slots) :
      tape.Reads o q (do return some (← surface (tape.token p) form)) fun child r ↦
        p < r ∧ ∀ node ∈ child, node.Fits tape.Tag .child :=
    .surfaceThen fun _ ↦ .pure ⟨hq, by simpa using .of_surface hstands hregular hslots⟩
  refine .ask ?_
  split
  · next hkind =>
    refine .advance (lt_size_of_kind hkind) ?_
    refine .ite (fun _ ↦ .pure ⟨by omega, by simp⟩) fun hempty ↦ ?_
    exact hsome (by omega) rfl (by simpa [Surface.Regular] using hempty) (by simp [Surface.slots])
  · next hkind =>
    have hlt : p < tape.size := lt_size_of_kind hkind
    refine .advance hlt (.test (fun _ _ _ ↦ .pure ⟨by omega, by simp⟩) ?_)
    refine (spreadOr_forms (fun _ ↦ h.assignment (by omega)) (expression_forms h (by omega))).bind
      fun inner q hq _ hinner ↦ .expectMark fun _ ↦ ?_
    exact hsome (by omega) rfl trivial (by simpa [Surface.slots] using hinner)
  · refine (h.element hlevel).bind fun node q hq _ hnode ↦ .pure ⟨hq, ?_⟩
    simpa using hnode.1.of_isMarkup hnode.2 (.inr rfl)
  · exact .fail (by simp)

theorem childNodes_skips (hlevel : 12 * (tape.size - p) + 2 ≤ level) :
    tape.Skips o p g.childNodes fun nodes ↦ ∀ node ∈ nodes, node.Fits tape.Tag .child := by
  have hrounds := h.rounds
  refine (Reads.manyWhile (fun q hq _ _ _ ↦ child_passes h (by omega)) (by omega)).bind
    fun children r _ _ hchildren ↦ .pure fun node hnode ↦ ?_
  obtain ⟨_, hchild, rfl⟩ := List.mem_filterMap.mp hnode
  exact hchildren _ hchild node rfl

/-! ## Elements -/

omit h in
theorem element_fits {range : Range} {tag : Bytes} {attributes children : List Node}
    {selfClosing : Bool} (htag : tape.Tag tag)
    (hattributes : ∀ node ∈ attributes, node.Fits tape.Tag .attribute)
    (hchildren : ∀ node ∈ children, node.Fits tape.Tag .child) :
    (Node.surface range (.element tag attributes children selfClosing)).Fits tape.Tag .expression :=
  .of_surface rfl htag (by simpa [Surface.slots] using ⟨hattributes, hchildren⟩)

theorem fragmentRest_skips (hlevel : 12 * (tape.size - p) + 2 ≤ level) (start : Token) :
    tape.Skips o p (g.fragmentRest start) fun node ↦
      node.Fits tape.Tag .expression ∧ node.isMarkup := by
  refine (childNodes_skips h hlevel).bind fun children q _ _ hchildren ↦ .expectMark fun _ ↦ ?_
  refine .test (fun _ _ _ ↦ .surface fun _ ↦ ⟨?_, rfl⟩) (.fail (by simp))
  exact .of_surface rfl trivial (by simpa [Surface.slots] using hchildren)

theorem elementRest_passes (hlevel : 12 * (tape.size - p) ≤ level) (start : Token) {tag : Bytes}
    {attributes : List Node} (htag : tape.Tag tag)
    (hattributes : ∀ node ∈ attributes, node.Fits tape.Tag .attribute) :
    tape.Passes o p (g.elementRest start tag attributes) fun node ↦
      node.Fits tape.Tag .expression ∧ node.isMarkup := by
  refine .expectMark fun _ ↦ (childNodes_skips h (by omega)).bind fun children q _ _ hchildren ↦ ?_
  refine .discardExpect fun _ _ ↦ .ask ?_
  refine .within fun ho _ ↦ (tagName_passes h (by omega)).bind fun closing r hr _ _ ↦ ?_
  refine .ite (fun _ ↦ .failAtThen ho (by omega) (by simp)) fun _ ↦ .expectMark fun _ ↦ ?_
  exact .surface fun _ ↦ ⟨by omega, element_fits htag hattributes hchildren, rfl⟩

theorem elementStep_passes (hlevel : 12 * (tape.size - p) + 1 ≤ level) :
    tape.Passes o p g.elementStep fun node ↦ node.Fits tape.Tag .expression ∧ node.isMarkup := by
  have hrounds := h.rounds
  refine .nested (.expect fun _ hlt ↦ .test (fun _ _ _ ↦ ?_) ?_)
  · exact (fragmentRest_skips h (by omega) _).onward (by omega)
  refine (tagName_passes h (by omega)).bind fun tag q hq _ htag ↦ ?_
  refine (Reads.manyWhile (fun r hr _ _ _ ↦ markupAttribute_forms h (by omega)) (by omega)).bind
    fun attributes r hr _ hattributes ↦ ?_
  refine .test (fun _ _ _ ↦ .surface fun _ ↦ ⟨by omega, ?_, rfl⟩) ?_
  · exact element_fits htag hattributes (by simp)
  · exact (elementRest_passes h (by omega) _ htag hattributes).onward (by omega)

end Served

end SignalView.Grammar
