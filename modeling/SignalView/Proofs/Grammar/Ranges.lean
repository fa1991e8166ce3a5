import SignalView.Proofs.Grammar.Attempts
import SignalView.Proofs.Grammar.Extents
import SignalView.Proofs.Syntax.Ways
import SignalView.Proofs.Token.Tiling

/-!
# Ranges of nodes

What holds of operands holds of operators, markup, declarations and statements, and so of grammars
of any number of levels. The statements of a program lie one behind the other. With tokens that tile
a source, every node has a range there: it starts at the place of a token, and its end is the place
of its offset unless the last token is spread over lines.
-/

namespace SignalView

open Parse Tape

/-! ## Starts -/

namespace Tape

variable {tape : Tape} {o p s : Nat}

theorem previous_succ (hlt : p < tape.size) : tape.previous (p + 1) = tape.token p := by
  rw [Tape.previous, cursor_succ hlt]
  rfl

/-- A construct may start at a word that has been read. -/
theorem Reads.startOf {β : Type} {c : Prop} [Decidable c] {next : Token → Parse β}
    {R : β → Nat → Prop}
    (hstart : (if c then tape.previous p else tape.token p) = tape.token s)
    (hnext : tape.Reads o p (next (tape.token s)) R) :
    tape.Reads o p (if c then Parse.previous >>= next else Parse.current >>= next) R := by
  refine .ite (fun hc ↦ .ask ?_) fun hc ↦ .ask ?_
  · rwa [← hstart, if_pos hc] at hnext
  · rwa [← hstart, if_neg hc] at hnext

end Tape

namespace Grammar

variable {tape : Tape} {o p s level : Nat} {g : Grammar}

section Extents

variable (h : tape.Extends g level)
include h

/-! ## Operators -/

theorem incremented_lays (hlevel : 12 * (tape.size - p) + 3 ≤ level) :
    tape.Lays o p g.incremented := by
  refine .rebase (.ask ((leftHandSide_lays h hlevel).bind fun operand q hq _ hoperand ↦ ?_))
  refine .ask (.ask (.ite (fun hfound ↦ ?_) fun _ ↦ .pure ⟨hq, hoperand⟩))
  have hlt : q < tape.size := lt_size_of_marks (Bool.and_eq_true_iff.mp hfound).1
  refine .take hlt (.nodeFrom (by omega) ⟨by omega, .of_parts (by omega) rfl ?_⟩)
  simpa [Plain.children] using hoperand.upTo (q + 1) (Nat.le_succ q)

theorem unaryStep_lays (hlevel : 12 * (tape.size - p) + 3 ≤ level) :
    tape.Lays o p g.unaryStep := by
  -- an operator in front of an operand, whatever is made of the two
  have hleading (hlt : p < tape.size) {form : Node → Plain Node}
      (hform : ∀ operand, (form operand).literalKeys ++ (form operand).decorators = [])
      (hchildren : ∀ operand, (form operand).children = [operand]) :
      tape.Lays p p (nested do
        advance
        let operand ← g.unary
        node (tape.token p) (form operand)) := by
    refine .nested (.advance hlt ((h.unary (by omega)).bind fun operand q hq _ hoperand ↦ ?_))
    refine .nodeFrom (by omega) ⟨by omega, .of_parts (by omega) (hform operand) ?_⟩
    simpa [hchildren] using hoperand
  refine .rebase (.ask ?_)
  split
  all_goals try next hkind => exact hleading (lt_size_of_kind hkind) (fun _ ↦ rfl) fun _ ↦ rfl
  · next hkind =>
    refine .ask (.ite (fun _ ↦ incremented_lays h hlevel) fun _ ↦ ?_)
    exact hleading (lt_size_of_kind hkind) (fun _ ↦ rfl) fun _ ↦ rfl
  · exact incremented_lays h hlevel

theorem binaryLink_within (hlevel : 12 * (tape.size - p) ≤ level) {left : Node}
    (hleft : tape.Within s p left) (least : Nat) :
    LinksTo tape s p (g.binaryLink least (tape.token s) left) := by
  have hsp := hleft.lt
  refine .ask (.ite (fun _ ↦ LinksTo.stop) fun hstrength ↦ ?_)
  have hlt : p < tape.size :=
    lt_size_of_kind_ne fun hend ↦ hstrength (by simp [hend, precedence])
  refine .context ?_ fun context ↦ .ite (fun _ ↦ LinksTo.stop) fun _ ↦ .ite (fun _ ↦ ?_)
    fun _ ↦ ?_
  · intro context deeper hnoIn
    simp only [hnoIn]
  · refine .ite (fun _ ↦ LinksTo.stop) fun _ ↦ .advance hlt ?_
    refine (h.serves.type (by omega)).bind fun type q hq _ _ ↦ ?_
    refine LinksTo.node hsp (by omega) (.of_parts (by omega) rfl ?_)
    simpa [Plain.children] using hleft.upTo q (by omega)
  · refine .advance hlt ((h.binary (by omega) _).bind fun right q hq _ hright ↦ ?_)
    refine LinksTo.node hsp (by omega) (.of_parts (by omega) rfl ?_)
    simpa [Plain.children] using ⟨hleft.upTo q (by omega), hright⟩

theorem binaryStep_lays (hlevel : 12 * (tape.size - p) + 4 ≤ level) (least : Nat) :
    tape.Lays o p (g.binaryStep least) := by
  have hrounds := h.serves.rounds
  refine .rebase (.ask ((h.unary hlevel).bind fun first q hq _ hfirst ↦ ?_))
  have hchain : tape.Reads p q
      (iterate (Links.round (g.binaryLink least (tape.token p))) g.rounds first)
      fun node r ↦ tape.Within p r node :=
    links_within hfirst (fun _ r hr _ hleft ↦ binaryLink_within h (by omega) hleft least)
      (by omega)
  exact hchain.mono fun node r hr _ hnode ↦ ⟨by omega, hnode⟩

theorem conditional_lays (hlevel : 12 * (tape.size - p) + 5 ≤ level) :
    tape.Lays o p g.conditional := by
  refine .rebase (.ask ((h.binary hlevel 1).bind fun test q hq _ htest ↦ ?_))
  refine .test (fun _ _ _ ↦ ?_) (.pure ⟨hq, htest⟩)
  refine (h.assignment (by omega)).allowingIn.bind ?_
  rintro consequent r _ _ ⟨hr, hconsequent⟩
  refine .expectMark fun _ ↦ (h.assignment (by omega)).bind fun alternate t ht _ halternate ↦ ?_
  refine .nodeFrom (by omega) ⟨by omega, .of_parts (by omega) rfl ?_⟩
  simpa [Plain.children] using
    ⟨htest.upTo t (by omega), hconsequent.upTo t (by omega), halternate⟩

/-! ## Arrow functions -/

theorem arrowParams_within (hlevel : 12 * (tape.size - p) ≤ level) :
    tape.PassesTo o p g.arrowParams fun parts q ↦
      ∀ param ∈ parts.1, tape.AllWithin o q param.children := by
  refine .within fun ho _ ↦ .test (fun _ _ _ ↦ ?_) (.ask ?_)
  · refine (params_within h hlevel).bind fun params q hq _ hparams ↦ ?_
    refine (annotation_skips h.serves (by omega)).bind fun _ r hr _ _ ↦ .pure ⟨by omega, ?_⟩
    exact fun param hmem ↦ (hparams param hmem).upTo r hr
  · refine Reads.expectName.bind fun name q hq _ _ ↦ .nodeFromThen (by omega) (.pure ⟨hq, ?_⟩)
    have hname : tape.Within p q (.plain (tape.span p q) (.identifier name)) := .leaf hq rfl rfl
    simpa [Param.children] using hname.mono ho (Nat.le_refl q)

/-- The word `async` is the token before an arrow function that starts with it. -/
theorem arrowFunction_lays (hlevel : 12 * (tape.size - p) ≤ level) (isAsync : Bool) (hsp : s ≤ p)
    (hstart : (if isAsync then tape.previous p else tape.token p) = tape.token s) :
    tape.Lays s p (g.arrowFunction isAsync) := by
  refine .startOf hstart ((Skips.textIf fun _ _ _ ↦
    (typeParameters_passes h.serves hlevel).skips).bind fun _ q hq _ _ ↦ ?_)
  refine (arrowParams_within h (by omega)).bind ?_
  rintro ⟨params, returnType⟩ r hr _ hparams
  have hparts {t : Nat} (hrt : r ≤ t) {body : Node} (hbody : tape.Within s t body) :
      tape.AllWithin s t (params.flatMap (·.children) ++ [body]) := by
    refine AllWithin.append_iff.mpr ⟨AllWithin.flatMap_iff.mpr fun param hmem ↦ ?_, ?_⟩
    · exact (hparams param hmem).upTo t hrt
    · simpa using hbody
  refine .expectMark fun _ ↦ .test (fun _ _ _ ↦ ?_) ?_
  · refine (block_lays h (by omega)).allowingIn.bind ?_
    rintro body t _ _ ⟨ht, hbody⟩
    refine .ask ?_
    exact .nodeFrom (by omega) ⟨by omega, .of_parts (by omega) rfl (hparts (by omega) hbody)⟩
  · refine (h.assignment (by omega)).bind fun value t ht _ hvalue ↦ .ask ?_
    exact .nodeFrom (by omega) ⟨by omega, .of_parts (by omega) rfl (hparts (by omega) hvalue)⟩

/-! ## Assignments -/

theorem yielding_lays (hlt : p < tape.size) (hlevel : 12 * (tape.size - p) ≤ level) :
    tape.Lays o p g.yielding := by
  refine .rebase (.ask (.advance hlt (Reads.condition.bind fun delegate q hq _ _ ↦ .ask ?_)))
  refine (Reads.optionallyWithin fun _ _ _ ↦ h.assignment (by omega)).bind
    fun argument r hr _ hargument ↦ .nodeFrom (by omega) ⟨by omega, ?_⟩
  exact .of_parts (by omega) rfl hargument

theorem assignmentStep_lays (hlevel : 12 * (tape.size - p) + 5 ≤ level) :
    tape.Lays o p g.assignmentStep := by
  refine .nested (Lays.rebase (.ask (.test (fun hlt _ _ ↦ .advance hlt ?_) (.test (fun _ _ _ ↦ ?_)
    (.test (fun hyield _ _ ↦ ?_) ((conditional_lays h hlevel).bind
      fun target q hq _ htarget ↦ .ask ?_))))))
  · have hp : p ≤ p + 1 := Nat.le_succ p
    exact (arrowFunction_lays h (by omega) true hp (previous_succ hlt)).onward hp
  · exact arrowFunction_lays h (by omega) false (Nat.le_refl p) rfl
  · exact yielding_lays h (lt_size_of_beq hyield) (by omega)
  · split
    · next m hkind =>
      refine .ite (fun _ ↦ .take (lt_size_of_kind hkind) ?_) fun _ ↦ .pure ⟨hq, htarget⟩
      refine (h.assignment (by omega)).bind fun value r hr _ hvalue ↦ ?_
      refine .nodeFrom (by omega) ⟨by omega, .of_parts (by omega) rfl ?_⟩
      simpa [Plain.children] using ⟨htarget.upTo r (by omega), hvalue⟩
    · exact .pure ⟨hq, htarget⟩

/-! ## Markup -/

theorem attributeValue_lays (hlevel : 12 * (tape.size - p) + 2 ≤ level) :
    tape.Lays o p g.attributeValue := by
  refine .rebase (.ask (.test (fun _ _ _ ↦ ?_) (.test (fun _ _ _ ↦ ?_)
    (.test (fun _ _ _ ↦ ?_) ?_))))
  · exact .nodeFrom (by omega) ⟨by omega, .leaf (by omega) rfl rfl⟩
  · refine .ask (.failWhen (by simp) fun _ ↦ ?_)
    refine (h.assignment (by omega)).bind fun inner q hq _ hinner ↦ .expectMark fun _ ↦ ?_
    refine .surfaceFrom (by omega) ⟨by omega, .of_surface_parts (by omega) ?_⟩
    simpa [Surface.children] using hinner.upTo (q + 1) (Nat.le_succ q)
  · exact h.element hlevel
  · exact .fail (by simp)

theorem markupAttribute_lays (hlevel : 12 * (tape.size - p) ≤ level) :
    tape.Lays o p g.markupAttribute := by
  refine .rebase (.ask (.test (fun _ _ _ ↦ .expectMark fun _ ↦ ?_) ?_))
  · refine (h.assignment (by omega)).bind fun value q hq _ hvalue ↦ .expectMark fun _ ↦ ?_
    refine .surfaceFrom (by omega) ⟨by omega, .of_surface_parts (by omega) ?_⟩
    simpa [Surface.children] using hvalue.upTo (q + 1) (Nat.le_succ q)
  · refine attributeName_passes.bind fun name q hq _ _ ↦ ?_
    refine (Reads.optionallyWithin fun _ _ _ ↦ attributeValue_lays h (by omega)).bind
      fun value r hr _ hvalue ↦ .surfaceFrom (by omega) ⟨by omega, ?_⟩
    exact .of_surface_parts (by omega) hvalue

theorem child_within (hlevel : 12 * (tape.size - p) + 2 ≤ level) :
    tape.PassesTo o p g.child fun child q ↦ tape.AllWithin o q child.toList := by
  have hsome {q : Nat} (hq : p < q) {form : Surface Node}
      (hparts : tape.AllWithin p q form.children) :
      tape.Reads p q (do return some (← surface (tape.token p) form)) fun child r ↦
        p < r ∧ tape.AllWithin p r child.toList := by
    refine .returnSome (.surfaceFrom hq ⟨hq, ?_⟩)
    simpa using Within.of_surface_parts hq hparts
  suffices hchild : tape.PassesTo p p g.child fun child q ↦ tape.AllWithin p q child.toList by
    refine .within fun ho _ ↦ (Reads.rebase hchild ho (Nat.le_refl p)).mono ?_
    exact fun _ q _ _ hnodes ↦ ⟨hnodes.1, hnodes.2.mono ho (Nat.le_refl q)⟩
  refine .ask ?_
  split
  · next hkind =>
    refine .advance (lt_size_of_kind hkind) ?_
    refine .ite (fun _ ↦ .pure ⟨by omega, by simp⟩) fun _ ↦ ?_
    exact hsome (by omega) (by simp [Surface.children])
  · next hkind =>
    have hlt : p < tape.size := lt_size_of_kind hkind
    refine .advance hlt (.test (fun _ _ _ ↦ .pure ⟨by omega, by simp⟩) ?_)
    refine (spreadOr_lays (fun _ ↦ h.assignment (by omega)) (expression_lays h (by omega))).bind
      fun inner q hq _ hinner ↦ .expectMark fun _ ↦ hsome (by omega) ?_
    simpa [Surface.children] using hinner.upTo (q + 1) (Nat.le_succ q)
  · refine (h.element hlevel).bind fun node q hq _ hnode ↦ .pure ⟨hq, ?_⟩
    simpa using hnode
  · exact .fail (by simp)

theorem childNodes_within (hlevel : 12 * (tape.size - p) + 2 ≤ level) :
    tape.Reads o p g.childNodes fun nodes q ↦ tape.AllWithin o q nodes := by
  have hrounds := h.serves.rounds
  refine (Reads.manyWhileTo (K := fun child q ↦ tape.AllWithin o q child.toList)
    (fun _ _ ↦ AllWithin.upTo) (fun q hq _ _ _ ↦ child_within h (by omega)) (by omega)).bind
    fun children r _ _ hchildren ↦ .pure fun node hnode ↦ ?_
  obtain ⟨child, hchild, rfl⟩ := List.mem_filterMap.mp hnode
  exact hchildren _ hchild node (by simp)

theorem fragmentRest_lays (hsp : s ≤ p) (hlevel : 12 * (tape.size - p) + 2 ≤ level) :
    tape.Lays s p (g.fragmentRest (tape.token s)) := by
  refine (childNodes_within h hlevel).bind fun children q hq _ hchildren ↦ .expectMark fun _ ↦ ?_
  refine .test (fun _ _ _ ↦ .surfaceFrom (by omega) ⟨by omega, ?_⟩) (.fail (by simp))
  exact .of_surface_parts (by omega) (hchildren.upTo _ (by omega))

theorem elementRest_lays (hsp : s ≤ p) (hlevel : 12 * (tape.size - p) ≤ level) {tag : Bytes}
    {attributes : List Node} (hattributes : tape.AllWithin s p attributes) :
    tape.Lays s p (g.elementRest (tape.token s) tag attributes) := by
  refine .expectMark fun _ ↦ (childNodes_within h (by omega)).bind fun children q _ _ hchildren ↦ ?_
  refine .discardExpect fun _ _ ↦ .ask ?_
  refine .within fun ho _ ↦ (tagName_passes h.serves (by omega)).bind fun closing r hr _ _ ↦ ?_
  refine .ite (fun _ ↦ .failAtThen ho (by omega) (by simp)) fun _ ↦ .expectMark fun _ ↦ ?_
  refine .surfaceFrom (by omega) ⟨by omega, .of_surface_parts (by omega) ?_⟩
  exact AllWithin.append_iff.mpr ⟨hattributes.upTo _ (by omega), hchildren.upTo _ (by omega)⟩

theorem elementStep_lays (hlevel : 12 * (tape.size - p) + 1 ≤ level) :
    tape.Lays o p g.elementStep := by
  have hrounds := h.serves.rounds
  refine .nested (Lays.rebase (.expect fun _ hlt ↦ .test (fun _ _ _ ↦ ?_) ?_))
  · exact (fragmentRest_lays h (by omega) (by omega)).onward (by omega)
  refine (tagName_passes h.serves (by omega)).bind fun tag q hq _ _ ↦ ?_
  refine (Reads.manyWhileWithin (fun r hr _ _ _ ↦ markupAttribute_lays h (by omega))
    (by omega)).bind fun attributes r hr _ hattributes ↦ ?_
  refine .test (fun _ _ _ ↦ .surfaceFrom (by omega) ⟨by omega, .of_surface_parts (by omega) ?_⟩) ?_
  · simpa [Surface.children] using hattributes.upTo (r + 1) (Nat.le_succ r)
  · exact (elementRest_lays h (by omega) (by omega) hattributes).onward (by omega)

/-! ## Variables -/

theorem declarator_within (hlevel : 12 * (tape.size - p) + 2 ≤ level) (place : VariablePlace)
    (keyword : Bytes) :
    tape.PassesTo o p (g.declarator place keyword) fun result q ↦
      tape.AllWithin o q result.1.children := by
  refine (h.bindingTarget hlevel).bind fun target q hq _ htarget ↦ .ask (.ask ?_)
  refine .iteThen (P := fun r ↦ q ≤ r) (fun _ ↦ ?_) (fun _ ↦ Nat.le_refl q) fun r hr _ _ ↦ ?_
  · exact Reads.advance_skips.mono fun _ _ hr _ _ ↦ hr
  refine (annotation_skips h.serves (by omega)).bind fun type t ht _ _ ↦ .ask (.ask ?_)
  have hbare : tape.AllWithin o t [target] := by simpa using htarget.upTo t (by omega)
  refine .ite (fun _ ↦ .pure ⟨by omega, hbare⟩) fun _ ↦ .test (fun _ _ _ ↦ ?_)
    (.ite (fun _ ↦ .fail (by simp)) fun _ ↦ .pure ⟨by omega, hbare⟩)
  refine (h.assignment (by omega)).bind fun value u hu _ hvalue ↦ .pure ⟨by omega, ?_⟩
  simpa [Declarator.children] using ⟨htarget.upTo u (by omega), hvalue⟩

theorem declarators_within (hlevel : 12 * (tape.size - p) + 2 ≤ level) (place : VariablePlace)
    (keyword : Bytes) :
    tape.PassesTo o p (g.declarators place keyword) fun result q ↦
      ∀ d ∈ result.1, tape.AllWithin o q d.children := by
  have hrounds := h.serves.rounds
  refine .iterate (P := fun state q ↦ ∀ d ∈ state.1, tape.AllWithin o q d.children) ?_
    (by omega) (by simp)
  intro state q hq _ hstate
  refine (declarator_within h (by omega) place keyword).bind ?_
  rintro ⟨next, mayContinue⟩ r hr _ hnext
  have hmore (t : Nat) (hrt : r ≤ t) :
      ∀ d ∈ state.1 ++ [next], tape.AllWithin o t d.children :=
    Reads.forall_concat (K := fun (d : Declarator Node) q ↦ tape.AllWithin o q d.children)
      (fun _ _ ↦ AllWithin.upTo) hstate (by omega) (hnext.upTo t hrt)
  refine .ite (fun _ ↦ .decide (fun _ hrt _ ↦ .pure (.more (by omega) (hmore _ hrt))) ?_)
    fun _ ↦ .ask ?_
  · exact .pure (.last ⟨by omega, hmore r (Nat.le_refl r)⟩)
  · exact .pure (.last ⟨by omega, hmore r (Nat.le_refl r)⟩)

theorem variableDeclaration_declares (hlt : p < tape.size) (hlevel : 12 * (tape.size - p) ≤ level)
    (place : VariablePlace) : tape.Declares o p (g.variableDeclaration place) [] := by
  refine .rebase (.ask (.advance hlt ((declarators_within h (by omega) place _).bind ?_)))
  rintro ⟨declarators, mayContinue⟩ q hq _ hdeclarators
  refine .iteThen (P := fun r ↦ q ≤ r) (fun _ ↦ ?_) (fun _ ↦ Nat.le_refl q)
    fun r hr _ _ ↦ .nodeFrom (by omega) ⟨by omega, .of_parts (by omega) rfl ?_, rfl⟩
  · exact Reads.semicolon.mono fun _ _ hr _ _ ↦ hr
  · exact AllWithin.flatMap_iff.mpr fun d hd ↦ (hdeclarators d hd).upTo r hr

/-! ## Functions and components -/

theorem functionDeclaration_declares (hsp : s ≤ p) (hlevel : 12 * (tape.size - p) ≤ level)
    (mayBeAnonymous isAsync isDeclare : Bool) :
    tape.Declares s p (g.functionDeclaration (tape.token s) mayBeAnonymous isAsync isDeclare)
      [] := by
  refine .expectWord fun _ ↦ Reads.condition.bind fun isGenerator q hq _ _ ↦ .ask ?_
  refine .failWhen (by simp) fun _ ↦ (Reads.nameIf id).bind fun name r hr _ _ ↦ ?_
  refine (signature_within h (by omega) _).bind ?_
  rintro f t ht _ ⟨-, hparams⟩
  refine .ask ((Reads.optionallyWithin fun _ _ _ ↦ block_lays h (by omega)).bind
    fun body u hu _ hbody ↦ ?_)
  refine .iteThen (P := fun v ↦ u ≤ v) (fun _ ↦ ?_) (fun _ ↦ Nat.le_refl u)
    fun v hv _ _ ↦ .nodeFrom (by omega) ⟨by omega, .of_parts (by omega) rfl ?_, rfl⟩
  · exact Reads.semicolon.mono fun _ _ hr _ _ ↦ hr
  · exact callable_children_within (by omega) hparams (hbody.upTo v hv)

theorem plainFunction_declares (hlevel : 12 * (tape.size - p) ≤ level) (isDeclare : Bool) :
    tape.Declares o p (g.plainFunction isDeclare) [] :=
  .rebase (.ask (.ask (functionDeclaration_declares h (Nat.le_refl p) hlevel _ _ _)))

theorem asyncFunction_declares (hlevel : 12 * (tape.size - p) ≤ level) (isDeclare : Bool) :
    tape.Declares o p (g.asyncFunction isDeclare) [] := by
  refine .rebase (.ask (.ask (Reads.advance_skips.bind fun _ q hq _ _ ↦ ?_)))
  exact (functionDeclaration_declares h hq (by omega) _ _ _).onward hq

theorem componentDeclaration_lays (hlevel : 12 * (tape.size - p) ≤ level) :
    tape.Lays o p g.componentDeclaration := by
  refine .rebase (.ask (.expectWord fun _ ↦ Reads.expectName.bind fun name q hq _ _ ↦ ?_))
  refine (signature_within h (by omega) _).bind ?_
  rintro f r hr _ ⟨-, hparams⟩
  refine .ask (.failWhen (by simp) fun _ ↦ ?_)
  refine (block_lays h (by omega)).bind fun body t ht _ hbody ↦ ?_
  refine .surfaceFrom (by omega) ⟨by omega, .of_surface_parts (by omega) ?_⟩
  exact callable_children_within (by omega) hparams (by simpa using hbody)

/-! ## Types -/

theorem interface_declares (hlevel : 12 * (tape.size - p) ≤ level) (isDeclare : Bool) :
    tape.Declares o p (g.interface isDeclare) [] := by
  have hrounds := h.serves.rounds
  refine .rebase (.ask (.expectWord fun _ ↦ Reads.expectName.bind fun name q hq _ _ ↦ ?_))
  refine (optionalTypeParameters_skips h.serves (by omega)).bind fun _ r hr _ _ ↦ ?_
  refine .either (P := fun _ t ↦ r ≤ t) (fun _ _ _ ↦ ?_) (.pure (Nat.le_refl r))
    fun extended t ht _ _ ↦ .expectMark fun _ ↦ ?_
  · exact (Reads.separated (fun _ _ _ ↦ h.serves.type (by omega)) (by omega)).mono
      fun _ _ _ _ _ ↦ by omega
  refine (typeMembers_skips h.serves (by omega)).bind fun members u hu _ _ ↦ .expectMark fun _ ↦ ?_
  exact .nodeFrom (by omega) ⟨by omega, .leaf (by omega) rfl rfl, rfl⟩

theorem typeAlias_declares (hlevel : 12 * (tape.size - p) ≤ level) (isDeclare : Bool) :
    tape.Declares o p (g.typeAlias isDeclare) [] := by
  refine .rebase (.ask (.expectWord fun _ ↦ Reads.expectName.bind fun name q hq _ _ ↦ ?_))
  refine (optionalTypeParameters_skips h.serves (by omega)).bind fun _ r hr _ _ ↦ ?_
  refine .expectMark fun _ ↦ (h.serves.type (by omega)).bind fun type t ht _ _ ↦ ?_
  refine Reads.semicolon.bind fun _ u hu _ _ ↦ .nodeFrom (by omega) ⟨by omega, ?_, rfl⟩
  exact .leaf (by omega) rfl rfl

theorem enumMember_within (hlevel : 12 * (tape.size - p) ≤ level) :
    tape.PassesTo o p g.enumMember fun m q ↦ tape.AllWithin o q m.init.toList := by
  refine .ask (.failWhen (by simp) fun hname ↦ ?_)
  have hlt : p < tape.size :=
    lt_size_of_holds (f := TokenKind.isPropertyName) (by simpa using hname) rfl
  refine .advance hlt ((initial_within h (by omega)).bind fun init q hq _ hinit ↦ ?_)
  exact .pure ⟨by omega, hinit⟩

/-- The word `const` is the token before an enumeration that starts with it. -/
theorem enumeration_declares (hlevel : 12 * (tape.size - p) ≤ level) (isConst isDeclare : Bool)
    (hsp : s ≤ p)
    (hstart : (if isConst then tape.previous p else tape.token p) = tape.token s) :
    tape.Declares s p (g.enumeration isConst isDeclare) [] := by
  have hrounds := h.serves.rounds
  refine .startOf hstart (.expectWord fun _ ↦ Reads.expectName.bind
    fun name q hq _ _ ↦ .expectMark fun _ ↦ ?_)
  refine (Reads.commaListTo (K := fun m q ↦ tape.AllWithin s q m.init.toList)
    (fun _ _ ↦ AllWithin.upTo) (fun r hr _ _ _ ↦ enumMember_within h (by omega)) (by omega)).bind
    fun members r hr _ hmembers ↦ .expectMark fun _ ↦ .nodeFrom (by omega) ⟨by omega, ?_, rfl⟩
  refine .of_parts (by omega) rfl (AllWithin.flatMap_iff.mpr fun m hm ↦ ?_)
  exact (hmembers m hm).upTo (r + 1) (Nat.le_succ r)

/-! ## Namespaces -/

theorem namespaceDeclaration_declares (hlt : p < tape.size)
    (hlevel : 12 * (tape.size - p) ≤ level) (isDeclare : Bool) :
    tape.Declares o p (g.namespaceDeclaration isDeclare) [] := by
  have hrounds := h.serves.rounds
  refine .rebase (.ask (.ask (.advance hlt ?_)))
  refine .choose (P := fun _ q ↦ p < q) (fun _ ↦ .pure (by omega))
    (fun _ ↦ (namespaceName_passes h.serves (by omega)).mono fun _ _ _ _ _ ↦ by omega)
    fun name q _ _ hq ↦ .test (fun _ _ _ ↦ ?_) (Reads.semicolon.bind fun _ r hr _ _ ↦ ?_)
  · refine (Reads.manyWhileWithin (fun r hr _ _ _ ↦ h.statement (by omega)) (by omega)).bind
      fun body r hr _ hbody ↦ .expectMark fun _ ↦ .nodeFrom (by omega) ⟨by omega, ?_, rfl⟩
    exact .of_parts (by omega) rfl (hbody.upTo (r + 1) (Nat.le_succ r))
  · exact .nodeFrom (by omega) ⟨by omega, .leaf (by omega) rfl rfl, rfl⟩

/-! ## Ambient declarations and decorators -/

theorem ambient_declares (hlevel : 12 * (tape.size - p) ≤ level) :
    tape.Declares o p g.ambient [] := by
  refine .rebase (.ask ?_)
  split
  · next hkind => exact variableDeclaration_declares h (lt_size_of_kind hkind) hlevel .ambient
  · next hkind => exact variableDeclaration_declares h (lt_size_of_kind hkind) hlevel .ambient
  · next hkind =>
    have hlt : p < tape.size := lt_size_of_kind hkind
    refine .test (fun _ _ _ ↦ .advance hlt ?_) ?_
    · have hp : p ≤ p + 1 := Nat.le_succ p
      exact (enumeration_declares h (by omega) true true hp (previous_succ hlt)).onward hp
    · exact variableDeclaration_declares h hlt hlevel .ambient
  · exact plainFunction_declares h hlevel true
  · exact asyncFunction_declares h hlevel true
  · exact classDeclaration_declares h hlevel AllWithin.nil false true
  · next hkind =>
    refine .advance (lt_size_of_kind hkind) ?_
    exact (classDeclaration_declares h (by omega) AllWithin.nil true true).onward (by omega)
  · exact interface_declares h hlevel true
  · exact typeAlias_declares h hlevel true
  · exact enumeration_declares h hlevel false true (Nat.le_refl p) rfl
  · next hkind => exact namespaceDeclaration_declares h (lt_size_of_kind hkind) hlevel true
  · next hkind => exact namespaceDeclaration_declares h (lt_size_of_kind hkind) hlevel true
  · refine .test (fun hglobal _ _ ↦ ?_) (.fail (by simp))
    have hlt : p < tape.size := lt_size_of_beq (Bool.and_eq_true_iff.mp hglobal).1
    exact namespaceDeclaration_declares h hlt hlevel true

theorem ambientDeclaration_lays (hlt : p < tape.size) (hlevel : 12 * (tape.size - p) ≤ level) :
    tape.Lays o p g.ambientDeclaration := by
  have hp : p ≤ p + 1 := Nat.le_succ p
  refine .rebase (.ask (.advance hlt ?_))
  -- the declaration has a start of its own until it is moved
  refine (Reads.rebase (ambient_declares h (o := p + 1) (by omega)) hp (Nat.le_refl _)).bind ?_
  rintro node q _ _ ⟨hq, hnode, hdecorators⟩
  exact .pure ⟨by omega, hnode.startingAt hp hdecorators⟩

theorem maybeAbstractClass_lays (hlevel : 12 * (tape.size - p) ≤ level) {decorators : List Node}
    (hdecorators : tape.AllWithin 0 p decorators) :
    tape.Lays o p (g.maybeAbstractClass decorators) := by
  refine Reads.condition.bind fun isAbstract q hq _ _ ↦ ?_
  have hdecorators := hdecorators.upTo q hq
  exact (classDeclaration_declares h (by omega) hdecorators isAbstract false).lays.onward hq

theorem decorated_lays (hlevel : 12 * (tape.size - p) + 1 ≤ level) :
    tape.Lays o p g.decorated := by
  refine (decorators_within h hlevel).bind fun decorators q hq _ hdecorators ↦ .ask ?_
  have hdecorators := hdecorators.mono (Nat.zero_le o) (Nat.le_refl q)
  suffices hclass : tape.Lays q q (do
      if ← acceptWord .export_ then
        let isDefault ← acceptWord .default
        let declaration ← g.maybeAbstractClass decorators
        if isDefault then node (tape.token q) (.exportDefault (.declaration declaration))
        else node (tape.token q) (.exportNamed (some declaration) [] [] false)
      else g.maybeAbstractClass decorators) from hclass.rebase.onward hq
  refine .test (fun _ _ _ ↦ Reads.condition.bind fun isDefault r hr _ _ ↦ ?_) ?_
  · have hdecorators := hdecorators.upTo r (by omega)
    refine (maybeAbstractClass_lays h (by omega) hdecorators).bind fun node t ht _ hnode ↦ ?_
    refine .ite (fun _ ↦ ?_) fun _ ↦ ?_
    · refine .nodeFrom (by omega) ⟨by omega, .of_parts (by omega) rfl ?_⟩
      simpa [Plain.children, DefaultExport.node] using hnode
    · refine .nodeFrom (by omega) ⟨by omega, .of_parts (by omega) rfl ?_⟩
      simpa [Plain.children] using hnode
  · exact maybeAbstractClass_lays h (by omega) hdecorators

/-! ## Imports and exports -/

theorem importDeclaration_lays (hlevel : 12 * (tape.size - p) + 1 ≤ level) :
    tape.Lays o p g.importDeclaration := by
  refine .rebase (.ask (.expectWord fun _ ↦ .ask (.test (fun _ _ _ ↦ ?_) ?_)))
  · refine Reads.semicolon.bind fun _ q hq _ _ ↦ .nodeFrom (by omega) ⟨by omega, ?_⟩
    exact .leaf (by omega) rfl rfl
  refine acceptTypeOnly_skips.bind fun typeOnly q hq _ _ ↦ importDefault_skips.bind ?_
  rintro ⟨defaultName, more⟩ r hr _ -
  refine .choose (P := fun _ t ↦ r ≤ t) (fun _ ↦ ?_) (fun _ ↦ .pure (Nat.le_refl r)) ?_
  · exact (importNames_skips h.serves (by omega)).mono fun _ _ ht _ _ ↦ ht
  rintro ⟨namespaceName, specifiers⟩ t ht _ -
  refine .decide (fun _ _ _ ↦ ?_) (.failThen (by simp))
  refine modulePath_passes.bind fun source u hu _ _ ↦ ?_
  refine importAttributes_skips.bind fun _ v hv _ _ ↦ Reads.semicolon.bind fun _ w hw _ _ ↦ ?_
  exact .nodeFrom (by omega) ⟨by omega, .leaf (by omega) rfl rfl⟩

theorem defaultExpression_within (hlevel : 12 * (tape.size - p) + 6 ≤ level) :
    tape.PassesTo o p g.defaultExpression fun value q ↦ tape.Within o q value.node := by
  refine (h.assignment hlevel).bind fun value q hq _ hvalue ↦ ?_
  exact Reads.semicolon.bind fun _ r hr _ _ ↦ .pure ⟨by omega, hvalue.upTo r hr⟩

omit h in
theorem defaultDeclaration_within {action : Parse Node} {q : Nat}
    (haction : tape.Lays o q action) (hpq : p ≤ q) :
    tape.Reads o q (do return .declaration (← action)) fun value r ↦
      p < r ∧ tape.Within o r (DefaultExport.node value) :=
  haction.bind fun _ r hr _ hnode ↦ .pure ⟨by omega, hnode⟩

theorem exportedDefault_within (hlevel : 12 * (tape.size - p) + 6 ≤ level) :
    tape.PassesTo o p g.exportedDefault fun value q ↦ tape.Within o q value.node := by
  have hclass {q : Nat} (hlevel : 12 * (tape.size - q) ≤ level) (isAbstract : Bool) :
      tape.Lays o q (g.classDeclaration [] isAbstract false) :=
    (classDeclaration_declares h hlevel AllWithin.nil isAbstract false).lays
  have hp : p ≤ p := Nat.le_refl p
  refine .ask ?_
  split
  · exact defaultDeclaration_within (plainFunction_declares h (by omega) false).lays hp
  · refine .test (fun _ _ _ ↦ ?_) (defaultExpression_within h hlevel)
    exact defaultDeclaration_within (asyncFunction_declares h (by omega) false).lays hp
  · exact defaultDeclaration_within (hclass (by omega) false) hp
  · next hkind =>
    refine .advance (lt_size_of_kind hkind) ?_
    exact defaultDeclaration_within (hclass (by omega) true) (Nat.le_succ p)
  · refine (decorators_within h (by omega)).bind fun decorators q hq _ hdecorators ↦ ?_
    have hdecorators := hdecorators.mono (Nat.zero_le o) (Nat.le_refl q)
    exact defaultDeclaration_within (maybeAbstractClass_lays h (by omega) hdecorators) hq
  · exact defaultDeclaration_within (interface_declares h (by omega) false).lays hp
  · refine .test (fun _ _ _ ↦ ?_) (defaultExpression_within h hlevel)
    exact defaultDeclaration_within (componentDeclaration_lays h (by omega)) hp
  · exact defaultExpression_within h hlevel

omit h in
theorem exportAll_lays (hsp : s ≤ p) : tape.Lays s p (exportAll (tape.token s)) := by
  refine Reads.condition.bind fun typeOnly q hq _ _ ↦ ?_
  refine Reads.advance_skips.bind fun _ r hr _ _ ↦ ?_
  refine (Skips.textIf fun _ _ _ ↦ exchangedName_passes.skips).bind fun name t ht _ _ ↦ ?_
  refine .decide (fun _ _ _ ↦ ?_) (.failThen (by simp))
  refine modulePath_passes.bind fun source u hu _ _ ↦ Reads.semicolon.bind fun _ v hv _ _ ↦ ?_
  exact .nodeFrom (by omega) ⟨by omega, .leaf (by omega) rfl rfl⟩

theorem exportList_lays (hsp : s ≤ p) (hlevel : 12 * (tape.size - p) + 1 ≤ level) :
    tape.Lays s p (g.exportList (tape.token s)) := by
  have hrounds := h.serves.rounds
  refine Reads.condition.bind fun typeOnly q hq _ _ ↦ ?_
  refine Reads.advance_skips.bind fun _ r hr _ _ ↦ ?_
  refine (Reads.commaList (fun _ _ _ _ _ ↦ exportSpecifier_passes.onward (Nat.le_refl _))
    (by omega)).bind fun specifiers t ht _ _ ↦ .expectMark fun _ ↦ ?_
  refine (Skips.textIf fun _ _ _ ↦ modulePath_passes.skips).bind fun source u hu _ _ ↦ ?_
  refine Reads.semicolon.bind fun _ v hv _ _ ↦ .nodeFrom (by omega) ⟨by omega, ?_⟩
  exact .leaf (by omega) rfl rfl

theorem exportedDeclaration_lays (hsp : s ≤ p) (hlevel : 12 * (tape.size - p) + 7 ≤ level) :
    tape.Lays s p (g.exportedDeclaration (tape.token s)) := by
  refine .ask (.failWhen (by simp) fun _ ↦ (h.statement hlevel).bind fun node q hq _ hnode ↦ ?_)
  split
  · exact .failAt (Nat.le_refl s) (by omega) (by simp)
  · refine .nodeFrom (by omega) ⟨hq, .of_parts (by omega) rfl ?_⟩
    simpa [Plain.children] using hnode

theorem exportDeclaration_lays (hlevel : 12 * (tape.size - p) ≤ level) :
    tape.Lays o p g.exportDeclaration := by
  refine .rebase (.ask (.expectWord fun hlt ↦ .ask ?_))
  refine .test (fun _ _ _ ↦ ?_) (.ask (.ask (.ite (fun _ ↦ ?_)
    fun _ ↦ .ask (.ask (.ite (fun _ ↦ ?_) fun _ ↦ ?_)))))
  · refine (exportedDefault_within h (by omega)).bind fun value q hq _ hvalue ↦ ?_
    refine .nodeFrom (by omega) ⟨by omega, .of_parts (by omega) rfl ?_⟩
    simpa [Plain.children] using hvalue
  · exact (exportAll_lays (by omega)).onward (by omega)
  · exact (exportList_lays h (by omega) (by omega)).onward (by omega)
  · exact (exportedDeclaration_lays h (by omega) (by omega)).onward (by omega)

/-! ## Conditions -/

theorem condition_lays (hlevel : 12 * (tape.size - p) ≤ level) (keyword closing : String) :
    tape.Lays o p (g.condition keyword closing) := by
  refine .expectMark fun _ ↦ (expression_lays h (by omega)).bind fun test q hq _ htest ↦ ?_
  exact .expectMark fun _ ↦ .pure ⟨by omega, htest.upTo (q + 1) (Nat.le_succ q)⟩

theorem ifStatement_lays (hlt : p < tape.size) (hlevel : 12 * (tape.size - p) ≤ level) :
    tape.Lays o p g.ifStatement := by
  refine .rebase (.ask (.advance hlt ((condition_lays h (by omega) _ _).bind
    fun test q hq _ htest ↦ ?_)))
  refine (h.statement (by omega)).bind fun consequent r hr _ hconsequent ↦ ?_
  refine (Reads.optionallyWithin fun _ _ _ ↦ h.statement (by omega)).bind
    fun alternate t ht _ halternate ↦ .nodeFrom (by omega) ⟨by omega, .of_parts (by omega) rfl ?_⟩
  simpa [Plain.children] using
    ⟨htest.upTo t (by omega), hconsequent.upTo t (by omega), halternate⟩

theorem switchCase_within (hlevel : 12 * (tape.size - p) ≤ level) (hasDefault : Bool) :
    tape.PassesTo o p (g.switchCase hasDefault) fun result q ↦
      tape.AllWithin o q result.1.children := by
  have hrounds := h.serves.rounds
  refine .ask ((Reads.optionallyWithin fun _ _ _ ↦ expression_lays h (by omega)).bind
    fun test q hq _ htest ↦ ?_)
  have hrest (r : Nat) (hr : q ≤ r) : tape.Reads o r (do
        expectMark .colon "Expected ':' after case label"
        let body ← manyWhile g.rounds beforeCase g.statement
        return (({ test := test, body := body } : SwitchCase Node),
          hasDefault || tape.kind p == .word .default)) fun result t ↦
      p < t ∧ tape.AllWithin o t result.1.children := by
    refine .expectMark fun _ ↦ (Reads.manyWhileWithin (fun t _ _ _ _ ↦ h.statement (by omega))
      (by omega)).bind fun body t ht _ hbody ↦ .pure ⟨by omega, ?_⟩
    exact AllWithin.append_iff.mpr ⟨htest.upTo t (by omega), hbody⟩
  refine .ite (fun _ ↦ .failWhen (by simp) fun _ ↦ .failWhen (by simp) fun _ ↦ ?_) fun _ ↦ ?_
  · exact Reads.advance_skips.bind fun _ r hr _ _ ↦ hrest r hr
  · exact hrest q (Nat.le_refl q)

theorem switchCases_within (hlevel : 12 * (tape.size - p) + 1 ≤ level) :
    tape.Reads o p g.switchCases fun result q ↦
      ∀ c ∈ result.1, tape.AllWithin o q c.children := by
  have hrounds := h.serves.rounds
  refine .iterate (P := fun state q ↦ ∀ c ∈ state.1, tape.AllWithin o q c.children) ?_
    (by omega) (by simp)
  rintro ⟨cases, hasDefault⟩ q hq _ hcases
  refine .test (fun _ _ _ ↦ ?_) (.pure (.last hcases))
  refine (switchCase_within h (by omega) hasDefault).bind ?_
  rintro ⟨next, isDefault⟩ r hr _ hnext
  exact .pure (.more hr (Reads.forall_concat
    (K := fun (c : SwitchCase Node) q ↦ tape.AllWithin o q c.children)
    (fun _ _ ↦ AllWithin.upTo) hcases (by omega) hnext))

theorem switchStatement_lays (hlt : p < tape.size) (hlevel : 12 * (tape.size - p) ≤ level) :
    tape.Lays o p g.switchStatement := by
  refine .rebase (.ask (.advance hlt ((condition_lays h (by omega) _ _).bind
    fun test q hq _ htest ↦ ?_)))
  refine .expectMark fun _ ↦ (switchCases_within h (by omega)).bind ?_
  rintro ⟨cases, hasDefault⟩ r hr _ hcases
  refine .expectMark fun _ ↦ .nodeFrom (by omega) ⟨by omega, .of_parts (by omega) rfl ?_⟩
  refine AllWithin.cons_iff.mpr ⟨htest.upTo _ (by omega), AllWithin.flatMap_iff.mpr fun c hc ↦ ?_⟩
  exact (hcases c hc).upTo (r + 1) (Nat.le_succ r)

/-! ## Loops -/

theorem loopInit_lays (hlevel : 12 * (tape.size - p) + 6 ≤ level) :
    tape.Lays o p g.loopInit := by
  refine .withoutIn (.test (fun hlt _ _ ↦ ?_) ?_)
  · exact (variableDeclaration_declares h hlt (by omega) .loopHead).lays
  · refine Lays.rebase (.ask ((expression_lays h hlevel).bind fun inner q hq _ hinner ↦ ?_))
    refine .nodeFrom (by omega) ⟨hq, .of_parts (by omega) rfl ?_⟩
    simpa [Plain.children] using hinner

/-- A part of a head that ends with a mark. -/
theorem headPart_within (hlevel : 12 * (tape.size - p) + 6 ≤ level) (m : Mark) :
    tape.Reads o p (optionally (do return !(← atMark m)) g.expression) fun part q ↦
      tape.AllWithin o q part.toList :=
  .optionallyWithin fun _ _ _ ↦ expression_lays h hlevel

theorem countedLoop_lays (hsp : s ≤ p) (hlevel : 12 * (tape.size - p) ≤ level)
    {init : Option Node} (hinit : tape.AllWithin s p init.toList) :
    tape.Lays s p (g.countedLoop (tape.token s) init) := by
  refine .expectMark fun _ ↦ (headPart_within h (by omega) _).bind fun test q hq _ htest ↦ ?_
  refine .expectMark fun _ ↦ (headPart_within h (by omega) _).bind fun update r hr _ hupdate ↦ ?_
  refine .expectMark fun _ ↦ (h.statement (by omega)).bind fun body t ht _ hbody ↦ ?_
  refine .nodeFrom (by omega) ⟨by omega, .of_parts (by omega) rfl ?_⟩
  have hinit := hinit.upTo t (by omega)
  have htest := htest.upTo t (by omega)
  have hupdate := hupdate.upTo t (by omega)
  simpa [Plain.children] using ⟨hinit, htest, hupdate, hbody⟩

theorem collectionLoop_lays (hlt : p < tape.size) (hlevel : 12 * (tape.size - p) ≤ level)
    {left : Node} (hleft : tape.Within s p left) (isAwait : Bool) :
    tape.Lays s p (g.collectionLoop (tape.token s) left isAwait) := by
  have hsp := hleft.lt
  refine .ask (.advance hlt (.choose (P := fun right q ↦ p < q ∧ tape.Within s q right)
    (fun _ ↦ ?_) (fun _ ↦ ?_) fun right q _ _ hright ↦ ?_))
  · exact (h.assignment (by omega)).onward (by omega)
  · exact (expression_lays h (by omega)).onward (by omega)
  obtain ⟨hq, hright⟩ := hright
  refine .expectMark fun _ ↦ (h.statement (by omega)).bind fun body r hr _ hbody ↦ ?_
  refine .nodeFrom (by omega) ⟨by omega, .of_parts (by omega) rfl ?_⟩
  simpa [Plain.children] using ⟨hleft.upTo r (by omega), hright.upTo r (by omega), hbody⟩

theorem forStatement_lays (hlt : p < tape.size) (hlevel : 12 * (tape.size - p) ≤ level) :
    tape.Lays o p g.forStatement := by
  refine .rebase (.ask (.advance hlt
    (Reads.condition.bind fun isAwait q hq _ _ ↦ .expectMark fun _ ↦ ?_)))
  refine .test (fun _ _ _ ↦ ?_) ((loopInit_lays h (by omega)).bind fun init r hr _ hinit ↦ ?_)
  · exact (countedLoop_lays h (by omega) (by omega) (by simp)).onward (by omega)
  refine .ask (.ask (.ite (fun hkind ↦ ?_) fun _ ↦ ?_))
  · have hlt : r < tape.size := by
      rcases Bool.or_eq_true_iff.mp hkind with hof | hin
      · exact lt_size_of_beq hof
      · exact lt_size_of_beq hin
    exact (collectionLoop_lays h hlt (by omega) hinit isAwait).onward (by omega)
  · exact (countedLoop_lays h (by omega) (by omega) (by simpa using hinit)).onward (by omega)

theorem whileStatement_lays (hlt : p < tape.size) (hlevel : 12 * (tape.size - p) ≤ level) :
    tape.Lays o p g.whileStatement := by
  refine .rebase (.ask (.advance hlt ((condition_lays h (by omega) _ _).bind
    fun test q hq _ htest ↦ ?_)))
  refine (h.statement (by omega)).bind fun body r hr _ hbody ↦ ?_
  refine .nodeFrom (by omega) ⟨by omega, .of_parts (by omega) rfl ?_⟩
  simpa [Plain.children] using ⟨htest.upTo r (by omega), hbody⟩

theorem doWhileStatement_lays (hlt : p < tape.size) (hlevel : 12 * (tape.size - p) ≤ level) :
    tape.Lays o p g.doWhileStatement := by
  refine .rebase (.ask (.advance hlt ((h.statement (by omega)).bind fun body q hq _ hbody ↦ ?_)))
  refine .expectWord fun _ ↦ (condition_lays h (by omega) _ _).bind fun test r hr _ htest ↦ ?_
  refine Reads.condition.discard.bind fun _ t ht _ _ ↦ ?_
  refine .nodeFrom (by omega) ⟨by omega, .of_parts (by omega) rfl ?_⟩
  simpa [Plain.children] using ⟨hbody.upTo t (by omega), htest.upTo t ht⟩

/-! ## Jumps -/

omit h in
theorem jump_lays (hlt : p < tape.size) (isBreak : Bool) : tape.Lays o p (jump isBreak) := by
  refine .rebase (.ask (.advance hlt (.ask (.ask ?_))))
  refine (Reads.nameIf fun hlabel ↦ (Bool.and_eq_true_iff.mp hlabel).1).bind
    fun label q hq _ _ ↦ ?_
  refine Reads.semicolon.bind fun _ r hr _ _ ↦ .nodeFrom (by omega) ⟨by omega, ?_⟩
  exact .leaf (by omega) rfl rfl

theorem returnStatement_lays (hlt : p < tape.size) (hlevel : 12 * (tape.size - p) ≤ level) :
    tape.Lays o p g.returnStatement := by
  refine .rebase (.ask (.advance hlt (.ask (.ask (.ask ?_)))))
  refine (Reads.optionallyWithin fun _ _ _ ↦ expression_lays h (by omega)).bind
    fun argument q hq _ hargument ↦ Reads.semicolon.bind fun _ r hr _ _ ↦ ?_
  exact .nodeFrom (by omega) ⟨by omega, .of_parts (by omega) rfl (hargument.upTo r hr)⟩

theorem throwStatement_lays (hlt : p < tape.size) (hlevel : 12 * (tape.size - p) ≤ level) :
    tape.Lays o p g.throwStatement := by
  refine .rebase (.ask (.advance hlt (.ask (.failWhen (by simp) fun _ ↦ ?_))))
  refine (expression_lays h (by omega)).bind fun argument q hq _ hargument ↦ ?_
  refine Reads.semicolon.bind fun _ r hr _ _ ↦ .nodeFrom (by omega) ⟨by omega, ?_⟩
  exact .of_parts (by omega) rfl (by simpa [Plain.children] using hargument.upTo r hr)

theorem catchParam_within (hlevel : 12 * (tape.size - p) ≤ level) :
    tape.Reads o p g.catchParam fun param q ↦ tape.AllWithin o q param.1.toList := by
  refine .test (fun _ _ _ ↦ ?_) (.pure (by simp))
  refine (h.bindingTarget (by omega)).bind fun param q hq _ hparam ↦ ?_
  refine (annotation_skips h.serves (by omega)).bind fun type r hr _ _ ↦ .expectMark fun _ ↦ ?_
  exact .pure (by simpa using hparam.upTo (r + 1) (by omega))

theorem tryStatement_lays (hlt : p < tape.size) (hlevel : 12 * (tape.size - p) ≤ level) :
    tape.Lays o p g.tryStatement := by
  refine .rebase (.ask (.advance hlt ((block_lays h (by omega)).bind fun block q hq _ hblock ↦ ?_)))
  refine Reads.bind (P := fun clause r ↦ ∀ c ∈ clause,
      tape.AllWithin p r c.1.1.toList ∧ tape.Within p r c.2)
    (.optionally (fun _ _ _ ↦ ?_) (by simp)) fun clause r hr _ hclause ↦ ?_
  · refine (catchParam_within h (by omega)).bind fun param r hr _ hparam ↦ ?_
    refine (block_lays h (by omega)).bind fun handler t ht _ hhandler ↦ .pure ?_
    simpa using ⟨hparam.upTo t (by omega), hhandler⟩
  refine (Reads.optionallyWithin fun _ _ _ ↦ block_lays h (by omega)).bind
    fun finalizer t ht _ hfinalizer ↦ .failWhen (by simp) fun _ ↦ ?_
  refine .nodeFrom (by omega) ⟨by omega, .of_parts (by omega) rfl ?_⟩
  have hblock := hblock.upTo t (by omega)
  cases clause with
  | none => simpa [Plain.children, TryShape.children] using ⟨hblock, hfinalizer⟩
  | some c =>
    obtain ⟨hparam, hhandler⟩ := hclause c rfl
    have hparam := hparam.upTo t ht
    have hhandler := hhandler.upTo t ht
    simpa [Plain.children, TryShape.children] using ⟨hblock, hparam, hhandler, hfinalizer⟩

/-! ## All statements -/

theorem expressionStatement_lays (hlevel : 12 * (tape.size - p) + 6 ≤ level) :
    tape.Lays o p g.expressionStatement := by
  refine .rebase (.ask ((expression_lays h hlevel).bind fun inner q hq _ hinner ↦ ?_))
  refine Reads.semicolon.bind fun _ r hr _ _ ↦ .nodeFrom (by omega) ⟨by omega, ?_⟩
  exact .of_parts (by omega) rfl (by simpa [Plain.children] using hinner.upTo r hr)

theorem labeledStatement_lays (hlt : p < tape.size) (hlevel : 12 * (tape.size - p) ≤ level) :
    tape.Lays o p g.labeledStatement := by
  refine .rebase (.ask (.advance hlt (Reads.advance_skips.bind fun _ q hq _ _ ↦ ?_)))
  refine (h.statement (by omega)).bind fun body r hr _ hbody ↦ .nodeFrom (by omega) ⟨by omega, ?_⟩
  exact .of_parts (by omega) rfl (by simpa [Plain.children] using hbody)

theorem contextual_lays (hlevel : 12 * (tape.size - p) + 6 ≤ level) {fits : Parse Bool} {c : Prop}
    [Tests tape p fits p c] {declaration : Parse Node}
    (hdeclaration : c → tape.Lays o p declaration) :
    tape.Lays o p (g.contextual fits declaration) :=
  .test (fun hc _ _ ↦ hdeclaration hc) (expressionStatement_lays h hlevel)

theorem statementStep_lays (hlevel : 12 * (tape.size - p) + 6 ≤ level) :
    tape.Lays o p g.statementStep := by
  obtain ⟨startsAmbient, hambient⟩ : ∃ b, Asks tape p atAmbient b := asks_atAmbient
  refine .nested (Lays.rebase (.ask ?_))
  split
  · exact block_lays h (by omega)
  · next hkind => exact leaf_lays (lt_size_of_kind hkind) rfl rfl
  · next hkind =>
    have hlt : p < tape.size := lt_size_of_kind hkind
    refine .test (fun _ _ _ ↦ .advance hlt ?_) ?_
    · have hp : p ≤ p + 1 := Nat.le_succ p
      exact (enumeration_declares h (by omega) true false hp (previous_succ hlt)).lays.onward hp
    · exact (variableDeclaration_declares h hlt (by omega) .statement).lays
  · next hkind =>
    exact (variableDeclaration_declares h (lt_size_of_kind hkind) (by omega) .statement).lays
  · exact contextual_lays h hlevel fun hlt ↦
      (variableDeclaration_declares h hlt (by omega) .statement).lays
  · exact (plainFunction_declares h (by omega) false).lays
  · exact contextual_lays h hlevel fun _ ↦ (asyncFunction_declares h (by omega) false).lays
  · exact (classDeclaration_declares h (by omega) AllWithin.nil false false).lays
  · exact contextual_lays h hlevel fun _ ↦ maybeAbstractClass_lays h (by omega) AllWithin.nil
  · exact decorated_lays h (by omega)
  · exact contextual_lays h hlevel fun _ ↦ (interface_declares h (by omega) false).lays
  · exact contextual_lays h hlevel fun _ ↦ (typeAlias_declares h (by omega) false).lays
  · exact (enumeration_declares h (by omega) false false (Nat.le_refl p) rfl).lays
  · next hkind =>
    exact contextual_lays h hlevel fun _ ↦
      (namespaceDeclaration_declares h (lt_size_of_kind hkind) (by omega) false).lays
  · next hkind =>
    exact contextual_lays h hlevel fun _ ↦
      (namespaceDeclaration_declares h (lt_size_of_kind hkind) (by omega) false).lays
  · next hkind =>
    exact contextual_lays h hlevel fun _ ↦
      ambientDeclaration_lays h (lt_size_of_kind hkind) (by omega)
  · exact contextual_lays h hlevel fun _ ↦ componentDeclaration_lays h (by omega)
  · refine .ask (.ask (.ite (fun _ ↦ expressionStatement_lays h hlevel) fun _ ↦ ?_))
    exact importDeclaration_lays h (by omega)
  · exact exportDeclaration_lays h (by omega)
  · next hkind => exact ifStatement_lays h (lt_size_of_kind hkind) (by omega)
  · next hkind => exact switchStatement_lays h (lt_size_of_kind hkind) (by omega)
  · next hkind => exact forStatement_lays h (lt_size_of_kind hkind) (by omega)
  · next hkind => exact whileStatement_lays h (lt_size_of_kind hkind) (by omega)
  · next hkind => exact doWhileStatement_lays h (lt_size_of_kind hkind) (by omega)
  · next hkind => exact jump_lays (lt_size_of_kind hkind) true
  · next hkind => exact jump_lays (lt_size_of_kind hkind) false
  · next hkind => exact returnStatement_lays h (lt_size_of_kind hkind) (by omega)
  · next hkind => exact throwStatement_lays h (lt_size_of_kind hkind) (by omega)
  · next hkind => exact tryStatement_lays h (lt_size_of_kind hkind) (by omega)
  · next hkind =>
    refine .advance (lt_size_of_kind hkind) (Reads.semicolon.bind fun _ q hq _ _ ↦ ?_)
    exact .nodeFrom (by omega) ⟨by omega, .leaf (by omega) rfl rfl⟩
  · next hkind =>
    exact contextual_lays h hlevel fun _ ↦
      labeledStatement_lays h (lt_size_of_kind hkind) (by omega)
  · exact expressionStatement_lays h hlevel

end Extents

end Grammar

/-! ## Levels -/

/-- Each level lays what it stands for from the level below it. -/
theorem grammar_extends (tape : Tape) (level : Nat) : tape.Extends (grammar level) level := by
  induction level with
  | zero =>
    exact {
      serves := grammar_serves tape 0
      statement := fun h ↦ by omega
      assignment := fun h ↦ by omega
      binary := fun h ↦ by omega
      unary := fun h ↦ by omega
      primary := fun h ↦ by omega
      construction := fun h ↦ by omega
      element := fun h ↦ by omega
      bindingTarget := fun h ↦ by omega }
  | succ level ih =>
    exact {
      serves := grammar_serves tape (level + 1)
      statement := fun h ↦ Grammar.statementStep_lays ih (by omega)
      assignment := fun h ↦ Grammar.assignmentStep_lays ih (by omega)
      binary := fun h least ↦ Grammar.binaryStep_lays ih (by omega) least
      unary := fun h ↦ Grammar.unaryStep_lays ih (by omega)
      primary := fun h ↦ Grammar.primaryStep_lays ih (by omega)
      construction := fun h ↦ Grammar.constructionStep_lays ih (by omega)
      element := fun h ↦ Grammar.elementStep_lays ih (by omega)
      bindingTarget := fun h ↦ Grammar.bindingTargetStep_lays ih (by omega) }

/-! ## Courses -/

namespace Tape

variable {tape : Tape} {o p q r : Nat} {node inner : Node}

theorem cursor_inj (hp : p ≤ tape.size) (hq : q ≤ tape.size) (h : tape.cursor p = tape.cursor q) :
    p = q := by
  have hlength (s : Nat) : (tape.cursor s).after.length = tape.size - s := List.length_drop
  have hleft : tape.size - p = tape.size - q := by rw [← hlength p, h, hlength q]
  omega

/-- The token before a place; at the very start, the first one. -/
theorem before_getD (hp : p ≤ tape.size) :
    (tape.cursor p).before.head?.getD (tape.token 0) = tape.token (max p 1 - 1) := by
  cases p with
  | zero => rfl
  | succ p =>
    rw [cursor_succ hp, Nat.max_eq_left (Nat.succ_pos p)]
    rfl

/-- What lies between two places is made of what lies between places there or in front. -/
theorem Within.way (h : tape.Within o r node) {avoid : Node → Bool} (hway : node.Way avoid inner) :
    ∃ o' r', r' ≤ r ∧ tape.Within o' r' inner := by
  induction hway generalizing o r with
  | here => exact ⟨o, r, Nat.le_refl r, h⟩
  | @down node part inner _ hpart _ ih =>
    obtain ⟨o', r', hr', hpart⟩ : ∃ o' r', r' ≤ r ∧ tape.Within o' r' part := by
      cases h with
      | @plain _ p q _ form ho hpq hr hparts hkeys hdecorators =>
        by_cases hin : part ∈ form.decorators
        · exact ⟨0, p, by omega, hdecorators part hin⟩
        · exact ⟨p, q, hr, hparts part hpart hin⟩
      | @surface _ p q _ form ho hpq hr hparts => exact ⟨p, q, hr, hparts part hpart⟩
    obtain ⟨o'', r'', hr'', hinner⟩ := ih hpart
    exact ⟨o'', r'', Nat.le_trans hr'' hr', hinner⟩

end Tape

namespace Program

variable {tape : Tape} {statement : Parse Node} {options : Options} {context : ParseContext}
  {p failures last : Nat} {trace : List Attempt}

/-- The statements that are read lie between the start of a reading and its end. -/
theorem Course.within (hfinal : context.final = tape.final)
    (hstatement : ∀ p, tape.Lays p p statement)
    (h : Course tape statement options context p failures trace last) :
    p ≤ last ∧ last ≤ tape.size ∧ tape.AllWithin p last (Attempt.nodes trace) := by
  induction h with
  | done => exact ⟨Nat.le_refl _, Nat.le_refl _, AllWithin.nil⟩
  | @read p q _ last node _ hpq hq _ hrun _ ih =>
    obtain ⟨hle, hlast, hrest⟩ := ih
    have hbeside : tape.Beside context context := ⟨hfinal, hfinal, Int.le_refl _, rfl, rfl⟩
    have hnode : tape.Within p q node := by
      obtain ⟨value, r, hvalue, -, -, hr, -, hwithin⟩ | ⟨failure, r, hfailed, -⟩ :=
        hstatement p (Nat.le_refl p) (by omega) hbeside
      · obtain ⟨rfl, hcursor⟩ := ParseOutcome.ok.inj (hvalue.symm.trans hrun)
        rwa [cursor_inj hr hq hcursor] at hwithin
      · cases hfailed.symm.trans hrun
    refine ⟨by omega, hlast, ?_⟩
    rw [Attempt.nodes_ok_cons, AllWithin.cons_iff]
    exact ⟨hnode.upTo last hle, hrest.mono (by omega) (Nat.le_refl last)⟩
  | @stop p q _ _ _ hpq hq => exact ⟨hpq, hq, AllWithin.nil⟩
  | resume _ hpr _ _ _ _ _ _ _ ih =>
    obtain ⟨hle, hlast, hrest⟩ := ih
    exact ⟨by omega, hlast, hrest.mono (by omega) (Nat.le_refl _)⟩

/-- A program spans the tokens up to the last one that is read, and its statements lie there. -/
theorem parse_within {tokens : List Token} (h : ∀ token ∈ tokens.dropLast, token.kind ≠ .eof)
    {parsed : Parsed} (hparse : parse options tokens = .ok parsed) :
    ∃ last body, last ≤ (Tape.ofTokens tokens h).size ∧
      parsed.root =
        .surface ((Tape.ofTokens tokens h).span 0 (max last 1)) (.program body) ∧
      (Tape.ofTokens tokens h).AllWithin 0 last body := by
  obtain ⟨last, hcourse, hafter⟩ := parse_eq_after h options
  have hstatement (p : Nat) : (Tape.ofTokens tokens h).Lays p p (grammar
      (levelsPerToken * ((Tape.ofTokens tokens h).size + 1))).statement := by
    refine (grammar_extends _ _).statement ?_
    rw [levelsPerToken]
    omega
  obtain ⟨-, hlast, hbody⟩ := hcourse.within rfl hstatement
  rw [hafter, Progress.after] at hparse
  split at hparse
  · cases hparse
  · cases hparse
    refine ⟨last, _, hlast, ?_, hbody⟩
    rw [Progress.parsed, before_getD hlast]
    rfl

end Program

/-! ## Tokens in a source -/

namespace Tape

/-- The tokens of the tape and the end of input stand at their places in a source, one behind the
other. -/
structure Covers (tape : Tape) (source : Bytes) (tokens : List Token) : Prop where
  mem {p : Nat} (hp : p ≤ tape.size) : tape.token p ∈ tokens
  placed : ∀ token ∈ tokens, ∃ before, token.Placed source before
  lt {p : Nat} (hp : p < tape.size) : (tape.token p).start.offset < (tape.token p).stop
  le {p q : Nat} (hpq : p < q) (hq : q ≤ tape.size) :
    (tape.token p).stop ≤ (tape.token q).start.offset

end Tape

theorem IsTiling.covers {source : Bytes} {tokens : List Token} (h : IsTiling source tokens)
    (hkinds : ∀ token ∈ tokens.dropLast, token.kind ≠ .eof) :
    (Tape.ofTokens tokens hkinds).Covers source tokens := by
  obtain ⟨front, final, htokens, hfinal, -, -, -⟩ := h.last
  have hplaced : ∀ token ∈ tokens, ∃ before, token.Placed source before := by
    intro token hmem
    obtain ⟨before, after, hsplit⟩ := List.append_of_mem hmem
    exact ⟨before, h.tiles before token after hsplit⟩
  have hsplit : Program.splitFinal tokens = (front, final) := by
    rw [htokens, Program.splitFinal_concat hfinal]
  have hfront : (Tape.ofTokens tokens hkinds).tokens = front := congrArg Prod.fst hsplit
  have hend : (Tape.ofTokens tokens hkinds).final = final := congrArg Prod.snd hsplit
  generalize Tape.ofTokens tokens hkinds = tape at hfront hend ⊢
  have hget {p : Nat} (hp : p ≤ tape.size) : tokens[p]? = some (tape.token p) := by
    rw [Tape.size, hfront] at hp
    rw [Tape.token, hfront, hend, htokens]
    obtain hlt | rfl := Nat.lt_or_eq_of_le hp
    · rw [List.getElem?_append_left hlt, List.getElem?_eq_getElem hlt]
      rfl
    · simp
  refine ⟨fun hp ↦ List.mem_of_getElem? (hget hp), hplaced, fun {p} hp ↦ ?_, fun {p q} hpq hq ↦ ?_⟩
  · obtain ⟨before, htoken⟩ := hplaced _ (List.mem_of_getElem? (hget (Nat.le_of_lt hp)))
    exact htoken.nonempty (tape.kind_ne _ (Tape.token_mem hp))
  · obtain ⟨hi, hfirst⟩ := List.getElem?_eq_some_iff.mp (hget (Nat.le_trans (Nat.le_of_lt hpq) hq))
    obtain ⟨hj, hsecond⟩ := List.getElem?_eq_some_iff.mp (hget hq)
    rw [← hfirst, ← hsecond]
    exact (List.pairwise_iff_getElem.mp h.increasing p q hi hj hpq).1

/-! ## Ranges -/

namespace Range

/-- The range starts at the place of a token and ends behind a token. Its end is the place of its
offset unless this token is spread over lines. -/
structure Delimits (source : Bytes) (tokens : List Token) (range : Range) : Prop where
  first : ∃ first ∈ tokens, range.start = first.start
  start_eq : range.start = .ofOffset source range.start.offset
  last : ∃ last ∈ tokens, range.stop = last.stopPosition ∧
    (range.stop = .ofOffset source range.stop.offset ↔
      10 ∉ slice source last.start.offset last.stop)
  inside : range.stop.offset ≤ source.length

/-- The range lies inside another one. -/
def Inside (inner outer : Range) : Prop :=
  outer.start.offset ≤ inner.start.offset ∧ inner.stop.offset ≤ outer.stop.offset

end Range

/-- What the ranges of a node, of its parts and of the keys in it come to. The decorators of a class
stand in front of it, and a key that is a text ends before it starts. -/
structure Node.Ranged (source : Bytes) (tokens : List Token) (node : Node) : Prop where
  delimits : node.range.Delimits source tokens
  ordered : node.range.start.offset ≤ node.range.stop.offset
  parts : ∀ part ∈ node.children, part ∉ node.decorators → part.range.Inside node.range
  decorators : ∀ part ∈ node.decorators, part.range.stop.offset ≤ node.range.start.offset
  keys : ∀ key ∈ node.literalKeys, key.range.Delimits source tokens ∧ key.children = []
  words : ∀ key ∈ node.literalKeys, key.kindName ≠ "STRING_LITERAL" →
    key.range.Inside node.range ∧ key.range.start.offset < key.range.stop.offset
  texts : ∀ key ∈ node.literalKeys, key.kindName = "STRING_LITERAL" →
    node.range.start.offset < key.range.stop.offset ∧
      key.range.stop.offset ≤ key.range.start.offset ∧
      key.range.start.offset < node.range.stop.offset

namespace Tape

variable {tape : Tape} {source : Bytes} {tokens : List Token} {o p q r : Nat} {node : Node}

namespace Covers

variable (h : tape.Covers source tokens)
include h

theorem start_le (hpq : p ≤ q) (hq : q ≤ tape.size) :
    (tape.token p).start.offset ≤ (tape.token q).start.offset := by
  obtain rfl | hlt := Nat.eq_or_lt_of_le hpq
  · exact Nat.le_refl _
  · calc
      (tape.token p).start.offset ≤ (tape.token p).stop := Nat.le_of_lt (h.lt (by omega))
      _ ≤ (tape.token q).start.offset := h.le hlt hq

theorem ordered (hp : p ≤ tape.size) : (tape.token p).start.offset ≤ (tape.token p).stop := by
  obtain ⟨before, hplaced⟩ := h.placed _ (h.mem hp)
  exact hplaced.ordered

theorem stop_le (hpq : p ≤ q) (hq : q ≤ tape.size) :
    (tape.token p).stop ≤ (tape.token q).stop := by
  obtain rfl | hlt := Nat.eq_or_lt_of_le hpq
  · exact Nat.le_refl _
  · calc
      (tape.token p).stop ≤ (tape.token q).start.offset := h.le hlt hq
      _ ≤ (tape.token q).stop := h.ordered hq

theorem delimits (hp : p ≤ tape.size) (hq : q - 1 ≤ tape.size) :
    (tape.span p q).Delimits source tokens := by
  obtain ⟨_, hfirst⟩ := h.placed _ (h.mem hp)
  obtain ⟨_, hlast⟩ := h.placed _ (h.mem hq)
  exact ⟨⟨_, h.mem hp, rfl⟩, hfirst.start_eq, ⟨_, h.mem hq, rfl, hlast.stopPosition_eq_iff⟩,
    hlast.inside⟩

theorem span_le (hpq : p ≤ q - 1) (hq : q - 1 ≤ tape.size) :
    (tape.span p q).start.offset ≤ (tape.span p q).stop.offset :=
  calc
    (tape.token p).start.offset ≤ (tape.token p).stop := h.ordered (by omega)
    _ ≤ (tape.token (q - 1)).stop := h.stop_le hpq hq

theorem span_lt (hpq : p < q) (hq : q ≤ tape.size) :
    (tape.span p q).start.offset < (tape.span p q).stop.offset :=
  calc
    (tape.token p).start.offset < (tape.token p).stop := h.lt (by omega)
    _ ≤ (tape.token (q - 1)).stop := h.stop_le (by omega) (by omega)

theorem span_inside (hop : o ≤ p) (hp : p ≤ tape.size) (hqr : q ≤ r) (hr : r - 1 ≤ tape.size) :
    (tape.span p q).Inside (tape.span o r) :=
  ⟨h.start_le hop hp, h.stop_le (by omega) hr⟩

end Covers

theorem Within.exists_span (h : tape.Within o r node) :
    ∃ p q, o ≤ p ∧ p < q ∧ q ≤ r ∧ node.range = tape.span p q := by
  cases h with
  | plain ho hpq hr | surface ho hpq hr => exact ⟨_, _, ho, hpq, hr, rfl⟩

theorem Within.inside (hcovers : tape.Covers source tokens) (h : tape.Within o r node)
    (hr : r ≤ tape.size) : node.range.Inside (tape.span o r) := by
  obtain ⟨p, q, ho, hpq, hq, hrange⟩ := h.exists_span
  rw [hrange]
  exact hcovers.span_inside ho (by omega) hq (by omega)

theorem Within.before (hcovers : tape.Covers source tokens) (h : tape.Within o r node)
    (hr : r ≤ tape.size) : node.range.stop.offset ≤ (tape.token r).start.offset := by
  obtain ⟨p, q, -, hpq, hq, hrange⟩ := h.exists_span
  rw [hrange]
  exact hcovers.le (by omega) hr

/-- What lies between two places has proper ranges. -/
theorem Within.ranged (hcovers : tape.Covers source tokens) (h : tape.Within o r node)
    (hr : r ≤ tape.size) : node.Ranged source tokens := by
  cases h with
  | @plain _ p q _ form ho hpq hq hparts hkeys hdecorators =>
    refine ⟨hcovers.delimits (by omega) (by omega), hcovers.span_le (by omega) (by omega),
      fun part hpart hout ↦ (hparts part hpart hout).inside hcovers (by omega),
      fun part hpart ↦ (hdecorators part hpart).before hcovers (by omega),
      fun key hkey ↦ ?_, fun key hkey hkind ↦ ?_, fun key hkey hkind ↦ ?_⟩
    · cases hkeys key hkey with
      | name | number | text => exact ⟨hcovers.delimits (by omega) (by omega), rfl⟩
    · cases hkeys key hkey with
      | name hp hq | number hp hq =>
        exact ⟨hcovers.span_inside (by omega) (by omega) (by omega) (by omega),
          hcovers.span_lt (by omega) (by omega)⟩
      | text => exact absurd rfl hkind
    · cases hkeys key hkey with
      | name | number => exact absurd hkind (by simp [Node.kindName])
      | text hp hq =>
        exact ⟨hcovers.span_lt hp (by omega), hcovers.le (by omega) (by omega),
          hcovers.span_lt hq (by omega)⟩
  | @surface _ p q _ form ho hpq hq hparts =>
    exact ⟨hcovers.delimits (by omega) (by omega), hcovers.span_le (by omega) (by omega),
      fun part hpart _ ↦ (hparts part hpart).inside hcovers (by omega),
      List.forall_mem_nil _, List.forall_mem_nil _, List.forall_mem_nil _, List.forall_mem_nil _⟩

end Tape

/-- Every node of a tree that was read from a source in strict mode has a range in it, and so do the
keys in the node. Ends on other lines than their tokens start on, keys that are texts, and
decorators of classes are the exceptions. -/
theorem Program.parse_ranged {lexing : LexerOptions} {options : Options} {source : Bytes}
    {tokens : List Token} {parsed : Parsed} (hstrict : lexing.mode = .strict)
    (htokens : (tokenize lexing source).result = .ok tokens)
    (hparse : parse options tokens = .ok parsed) :
    ∀ node ∈ parsed.root :: parsed.root.descendants, node.Ranged source tokens := by
  have htiling := tokenize_isTiling hstrict htokens
  have hkinds : ∀ token ∈ tokens.dropLast, token.kind ≠ .eof := by
    obtain ⟨front, final, rfl, -, -, -, hfront⟩ := htiling.last
    rwa [List.dropLast_concat]
  have hcovers := htiling.covers hkinds
  obtain ⟨last, body, hlast, hroot, hbody⟩ := parse_within hkinds hparse
  generalize Tape.ofTokens tokens hkinds = tape at hcovers hlast hroot hbody
  have hitem (item : Node) (hmem : item ∈ body) {inner : Node}
      (hinner : inner ∈ item :: item.descendants) : inner.Ranged source tokens := by
    have hway : item.Way (fun _ ↦ false) inner :=
      Node.way_iff.mpr ⟨rfl, (List.mem_cons.mp hinner).imp_right Node.mem_descendants_iff.mp⟩
    obtain ⟨o, r, hr, hinner⟩ := (hbody item hmem).way hway
    exact hinner.ranged hcovers (by omega)
  rw [hroot]
  refine Node.forall_mem_descendants ?_ fun item hmem inner hinner ↦ hitem item hmem hinner
  refine ⟨hcovers.delimits (Nat.zero_le _) (by omega),
    hcovers.span_le (Nat.zero_le _) (by omega), fun item hmem _ ↦ ?_,
    List.forall_mem_nil _, List.forall_mem_nil _, List.forall_mem_nil _, List.forall_mem_nil _⟩
  -- a program with statements does not end at its start
  have hlt := (hbody item hmem).lt
  have hinside := (hbody item hmem).inside hcovers hlast
  rwa [← Nat.max_eq_left hlt] at hinside

/-- The key of the property starts behind the place where it ends. -/
theorem Program.parse_ranged_textKey :
    let source := bytes "(\x7b \"a\": 1 \x7d);"
    let lexed := (tokenize {} source).result
    ∃ tokens, lexed = .ok tokens ∧ ∃ parsed, parse {} tokens = .ok parsed ∧
      (∃ node ∈ parsed.root.descendants, ∃ key ∈ node.literalKeys,
        key.range = ⟨⟨1, 4, 3⟩, ⟨1, 3, 2⟩⟩) ∧
      ∀ node ∈ parsed.root :: parsed.root.descendants, node.Ranged source tokens := by
  intro source lexed
  have hfound : ((lexed.toOption.bind fun tokens ↦ (parse {} tokens).toOption).any fun parsed ↦
      parsed.root.descendants.any fun node ↦ node.literalKeys.any fun key ↦
        decide (key.range = ⟨⟨1, 4, 3⟩, ⟨1, 3, 2⟩⟩)) = true := by decide +kernel
  cases hlexed : lexed with
  | error => simp [hlexed, Except.toOption] at hfound
  | ok tokens =>
    cases hparsed : parse {} tokens with
    | error => simp [hlexed, hparsed, Except.toOption] at hfound
    | ok parsed =>
      refine ⟨tokens, rfl, parsed, hparsed, ?_, parse_ranged rfl hlexed hparsed⟩
      simpa [hlexed, hparsed, Except.toOption] using hfound

end SignalView
