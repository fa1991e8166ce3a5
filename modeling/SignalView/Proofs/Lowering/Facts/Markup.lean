import SignalView.Proofs.Lowering.Facts.Expressions
import SignalView.Proofs.Lowering.Views

/-!
# What markup notes

The signals of an element's bindings are noted, and those of the expressions among its children. The
properties of a component's call are classified, but nothing is noted for them.
-/

namespace SignalView

open Lower Slot

namespace Lowering

/-- What is noted for an attribute of an element. -/
def AttributePart.noted : AttributePart → List Bytes
  | .binding b => b.dependencies
  | _ => []

/-- What an attribute of an element comes to. -/
def AttributePart.tally (part : AttributePart) : Tally :=
  .signals part.noted + Slot.tally part.slots

/-- The attributes come to what they come to when they have been sorted by what they are. -/
theorem tally_attributeParts (parts : List AttributePart) :
    (parts.map AttributePart.tally).sum =
      Tally.signals ((parts.filterMap (·.binding?)).flatMap (·.dependencies)) +
        (((parts.filterMap (·.attr?)).map fun a ↦ Slot.tally a.slots).sum +
          (((parts.filterMap (·.listener?)).map (·.handler)).map View.tally).sum +
          (((parts.filterMap (·.binding?)).map (·.expression)).map View.tally).sum) := by
  induction parts with
  | nil => rfl
  | cons part parts ih =>
    rw [List.map_cons, List.sum_cons, ih]
    cases part <;>
      simp [AttributePart.tally, AttributePart.noted, AttributePart.slots, AttributePart.attr?,
        AttributePart.listener?, AttributePart.binding?, add_assoc, add_left_comm]

section Settled

variable {l : Lowering} (h : l.Settles)

include h

/-! ## Attributes -/

theorem attributeValue_notes (node : Node) : Notes 0 (l.attributeValue node) View.tally := by
  unfold attributeValue
  split
  · exact h.expression _
  · exact h.expression _

theorem spreadAttribute_notes (value : Option Node) :
    Notes 0 (l.spreadAttribute value) fun a ↦ Slot.tally a.slots :=
  (optionalExpression_notes h value).bind fun _ ↦ .pure (by simp [ViewAttribute.slots])

theorem elementAttribute_notes (name : Bytes) (value : Option Node) (c : Classification) :
    Notes 0 (l.elementAttribute name value c) AttributePart.tally := by
  cases value with
  | none => exact .pure rfl
  | some value =>
    refine .ite ?_ (.ite ?_ ?_)
    · refine (attributeValue_notes h value).bind fun _ ↦ .after Idle.noteListener fun _ ↦ .pure ?_
      simp [AttributePart.tally, AttributePart.noted, AttributePart.slots]
    · refine (Notes.noteDependencies _).bind fun _ ↦ (attributeValue_notes h value).bind fun _ ↦ ?_
      exact .pure (by simp [AttributePart.tally, AttributePart.noted, AttributePart.slots])
    · refine (attributeValue_notes h value).bind fun _ ↦ .pure ?_
      simp [AttributePart.tally, AttributePart.noted, AttributePart.slots, ViewAttribute.slots]

theorem elementAttributes_notes (tag : Bytes) (seen : List Bytes) (nodes : List Node) :
    Notes 0 (l.elementAttributes tag seen nodes) fun parts ↦
      (parts.map AttributePart.tally).sum := by
  induction nodes generalizing seen with
  | nil => exact .pure rfl
  | cons node rest ih =>
    cases node with
    | plain => exact ih _
    | surface range form =>
      cases form with
      | attr name value isSpread =>
        refine .ite ?_ (.iteThen (.failAt _ _ _ _) (.after Idle.state fun _ ↦ ?_))
        · refine (spreadAttribute_notes h _).bind fun _ ↦ (ih _).bind fun _ ↦ .pure ?_
          simp [AttributePart.tally, AttributePart.noted, AttributePart.slots]
        · refine (elementAttribute_notes h _ _ _).bind fun _ ↦ (ih _).bind fun _ ↦ .pure ?_
          simp
      | _ => exact ih _

theorem callProp_notes (name : Bytes) (value : Option Node) :
    Notes 0 (l.callProp name value) fun a ↦ Slot.tally a.slots := by
  refine .after Idle.state fun _ ↦ .iteThen Idle.noteListener ?_
  refine (Notes.optionMapM fun part _ ↦ attributeValue_notes h part).bind fun view ↦ .pure ?_
  simp [ViewAttribute.slots]

theorem callProps_notes (nodes : List Node) :
    Notes 0 (l.callProps nodes) fun props ↦ (props.map fun a ↦ Slot.tally a.slots).sum := by
  induction nodes with
  | nil => exact .pure rfl
  | cons node rest ih =>
    cases node with
    | plain => exact ih
    | surface range form =>
      cases form with
      | attr name value isSpread =>
        refine .ite ?_ ?_
        · exact (spreadAttribute_notes h _).bind fun _ ↦ ih.bind fun _ ↦ .pure (by simp)
        · exact (callProp_notes h _ _).bind fun _ ↦ ih.bind fun _ ↦ .pure (by simp)
      | _ => exact ih

/-! ## Children and elements -/

theorem markupChild_notes (node : Node) :
    Notes 0 (l.markupChild node) fun view ↦ (view.toList.map View.tally).sum := by
  unfold markupChild
  split
  · refine .someView (.view ?_ rfl rfl)
    trivial
  · split
    · exact .pure rfl
    · next inner =>
      refine .after Idle.state fun s ↦ (Notes.noteDependencies _).bind fun _ ↦ ?_
      refine (h.expression inner).bindRun fun _ view _ hrun ↦ .someView (.view ?_ rfl ?_)
      -- what comes from an expression as an element has been written as markup
      · exact fun hview ↦ Classification.classify_category_iff.mpr (h.markup hrun hview)
      · simp [View.noted, Rendered.noted, View.slots, Rendered.slots]
  · exact (h.expression _).bind fun _ ↦ .pure (by simp)

theorem markupChildren_notes (nodes : List Node) :
    Notes 0 (l.markupChildren nodes) fun views ↦ (views.map View.tally).sum := by
  refine (Notes.mapM fun node _ ↦ markupChild_notes h node).bind fun views ↦ .pure ?_
  rw [zero_add]
  induction views with
  | nil => rfl
  | cons view views ih => cases view <;> simpa using ih

theorem componentCall_notes (tag : Bytes) (attributes children : List Node) :
    Notes 0 (l.componentCall tag attributes children) fun form ↦
      .signals form.noted + Slot.tally form.slots := by
  refine .after (Idle.markUsed _) fun _ ↦ (callProps_notes h attributes).bind fun _ ↦ ?_
  refine (markupChildren_notes h children).bind fun _ ↦ .pure ?_
  simp [Rendered.noted, Rendered.slots]

theorem plainElement_notes (tag : Bytes) (attributes children : List Node) :
    Notes 0 (l.plainElement tag attributes children) fun form ↦
      .signals form.noted + Slot.tally form.slots := by
  refine (elementAttributes_notes h tag [] attributes).bind fun parts ↦ ?_
  refine (markupChildren_notes h children).bind fun _ ↦ .pure ?_
  simp [Rendered.noted, Rendered.slots, ElementShape.slots, tally_attributeParts, add_assoc]

omit h in
theorem componentCall_form {tag : Bytes} {attributes children : List Node} {form : Rendered View}
    {s t : LoweringState} (hrun : l.componentCall tag attributes children s = (.ok form, t)) :
    ∃ props views, form = .componentCall tag props views := by
  obtain ⟨_, _, -, hrun⟩ := bind_eq_ok.mp hrun
  obtain ⟨props, _, -, hrun⟩ := bind_eq_ok.mp hrun
  obtain ⟨views, _, -, hrun⟩ := bind_eq_ok.mp hrun
  cases hrun
  exact ⟨props, views, rfl⟩

omit h in
theorem plainElement_form {tag : Bytes} {attributes children : List Node} {form : Rendered View}
    {s t : LoweringState} (hrun : l.plainElement tag attributes children s = (.ok form, t)) :
    ∃ e : ElementShape View, e.Settled ∧ form = .element e := by
  obtain ⟨_, _, -, hrun⟩ := bind_eq_ok.mp hrun
  obtain ⟨_, _, -, hrun⟩ := bind_eq_ok.mp hrun
  cases hrun
  exact ⟨_, by rfl, rfl⟩

theorem elementStep_notes (node : Node) : Notes 0 (l.elementStep node) View.tally := by
  have hmarkup : Idle (Lower.modify fun s ↦ { s with hasMarkup := true }) :=
    .modify fun _ ↦ ⟨rfl, rfl, rfl⟩
  unfold elementStep
  split
  · next range tag attributes children _ =>
    refine .iteThen (.failAt _ _ _ _) (.after hmarkup fun _ ↦ ?_)
    split
    · refine (componentCall_notes h tag attributes children).bindRun fun _ form _ hrun ↦ ?_
      obtain ⟨props, views, rfl⟩ := componentCall_form hrun
      exact .view trivial rfl (zero_add _)
    · refine (plainElement_notes h tag attributes children).bindRun fun _ form _ hrun ↦ ?_
      obtain ⟨e, he, rfl⟩ := plainElement_form hrun
      exact .view he rfl (zero_add _)
  · refine .after hmarkup fun _ ↦ (markupChildren_notes h _).bind fun views ↦ .view ?_ rfl ?_
    · trivial
    · simp [View.noted, Rendered.noted, View.slots, Rendered.slots]
  · exact .failAt _ _ _ _

/-- An element comes from markup, or from braces around some. -/
theorem expressionStep_markup {node : Node} {s t : LoweringState} {view : View}
    (hrun : l.expressionStep node s = (.ok view, t)) (hview : view.isElement = true) :
    ¬node.Calls := by
  cases node with
  | plain range form =>
    obtain ⟨_, _, -, hrun⟩ := bind_eq_ok.mp hrun
    cases hrun
    cases hview
  | surface range form =>
    simp only [expressionStep] at hrun
    split at hrun
    · obtain ⟨_, _, -, hrun⟩ := bind_eq_ok.mp hrun
      cases hrun
      cases hview
    · exact Node.not_calls_of_isMarkup rfl
    · exact Node.not_calls_of_isMarkup rfl
    · cases hrun
      cases hview
    · next inner =>
      rw [Node.calls_iff_children rfl rfl]
      simpa [Node.children, Surface.children] using h.markup hrun hview
    · cases hrun
      cases hview
    · cases hrun

end Settled

end Lowering

end SignalView
