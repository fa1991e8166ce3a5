import SignalView.Proofs.Lowering.Idle
import SignalView.Proofs.Lowering.Scopes
import SignalView.Proofs.Reactive.Calls
import SignalView.Proofs.View.Facts

/-!
# What actions and expressions note

The signals that are noted for a component are told by the views that are built for it.
-/

namespace SignalView

/-! ## What is noted on the way

While the views of a tree are built, signals are noted for the component that is being lowered. What
an action notes, and which views it builds, is told by the value it gives. A component that is built
within another one collects its own signals and notes nothing for the outer one.
-/

/-- From the first state to the second some signals have been noted, if a component is being
lowered. What has been built and what has gone on record has the right facts. -/
structure LoweringState.Notes (tally : Tally) (s t : LoweringState) : Prop where
  dependencies : Option.Rel (fun f g : ComponentFacts ↦
    (g.dependencies : Multiset Bytes) = f.dependencies + tally.1) s.current t.current
  components : ∀ c ∈ t.components, c ∈ s.components ∨ c.Settled
  settled : ∀ view ∈ tally.2, view.Settled

namespace LoweringState.Notes

variable {tally more : Tally} {s t u : LoweringState}

theorem of_eq (hdependencies : t.current.map (·.dependencies) = s.current.map (·.dependencies))
    (hcomponents : t.components = s.components) : s.Notes 0 t where
  dependencies := by
    cases hs : s.current <;> cases ht : t.current <;> simp_all
  components c hc := .inl (hcomponents ▸ hc)
  settled := by simp

theorem trans (h : s.Notes tally t) (h' : t.Notes more u) : s.Notes (tally + more) u where
  dependencies := by
    have hfirst := h.dependencies
    have hsecond := h'.dependencies
    cases hs : s.current <;> cases ht : t.current <;> cases hu : u.current <;>
      simp_all [add_assoc]
  components c hc := (h'.components c hc).elim (h.components c) .inr
  settled view hview := (Multiset.mem_add.mp hview).elim (h.settled view) (h'.settled view)

/-- A view is built that has the right facts. -/
theorem add_view (h : s.Notes tally t) {view : View} (hview : view.Settled) :
    s.Notes (tally + (0, {view})) t where
  dependencies := by simpa using h.dependencies
  components := h.components
  settled := by simpa [or_imp, forall_and] using ⟨h.settled, hview⟩

end LoweringState.Notes

namespace Lower

variable {α β : Type} {before : Tally} {action : Lower α} {next : α → Lower β}
  {w : α → Tally} {v : β → Tally}

/-- After some signals have been noted and some views have been built, the action goes on with both,
if it gives a value, and all of it together is what the value comes to. -/
def Notes (before : Tally) (action : Lower α) (w : α → Tally) : Prop :=
  ∀ ⦃s value t⦄, action s = (.ok value, t) → ∃ more, s.Notes more t ∧ w value = before + more

namespace Notes

theorem pure {value : α} (h : w value = before) : Notes before (Pure.pure value) w := by
  intro s _ t hrun
  cases hrun
  exact ⟨0, .of_eq rfl rfl, by rw [h, add_zero]⟩

/-- The rest may rely on the value having been given. -/
theorem bindRun (h : Notes 0 action w)
    (hnext : ∀ s value t, action s = (.ok value, t) → Notes (before + w value) (next value) v) :
    Notes before (action >>= next) v := by
  intro s result t hrun
  obtain ⟨value, middle, hvalue, hresult⟩ := bind_eq_ok.mp hrun
  obtain ⟨first, hfirst, hw⟩ := h hvalue
  obtain ⟨second, hsecond, hv⟩ := hnext s value middle hvalue hresult
  refine ⟨first + second, hfirst.trans hsecond, ?_⟩
  rw [hv, hw, zero_add, add_assoc]

theorem bind (h : Notes 0 action w) (hnext : ∀ value, Notes (before + w value) (next value) v) :
    Notes before (action >>= next) v :=
  h.bindRun fun _ value _ _ ↦ hnext value

theorem pureBind {value : α} (h : Notes before (next value) v) :
    Notes before (Pure.pure value >>= next) v :=
  h

/-- An action that leaves the record alone goes in front of another. -/
theorem after (h : Idle action) (hnext : ∀ value, Notes before (next value) v) :
    Notes before (action >>= next) v := by
  intro s result t hrun
  obtain ⟨value, middle, hvalue, hresult⟩ := bind_eq_ok.mp hrun
  obtain ⟨more, hnotes, hv⟩ := hnext value hresult
  have hidles := h hvalue
  have hfirst := LoweringState.Notes.of_eq hidles.dependencies hidles.components
  exact ⟨more, zero_add more ▸ hfirst.trans hnotes, hv⟩

theorem ite {c : Prop} [Decidable c] {other : Lower α} (h : Notes before action w)
    (hother : Notes before other w) : Notes before (if c then action else other) w := by
  split
  · exact h
  · exact hother

/-- An action that may be left out goes in front of the rest. -/
theorem iteThen {c : Prop} [Decidable c] {action : Lower Unit} {next : Unit → Lower β}
    (h : Idle action) (hnext : Notes before (next ()) v) :
    Notes before (if c then action >>= next else next ()) v :=
  ite (after h fun _ ↦ hnext) hnext

theorem fail (failure : Failure) : Notes before (Lower.fail failure) w := by
  intro s _ t hrun
  cases hrun

theorem failAt (code : String) (message : Bytes) (line column : Nat) :
    Notes before (Lower.failAt code message line column) w :=
  fail _

theorem inScope (h : Notes before action w) (kind : ScopeKind) :
    Notes before (Lower.inScope kind action) w := by
  intro s value t hrun
  obtain ⟨middle, haction, rfl⟩ := inScope_eq_ok.mp hrun
  obtain ⟨more, hnotes, hw⟩ := h haction
  exact ⟨more, ⟨hnotes.dependencies, hnotes.components, hnotes.settled⟩, hw⟩

theorem noteDependencies (names : List Bytes) :
    Notes 0 (Lower.noteDependencies names) fun _ ↦ .signals names := by
  intro s _ t hrun
  cases hrun
  refine ⟨.signals names, ⟨?_, fun c hc ↦ .inl hc, by simp⟩, (zero_add _).symm⟩
  change Option.Rel _ s.current (s.current.map _)
  cases s.current <;> simp

/-- A view joins its parts and what has been noted for it, unless it is a component. -/
theorem view {view : View} (hsettled : view.Settled) (hcomponent : view.component? = none)
    (hbefore : before = .signals view.noted + Slot.tally view.slots) :
    Notes before (Pure.pure view) View.tally := by
  intro s _ t hrun
  cases hrun
  refine ⟨0 + (0, {view}), (LoweringState.Notes.of_eq rfl rfl).add_view hsettled, ?_⟩
  rw [View.tally_eq_of_component? hcomponent, hbefore, zero_add, add_right_comm]

theorem someView {view : View} (h : Notes before (Pure.pure view) View.tally) :
    Notes before (Pure.pure (some view)) fun view ↦ (view.toList.map View.tally).sum := by
  intro s _ t hrun
  cases hrun
  obtain ⟨more, hnotes, htally⟩ := h (show (Pure.pure view : Lower View) s = (.ok view, s) from rfl)
  exact ⟨more, hnotes, by simpa using htally⟩

theorem plain {line column : Nat} {form : Plain View} (hbefore : before = Slot.tally form.slots) :
    Notes before (Pure.pure (View.plain line column form)) View.tally :=
  view trivial rfl (hbefore.trans (zero_add _).symm)

/-! ### Lists and options -/

variable {f : α → Lower β}

theorem mapM {items : List α} (h : ∀ item ∈ items, Notes 0 (f item) v) :
    Notes 0 (items.mapM f) fun values ↦ (values.map v).sum := by
  induction items with
  | nil => exact pure rfl
  | cons item items ih =>
    rw [List.mapM_cons]
    refine (h item List.mem_cons_self).bind fun value ↦ ?_
    refine (ih fun _ hmem ↦ h _ (List.mem_cons_of_mem _ hmem)).bind fun values ↦ pure ?_
    simp

theorem optionMapM {item : Option α} (h : ∀ value ∈ item, Notes 0 (f value) v) :
    Notes 0 (item.mapM f) fun value ↦ (value.toList.map v).sum := by
  cases item with
  | none => exact pure rfl
  | some item => exact (h item rfl).bind fun value ↦ pure (by simp)

end Notes

end Lower

/-! ## What expressions note

An expression comes to what its parts come to. Nothing is noted for plain constructs themselves.
-/

open Lower Slot

namespace Lowering

/-- What the entry points give tells what they note and build, and an element comes from markup. -/
structure Settles (l : Lowering) : Prop where
  statement (node : Node) : Notes 0 (l.statement node) View.tally
  expression (node : Node) : Notes 0 (l.expression node) View.tally
  element (node : Node) : Notes 0 (l.element node) View.tally
  markup {node : Node} {s t : LoweringState} {view : View}
    (hrun : l.expression node s = (.ok view, t)) (hview : view.isElement = true) : ¬node.Calls

section Settled

variable {l : Lowering} (h : l.Settles)

include h

/-! ### Lists and blocks -/

theorem expressions_notes (nodes : List Node) :
    Notes 0 (l.expressions nodes) fun views ↦ (views.map View.tally).sum :=
  .mapM fun node _ ↦ h.expression node

theorem optionalExpression_notes (node : Option Node) :
    Notes 0 (l.optionalExpression node) fun view ↦ (view.toList.map View.tally).sum :=
  .optionMapM fun part _ ↦ h.expression part

theorem block_notes (newScope : Bool) (node : Node) :
    Notes 0 (l.block newScope node) View.tally := by
  unfold block
  split
  · next range body =>
    have hstatements : Notes 0 (body.mapM l.statement) fun views ↦ (views.map View.tally).sum :=
      .mapM fun part _ ↦ h.statement part
    refine .ite ((hstatements.inScope _).bind fun views ↦ ?_) (hstatements.bind fun views ↦ ?_)
    · exact .plain (by simp [Plain.slots])
    · exact .plain (by simp [Plain.slots])
  · exact h.statement _

/-! ### Functions -/

theorem params_notes (ps : List (Param Node)) :
    Notes 0 (l.params ps) fun qs ↦ (qs.map fun q ↦ Slot.tally q.slots).sum := by
  refine .mapM fun p _ ↦ (expressions_notes h _).bind fun decorators ↦ ?_
  refine (optionalExpression_notes h _).bind fun pattern ↦ ?_
  refine (optionalExpression_notes h _).bind fun initial ↦ .pure ?_
  simp [Param.slots, add_assoc]

theorem callable_notes (f : Callable Node) :
    Notes 0 (l.callable f) fun g ↦ Slot.tally g.slots := by
  refine .after (declareParams_idle _) fun _ ↦ (params_notes h _).bind fun ps ↦ ?_
  refine (Notes.optionMapM fun body _ ↦ block_notes h false body).bind fun body ↦ .pure ?_
  simp [Callable.slots]

theorem functionExpression_notes (line column : Nat) (f : Callable Node) :
    Notes 0 (l.functionExpression line column f) fun g ↦ Slot.tally g.slots :=
  .inScope (.after (declare_idle _ _ _ _ _ _) fun _ ↦ callable_notes h f) _

theorem arrowBody_notes (body : ArrowBody Node) :
    Notes 0 (l.arrowBody body) fun lowered ↦ Slot.tally lowered.slots := by
  cases body with
  | block body => exact (block_notes h false body).bind fun _ ↦ .pure (by simp [ArrowBody.slots])
  | expression value => exact (h.expression value).bind fun _ ↦ .pure (by simp [ArrowBody.slots])

theorem arrow_notes (f : Arrow Node) : Notes 0 (l.arrow f) fun g ↦ Slot.tally g.slots := by
  refine .inScope (.after (declareParams_idle _) fun _ ↦ (params_notes h _).bind fun ps ↦ ?_) _
  exact (arrowBody_notes h f.body).bind fun body ↦ .pure (by simp [Arrow.slots])

/-! ### Keys, objects and classes -/

theorem propertyKey_notes (computed : Bool) (key : Node) :
    Notes 0 (l.propertyKey computed key) View.tally := by
  unfold propertyKey
  split
  · exact .plain rfl
  · exact h.expression _

theorem property_notes (p : Property Node) :
    Notes 0 (l.property p) fun q ↦ Slot.tally q.slots := by
  refine (Notes.optionMapM fun key _ ↦ propertyKey_notes h p.computed key).bind fun key ↦ ?_
  refine (optionalExpression_notes h _).bind fun value ↦ .pure ?_
  simp [Property.slots]

theorem memberKey_notes (key : MemberKey Node) :
    Notes 0 (l.memberKey key) fun lowered ↦ Slot.tally lowered.slots := by
  cases key with
  | named name => exact .pure rfl
  | computed index => exact (h.expression index).bind fun _ ↦ .pure (by simp [MemberKey.slots])

theorem classMember_notes (m : ClassMember Node) :
    Notes 0 (l.classMember m) fun d ↦ Slot.tally d.slots := by
  refine (expressions_notes h _).bind fun decorators ↦ ?_
  refine (Notes.optionMapM fun key _ ↦ propertyKey_notes h m.computed key).bind fun key ↦ ?_
  refine (optionalExpression_notes h _).bind fun value ↦ ?_
  refine (Notes.optionMapM fun block _ ↦ block_notes h true block).bind fun block ↦ .pure ?_
  simp [ClassMember.slots, add_assoc]

theorem classShape_notes (c : ClassShape Node) :
    Notes 0 (l.classShape c) fun d ↦ Slot.tally d.slots := by
  refine (expressions_notes h _).bind fun decorators ↦ ?_
  refine (optionalExpression_notes h _).bind fun superClass ↦ ?_
  refine (Notes.inScope (.mapM fun m _ ↦ classMember_notes h m) _).bind fun members ↦ .pure ?_
  simp [ClassShape.slots, add_assoc]

/-! ### All expressions -/

theorem plainExpression_notes (node : Node) (form : Plain Node) :
    Notes 0 (l.plainExpression node form) fun lowered ↦ Slot.tally lowered.slots := by
  cases form with
  | identifier name => exact .after (resolve_idle name) fun _ ↦ .pure rfl
  | number | string | regex | boolean | null | this | super | omitted => exact .pure rfl
  | unary | await | spread | paren | cast | nonNull =>
    exact (h.expression _).bind fun _ ↦ .pure (by simp [Plain.slots])
  | taggedTemplate | binary | assignment | assignmentPattern =>
    refine (h.expression _).bind fun _ ↦ (h.expression _).bind fun _ ↦ .pure ?_
    simp [Plain.slots]
  | template | array | sequence =>
    exact (expressions_notes h _).bind fun _ ↦ .pure (by simp [Plain.slots])
  | object properties =>
    refine (Notes.mapM fun p _ ↦ property_notes h p).bind fun qs ↦ .pure ?_
    simp [Plain.slots]
  | function f =>
    exact (functionExpression_notes h _ _ f).bind fun g ↦ .pure (by simp [Plain.slots])
  | arrow f => exact (arrow_notes h f).bind fun g ↦ .pure (by simp [Plain.slots])
  | yield argument delegate =>
    exact (optionalExpression_notes h _).bind fun _ ↦ .pure (by simp [Plain.slots])
  | conditional test consequent alternate =>
    refine (h.expression _).bind fun _ ↦ (h.expression _).bind fun _ ↦ ?_
    exact (h.expression _).bind fun _ ↦ .pure (by simp [Plain.slots, add_assoc])
  | call callee typeArguments args optional =>
    refine (h.expression _).bind fun _ ↦ (expressions_notes h _).bind fun _ ↦ .pure ?_
    simp [Plain.slots]
  | new callee typeArguments args =>
    refine (h.expression _).bind fun _ ↦ ?_
    refine (Notes.optionMapM fun list _ ↦ expressions_notes h list).bind fun lowered ↦ .pure ?_
    cases lowered <;> simp [Plain.slots]
  | member receiver key optional =>
    refine (h.expression _).bind fun _ ↦ (memberKey_notes h key).bind fun _ ↦ .pure ?_
    simp [Plain.slots]
  | _ => exact .failAt _ _ _ _

omit h in
/-- A plain view in which a construct has been lowered. -/
theorem plainView_notes {lower : Lower (Plain View)}
    (hlower : Notes 0 lower fun form ↦ Slot.tally form.slots) (line column : Nat) :
    Notes 0 (do return View.plain line column (← lower)) View.tally :=
  hlower.bind fun _ ↦ .plain (zero_add _)

theorem expressionStep_notes (node : Node) : Notes 0 (l.expressionStep node) View.tally := by
  unfold expressionStep
  split
  · exact plainView_notes (plainExpression_notes h _ _) _ _
  · split
    · refine (classShape_notes h _).bind fun d ↦ .view trivial rfl ?_
      simp [View.slots, Rendered.slots, View.noted, Rendered.noted]
    · exact h.element _
    · exact h.element _
    · exact .view trivial rfl rfl
    · exact h.expression _
    · exact .plain rfl
    · exact .failAt _ _ _ _

end Settled

end Lowering

end SignalView
