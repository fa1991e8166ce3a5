import SignalView.Proofs.Script.Account.Statements
import SignalView.Proofs.Script.Statements

/-!
# What writing programs accounts for

The entry points can be watched, so that a note is taken of certain views whenever one of them is
written. Watched on every level, the elements, fragments and calls of components of a program are
each written as often as they occur in it. Watched on one level alone, markup turns out to hand on
each of its parts once.
-/

namespace SignalView

open EmitState Slot

namespace View

variable {p : View → Bool} (hp : ∀ view, p view = true → Emission.isView view = true)

include hp

theorem account_of_not_isView {view : View} (hview : Emission.isView view = false) :
    view.account p = .calling view.calls + total (View.account p) view.slots := by
  have hnone : p view = false := by
    cases h : p view with
    | true => simp [hp view h] at hview
    | false => rfl
  rw [account_eq, hnone]
  rfl

/-- A child comes to what is written of it, apart from the calls of its parent. -/
theorem account_payload (child : View) :
    (child.payload.map (View.account p)).sum = child.account p := by
  have hvalue (c : Classification) (line column : Nat) (value : View) :
      (View.rendered line column (.child c value)).account p = value.account p := by
    rw [account_of_not_isView hp rfl]
    simp [View.calls, View.slots, Rendered.slots]
  cases child with
  | plain line column form => simp [payload]
  | rendered line column form =>
    cases form with
    | text value =>
      rw [account_of_not_isView hp rfl]
      rfl
    | child c value =>
      rw [hvalue]
      simp only [payload]
      split
      · simp
      · split
        · simp [account_additive hp _ _ _, Plain.slots]
        · simp
    | _ => simp [payload]

theorem total_handed {form : Rendered View} (hsound : form.Sound) :
    (form.handed.map (View.account p)).sum = total (View.account p) form.slots := by
  have hpayloads (children : List View) :
      ((children.flatMap View.payload).map (View.account p)).sum =
        (children.map (View.account p)).sum := by
    rw [Account.sum_flatMap]
    exact congrArg List.sum (List.map_congr_left fun child _ ↦ account_payload hp child)
  cases form with
  | element e =>
    have hchildren : ((if e.isStatic then e.children else e.children.flatMap View.payload).map
        (View.account p)).sum = (e.children.map (View.account p)).sum := by
      split
      · rfl
      · exact hpayloads e.children
    simp only [Rendered.handed, ElementShape.handed, Rendered.slots, ElementShape.slots,
      List.map_append, List.sum_append, hchildren, total_append, total_filled, total_flatMap,
      Account.sum_flatMap, ViewAttribute.slots, total_held]
    abel
  | fragment children => simp [Rendered.handed, Rendered.slots, hpayloads]
  | componentCall name props children =>
    simp [Rendered.handed, Rendered.slots, ViewAttribute.slots, Account.sum_flatMap]
  | _ => rfl

end View

namespace Emission

open Emit

variable {w : View → Account} {e e' : Emission}

/-- The entry points with a note of certain views whenever they are given one. -/
def watched (p : View → Bool) (e : Emission) : Emission where
  options := e.options
  statement view := do
    noteIf (p view)
    e.statement view
  expression view := do
    noteIf (p view)
    e.expression view

theorem AccountsFor.watched (h : AccountsFor w e e') (p : View → Bool) :
    AccountsFor (fun view ↦ (0, if p view then 1 else 0) + w view) e (e'.watched p) := by
  have hnoted {view : View} {action noting : Emit Bytes}
      (haction : Puts e.options.runtimeModule action noting (w view)) :
      Puts e.options.runtimeModule action (do noteIf (p view); noting)
        ((0, if p view then 1 else 0) + w view) := by
    -- an action is the same behind one that does nothing
    change Accounts _ 0 (pure () >>= fun _ ↦ action) _ _
    refine (Accounts.noteIf (p view)).bind ?_
    rintro _ _ _ rfl
    refine haction.frame.mono ?_
    rintro text _ ⟨_, rfl, rfl, htext⟩
    refine ⟨by rw [zero_add], fun call hcall ↦ htext call ?_⟩
    simpa using hcall
  exact {
    format := h.format
    statement := fun hview ↦ hnoted (h.statement hview)
    expression := fun hview hplace ↦ hnoted (h.expression hview hplace) }

section Step

variable {p : View → Bool} (h : AccountsFor (View.account p) e e')
  (hp : ∀ view, p view = true → Emission.isView view = true)

include h hp

theorem expressionStep_puts {place : Place} {view : View} (hview : view.Kept place)
    (hplace : place = .expression ∨ place = .key) :
    Puts e.options.runtimeModule (e.expressionStep view) (e'.expressionStep view)
      (.calling view.calls + total (View.account p) view.slots) := by
  have hw := View.account_additive hp
  cases view with
  | plain line column form =>
    obtain ⟨hstands, hsound, hslots⟩ := hview.plain_parts
    simp only [View.calls, map_zero, zero_add]
    refine plainExpression_puts h hw ?_ hsound hslots
    rcases hplace with rfl | rfl
    · exact hstands
    · exact Plain.isExpression_of_stands_key hstands
  | rendered line column form =>
    obtain ⟨hstands, hsound, hslots⟩ := hview.rendered_parts
    rcases hplace with rfl | rfl
    · cases form with
      | component c => exact componentText_puts h hw hsound hslots
      | classValue c =>
        simp only [View.calls, map_zero, zero_add]
        exact classText_puts h hw hsound hslots true
      | _ =>
        rw [View.slots, ← View.total_handed hp hsound]
        exact expressionStep_markup h rfl hview
    · cases form <;> cases hstands

end Step

/-- The entry points with a number of levels left, all of them watched. -/
def noting (p : View → Bool) (options : ScriptOptions) : Nat → Emission
  | 0 => emission options 0
  | levels + 1 => watched p {
      options := options
      statement := (noting p options levels).statementStep
      expression := (noting p options levels).expressionStep }

/-- What is written comes to the calls of its tree, and every view that is counted is written as
often as it occurs there. -/
theorem noting_accounts {p : View → Bool}
    (hp : ∀ view, p view = true → Emission.isView view = true) (options : ScriptOptions)
    (levels : Nat) : AccountsFor (View.account p) (emission options levels)
      (noting p options levels) := by
  induction levels with
  | zero => exact ⟨rfl, fun _ ↦ .fail _, fun _ _ ↦ .fail _⟩
  | succ levels ih =>
    have hoptions := emission_options options levels
    have hstep : AccountsFor (fun view ↦ .calling view.calls + total (View.account p) view.slots)
        (emission options (levels + 1)) {
          options := options
          statement := (noting p options levels).statementStep
          expression := (noting p options levels).expressionStep } := {
      format := rfl
      statement := fun hview ↦ by
        have hputs := statementStep_puts ih (View.account_additive hp) hview
        rwa [hoptions] at hputs
      expression := fun hview hplace ↦ by
        have hputs := expressionStep_puts ih hp hview hplace
        rwa [hoptions] at hputs }
    have haccount : View.account p = fun view ↦ (0, if p view then 1 else 0) +
        (.calling view.calls + total (View.account p) view.slots) := by
      funext view
      rw [View.account_eq, ← add_assoc]
      simp [Account.calling]
    rw [haccount]
    exact hstep.watched p

end Emission

/-! ## Programs -/

namespace Script

open Emission Emit

variable {options : ScriptOptions} {program : ViewProgram}

/-- The imports of the primitives come first. -/
theorem primitives_run (e : Emission) (names : List Bytes) (level : Nat) (s : EmitState) :
    ∃ t, names.forM e.useRuntime level s = .ok ((), t) ∧ t.temporaries = s.temporaries ∧
      ∀ b, b ∈ t.imports.bindings ↔ b ∈ s.imports.bindings ∨
        ∃ name ∈ names, b = ImportBinding.under e.options.runtimeModule ⟨name, name⟩ := by
  induction names generalizing s with
  | nil => exact ⟨s, rfl, rfl, by simp⟩
  | cons name names ih =>
    obtain ⟨t, hrun, htemporaries, himports⟩ := ih _
    refine ⟨t, hrun, htemporaries, fun b ↦ ?_⟩
    rw [himports, ImportTable.mem_bindings_addNamed]
    simp [or_assoc]

theorem moduleStatement_puts {w : View → Account} {e e' : Emission} (h : AccountsFor w e e')
    (hw : View.Additive w) {view : View} (hview : view.Kept .statement)
    (hforeign : ∀ line column clause, view = .plain line column (.imports clause) →
      clause.source ≠ e.options.runtimeModule) :
    Puts e.options.runtimeModule (moduleStatement e view) (moduleStatement e' view) (w view) := by
  unfold moduleStatement
  split
  · next line column clause =>
    intro level s text t s' hrun
    cases hrun
    refine ⟨0, [], _, .of_iff fun b hb ↦ ?_, ?_, rfl, rfl⟩
    · exact ImportTable.mem_bindings_add (hb ▸ (hforeign line column clause rfl).symm)
    · simp [hw _ _ _, Plain.slots, Account.In.zero]
  · refine (h.statement hview).bind ?_
    rintro text text' _ ⟨rfl, htext⟩
    exact .lastLine (zero_add _) htext.only _

/-- What has been imported from the runtime are the primitives and the helpers of all calls, and the
calls are in the text. Watched, the program takes a note of each view that is counted. -/
theorem programText_accounts {p : View → Bool}
    (hp : ∀ view, p view = true → Emission.isView view = true)
    (hbody : ∀ view ∈ program.body, view.Kept .statement)
    (hforeign : ∀ line column clause, .plain line column (.imports clause) ∈ program.body →
      clause.source ≠ options.runtimeModule)
    {levels : Nat} {code : Bytes} {t : EmitState}
    (hrun : programText (emission options levels) program 0 {} = .ok (code, t)) :
    let account := (program.body.map (View.account p)).sum
    (∀ b : ImportedName, b.source = options.runtimeModule → (b ∈ t.imports.bindings ↔
      (∃ name ∈ program.primitives,
        b = ImportBinding.under options.runtimeModule ⟨name, name⟩) ∨
      ∃ call ∈ account.1,
        b = ImportBinding.under options.runtimeModule ⟨call.helper, call.helper⟩)) ∧
    account.In code ∧
    ∃ code' t', programText (noting p options levels) program 0 {} = .ok (code', t') ∧
      t'.notes = account.2 := by
  have haccounts := noting_accounts hp options levels
  have hoptions := emission_options options levels
  obtain ⟨s, hs, -, himports⟩ :=
    primitives_run (emission options levels) program.primitives 0 {}
  obtain ⟨s', hs', htemporaries', -⟩ :=
    primitives_run (noting p options levels) program.primitives 0 {}
  have hstatements : Puts options.runtimeModule
      (do return (← program.body.mapM (moduleStatement (emission options levels))).flatten)
      (do return (← program.body.mapM (moduleStatement (noting p options levels))).flatten)
      (program.body.map (View.account p)).sum := by
    refine (Accounts.mapM (w := View.account p) fun view hview ↦ ?_).bind ?_
    · have hputs := moduleStatement_puts haccounts (View.account_additive hp) (hbody view hview)
      rw [hoptions] at hputs
      exact hputs fun line column clause heq ↦ hforeign line column clause (heq ▸ hview)
    · rintro texts texts' _ ⟨rfl, htexts⟩
      exact .text (zero_add _) htexts.flatten.only
  rw [programText, bind_of_ok hs] at hrun
  obtain ⟨more, code', t', hcalls, ⟨hmore, hin⟩, hrun', hnotes⟩ := hstatements s' hrun
  rw [zero_add] at hmore
  subst hmore
  refine ⟨fun b hb ↦ ?_, hin, code', t', ?_, ?_⟩
  · rw [hcalls b hb, himports, hoptions]
    simp [ImportTable.bindings]
  · rw [programText, bind_of_ok hs']
    exact hrun'
  · rw [hnotes, notes, htemporaries']
    simp

end Script

/-! ## Parts of markup -/

namespace Emission

variable {options : ScriptOptions}

/-- When nothing is counted, watched entry points are the others. -/
theorem noting_never (options : ScriptOptions) (levels : Nat) :
    noting (fun _ ↦ false) options levels = emission options levels := by
  induction levels with
  | zero => rfl
  | succ levels ih =>
    rw [noting, ih]
    rfl

/-- Wherever markup is written, each of its parts is handed on once. -/
theorem emission_hands {levels line column : Nat} {form : Rendered View} (hmarkup : form.isMarkup)
    (hview : (View.rendered line column form).Kept .expression) {level : Nat} {s t : EmitState}
    {text : Bytes}
    (hrun : (emission options (levels + 1)).expression (.rendered line column form) level s =
      .ok (text, t)) (p : View → Bool) (s' : EmitState) :
    ∃ text' t', ((emission options levels).watched p).expressionStep (.rendered line column form)
      level s' = .ok (text', t') ∧ t'.notes = s'.notes + form.handed.countP p := by
  have haccounts := noting_accounts (p := fun _ ↦ false) (by simp) options levels
  rw [noting_never] at haccounts
  have hputs := expressionStep_markup (haccounts.watched p) hmarkup hview
  obtain ⟨more, text', t', -, ⟨hmore, -⟩, hrun', hnotes⟩ := hputs s' hrun
  rw [zero_add] at hmore
  refine ⟨text', t', hrun', ?_⟩
  have hcount (views : List View) : (views.map fun view ↦
      ((0, if p view then 1 else 0) : Account) + view.account fun _ ↦ false).sum.2 =
        views.countP p := by
    induction views with
    | nil => rfl
    | cons view views ih =>
      rw [List.map_cons, List.sum_cons, Prod.snd_add, ih, List.countP_cons]
      simp [View.account, add_comm]
  rw [hnotes, hmore, Prod.snd_add, hcount]
  exact congrArg _ (Nat.zero_add _)

end Emission

end SignalView
