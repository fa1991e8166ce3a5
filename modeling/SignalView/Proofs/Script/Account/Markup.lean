import Mathlib.Tactic.Abel
import SignalView.Proofs.Script.Account.Rules

/-!
# What writing markup hands on

An element, a fragment or a call of a component hands each of its parts on to be written, once. A
child in braces hands on its value, and a value that is spread hands on what is spread. Whatever the
parts account for, the construct accounts for all of it and for calls of its own.
-/

namespace SignalView

open EmitState Slot

/-! ## Parts that are handed on -/

/-- What is written of a child that is appended to its parent. -/
def View.payload : View → List View
  | .rendered _ _ (.text _) => []
  | .rendered _ _ (.child _ value) =>
    if Emission.isView value then [value]
    else
      match value with
      | .plain _ _ (.spread argument) => [argument]
      | value => [value]
  | child => [child]

/-- The children of a static element are arguments of its call. -/
def ElementShape.handed (e : ElementShape View) : List View :=
  e.attributes.flatMap (·.value.toList) ++ e.bindings.map (·.expression) ++
    e.listeners.map (·.handler) ++ if e.isStatic then e.children else e.children.flatMap (·.payload)

/-- What is written of a rendered construct, part by part. -/
def Rendered.handed : Rendered View → List View
  | .element e => e.handed
  | .componentCall _ props children => props.flatMap (·.value.toList) ++ children
  | .fragment children => children.flatMap (·.payload)
  | .child _ inner => [inner]
  | form => parts form.slots

/-- Whether a rendered construct comes from markup. -/
def Rendered.isMarkup : Rendered View → Bool
  | .component _ | .classValue _ => false
  | _ => true

/-! ## Sums of accounts -/

namespace Account

variable {α β : Type}

theorem sum_flatMap (items : List α) (parts : α → List β) (w : β → Account) :
    ((items.flatMap parts).map w).sum = (items.map fun item ↦ ((parts item).map w).sum).sum := by
  induction items with
  | nil => rfl
  | cons item items ih => simp [ih]

theorem sum_calling (items : List α) (calls : α → Multiset RuntimeCall) (w : α → Account) :
    (items.map fun item ↦ calling (calls item) + w item).sum =
      calling (items.map calls).sum + (items.map w).sum := by
  induction items with
  | nil => rfl
  | cons item items ih => simp only [List.map_cons, List.sum_cons, map_add, ih, add_add_add_comm]

theorem InSome.bracedEntries {account : Account} {entries : List Bytes}
    (h : account.InSome entries) : account.In (Emission.bracedEntries entries) := by
  unfold Emission.bracedEntries
  split
  · next hempty =>
    rw [List.isEmpty_iff.mp hempty] at h
    intro call hcall
    obtain ⟨_, hmem, _⟩ := h call hcall
    cases hmem
  · exact ((h.join _).front _).back _

end Account

/-! ## Helpers and lines -/

namespace Emit

variable {runtimeModule : Bytes} {done account : Account} {e e' : Emission}

theorem Quiet.pad : Quiet runtimeModule e.pad e'.pad := Accounts.after .level fun _ _ ↦ .pure rfl

namespace Accounts

theorem line (text text' : Bytes) :
    Accounts runtimeModule 0 (e.line text) (e'.line text') fun out done ↦
      done = 0 ∧ text <:+: out := by
  refine .after .pad fun margin _ ↦ .pure ⟨rfl, ?_⟩
  exact ((List.suffix_append margin text).isInfix).trans (List.prefix_append _ _).isInfix

/-- The last line of an action. -/
theorem lastLine {text : Bytes} (hdone : done = account) (hin : done.In text) (text' : Bytes) :
    Accounts runtimeModule done (e.line text) (e'.line text') fun out done ↦
      done = account ∧ account.In out := by
  refine (line text text').frame.mono ?_
  rintro out _ ⟨_, rfl, rfl, hout⟩
  exact ⟨by rw [add_zero, hdone], hdone ▸ hin.mono hout⟩

theorem useRuntime (call : RuntimeCall) :
    Accounts e.options.runtimeModule 0 (e.useRuntime call.helper) (e'.useRuntime call.helper)
      fun _ done ↦ done = .calling {call} := by
  intro level s _ t s' hrun
  cases hrun
  refine ⟨.calling {call}, (), _, fun b _ ↦ ?_, zero_add _, rfl, rfl⟩
  rw [ImportTable.mem_bindings_addNamed]
  simp [Account.calling]

end Accounts

theorem Quiet.line (text text' : Bytes) : Quiet runtimeModule (e.line text) (e'.line text') :=
  (Accounts.line text text').mono fun _ _ h ↦ h.1

end Emit

namespace Emission

open Emit

/-- The entry points account for what some views come to, and the ones beside them for as much. -/
structure AccountsFor (w : View → Account) (e e' : Emission) : Prop where
  format : e'.options.format = e.options.format
  statement {view : View} (h : view.Kept .statement) :
    Puts e.options.runtimeModule (e.statement view) (e'.statement view) (w view)
  expression {place : Place} {view : View} (h : view.Kept place)
    (hplace : place = .expression ∨ place = .key) :
    Puts e.options.runtimeModule (e.expression view) (e'.expression view) (w view)

section Accounted

variable {w : View → Account} {e e' : Emission} (h : AccountsFor w e e')

include h

theorem AccountsFor.value {view : View} (hview : view.Kept .expression) :
    Puts e.options.runtimeModule (e.expression view) (e'.expression view) (w view) :=
  h.expression hview (.inl rfl)

/-! ## Lists -/

theorem optionalExpression_puts {view : Option View}
    (hview : ∀ part ∈ view, part.Kept .expression) :
    Puts e.options.runtimeModule (e.optionalExpression view) (e'.optionalExpression view)
      (view.toList.map w).sum := by
  cases view with
  | none => exact .text rfl (.zero _)
  | some view =>
    rw [Option.toList_some, List.map_singleton, List.sum_singleton]
    exact h.value (hview view rfl)

theorem expressionList_puts {views : List View} (hviews : ∀ view ∈ views, view.Kept .expression) :
    Puts e.options.runtimeModule (e.expressionList views) (e'.expressionList views)
      (views.map w).sum := by
  refine (Accounts.mapM fun view hview ↦ h.value (hviews view hview)).bind ?_
  rintro texts texts' _ ⟨rfl, htexts⟩
  exact .text (zero_add _) (htexts.join _).only

/-- Only the body of an arrow function that is no block is written so. -/
theorem arrowBody_puts {body : View} (hbody : body.Kept .expression) :
    Puts e.options.runtimeModule (e.arrowBody body) (e'.arrowBody body) (w body) := by
  unfold arrowBody
  split
  · exact absurd hbody.plain_parts.1 Bool.false_ne_true
  · refine (h.value hbody).bind ?_
    rintro text text' _ ⟨rfl, htext⟩
    refine .text (zero_add _) ?_
    split
    · exact (htext.front _).back _ |>.only
    · exact htext.only

/-! ## Attributes -/

theorem attributeEntry_puts {a : ViewAttribute View} (ha : AllHold View.Kept a.slots)
    (domNames : Bool) :
    Puts e.options.runtimeModule (e.attributeEntry domNames a) (e'.attributeEntry domNames a)
      (a.value.toList.map w).sum := by
  obtain ⟨-, hvalue⟩ := allHold_held.mp ha
  refine .ite (fun _ ↦ ?_) fun _ ↦ ?_
  · refine (optionalExpression_puts h hvalue).bind ?_
    rintro text text' _ ⟨rfl, htext⟩
    exact .text (zero_add _) (htext.front _).only
  · cases hsome : a.value with
    | none => exact .text rfl (.zero _)
    | some value =>
      refine (h.value (hvalue value hsome)).bind ?_
      rintro text text' _ ⟨rfl, htext⟩
      exact .text (by simp) (htext.front _).only

theorem elementAttributes_puts {element : ElementShape View}
    (helement : ∀ a ∈ element.attributes, AllHold View.Kept a.slots) :
    Puts e.options.runtimeModule (e.elementAttributes element) (e'.elementAttributes element)
      ((element.attributes.flatMap (·.value.toList)).map w).sum := by
  refine (Accounts.mapM fun a ha ↦ attributeEntry_puts h (helement a ha) true).bind ?_
  rintro texts texts' _ ⟨rfl, htexts⟩
  rw [Account.sum_flatMap]
  exact .text (zero_add _) htexts.bracedEntries.only

theorem attributeEffect_puts {b : PropertyBinding View} (hb : b.expression.Kept .expression)
    (el el' : Bytes) :
    Puts e.options.runtimeModule (e.attributeEffect el b) (e'.attributeEffect el' b)
      (.calling {.effect} + w b.expression) := by
  refine (Accounts.useRuntime .effect).bind ?_
  rintro _ _ _ rfl
  refine .after (.temporary (by simp [labels])) fun v v' ↦ ?_
  refine .bind (P := fun text done ↦ done = w b.expression ∧ (w b.expression).In text)
    (.indented ?_) ?_
  · refine (h.value hb).bind ?_
    rintro value value' _ ⟨rfl, hvalue⟩
    refine (Accounts.line _ _).bind ?_
    rintro first first' _ ⟨rfl, hfirst⟩
    refine .after (.line _ _) fun second _ ↦ .after (.line _ _) fun third _ ↦ ?_
    refine .text (by simp) ?_
    rw [zero_add, add_zero]
    exact (((hvalue.front _).back _).mono hfirst |>.back _).back _
  · rintro body body' _ ⟨rfl, hbody⟩
    refine (Accounts.line _ _).bind ?_
    rintro head head' _ ⟨rfl, hhead⟩
    refine .after (.line _ _) fun _ _ ↦ .text (by simp) ?_
    rw [zero_add, add_zero]
    refine .back (.add (.mono (.call .effect) ?_) hbody) _
    exact (List.prefix_append (bytes "createEffect(") (bytes "() => \x7b")).isInfix.trans hhead

theorem bindingLines_puts {b : PropertyBinding View} (hb : b.expression.Kept .expression)
    (el el' : Bytes) :
    Puts e.options.runtimeModule (e.bindingLines el b) (e'.bindingLines el' b)
      (.calling (if b.isAttribute then {.effect} else {.wire}) + w b.expression) := by
  unfold bindingLines
  cases b.isAttribute with
  | true => exact attributeEffect_puts h hb el el'
  | false =>
    refine (Accounts.useRuntime .wire).bind ?_
    rintro _ _ _ rfl
    refine (arrowBody_puts h hb).bind ?_
    rintro body body' _ ⟨rfl, hbody⟩
    refine .lastLine (by simp) (.back (.add ?_ hbody) _) _
    rw [zero_add]
    exact (Account.In.call .wire).back _ |>.back _ |>.back _ |>.back _

theorem listenerLines_puts {listener : Listener View}
    (hlistener : listener.handler.Kept .expression) (el el' : Bytes) :
    Puts e.options.runtimeModule (e.listenerLines el listener) (e'.listenerLines el' listener)
      (w listener.handler) := by
  refine (h.value hlistener).bind ?_
  rintro handler handler' _ ⟨rfl, hhandler⟩
  exact .lastLine (zero_add _) ((hhandler.front _).back _).only _

/-! ## Children -/

omit h in
theorem guardedLines_accounts {done : Account} {value value' : Bytes} (hvalue : done.In value)
    (parent parent' : Bytes) :
    Accounts e.options.runtimeModule done (e.guardedLines parent value)
      (e'.guardedLines parent' value') fun text sum ↦ sum = done ∧ done.In text := by
  refine .after (.temporary (by simp [labels])) fun v v' ↦ ?_
  refine (Accounts.line _ _).bind ?_
  rintro first first' _ ⟨rfl, hfirst⟩
  refine .after (.line _ _) fun _ _ ↦ .text (add_zero _) ?_
  rw [add_zero]
  exact ((hvalue.front _).back _ |>.mono hfirst).back _

theorem listLines_puts {value : View} (hvalue : value.Kept .expression) (parent parent' : Bytes) :
    Puts e.options.runtimeModule (e.listLines parent value) (e'.listLines parent' value)
      (w value) := by
  refine .after (.temporary (by simp [labels])) fun v v' ↦ ?_
  refine .after (.temporary (by simp [labels])) fun m m' ↦ (h.value hvalue).bind ?_
  rintro text text' _ ⟨rfl, htext⟩
  refine (Accounts.line _ _).bind ?_
  rintro first first' _ ⟨rfl, hfirst⟩
  refine .after (.line _ _) fun loop _ ↦ .after (.indented (Quiet.line _ _)) fun body _ ↦ ?_
  refine .after (.line _ _) fun _ _ ↦ .text (by simp) ?_
  rw [zero_add, add_zero]
  exact ((htext.front _).back _ |>.mono hfirst |>.back _).back _ |>.back _

omit h in
theorem regionNames_quiet {runtimeModule : Bytes} :
    Quiet runtimeModule regionNames regionNames := by
  refine .after (.temporary (by simp [labels])) fun anchor anchor' ↦ ?_
  refine .after (.temporary (by simp [labels])) fun nodes nodes' ↦ ?_
  refine .after (.temporary (by simp [labels])) fun value value' ↦ ?_
  refine .after (.temporary (by simp [labels])) fun member member' ↦ ?_
  exact .after (.temporary (by simp [labels])) fun node node' ↦ .pure rfl

omit h in
theorem regionMembers_quiet {runtimeModule : Bytes} (names names' : RegionNames) :
    Quiet runtimeModule (e.regionMembers names) (e'.regionMembers names') := by
  refine .after (.line _ _) fun _ _ ↦ .after (.line _ _) fun _ _ ↦ ?_
  exact .after (.line _ _) fun _ _ ↦ .after (.line _ _) fun _ _ ↦ .pure rfl

theorem regionBody_puts {value : View} (hvalue : value.Kept .expression)
    (names names' : RegionNames) :
    Puts e.options.runtimeModule (e.regionBody names value) (e'.regionBody names' value)
      (w value) := by
  refine (h.value hvalue).bind ?_
  rintro text text' _ ⟨rfl, htext⟩
  refine (Accounts.line _ _).bind ?_
  rintro first first' _ ⟨rfl, hfirst⟩
  refine .after (.line _ _) fun _ _ ↦ .after (.line _ _) fun _ _ ↦ .after (.line _ _) fun _ _ ↦ ?_
  refine .after (.indented (regionMembers_quiet names names')) fun _ _ ↦ ?_
  refine .after (.line _ _) fun _ _ ↦ .text (by simp) ?_
  rw [zero_add, add_zero]
  exact ((htext.front _).back _ |>.mono hfirst |>.back _).back _ |>.back _ |>.back _ |>.back _

theorem regionLines_puts {value : View} (hvalue : value.Kept .expression)
    (parent parent' : Bytes) :
    Puts e.options.runtimeModule (e.regionLines parent value) (e'.regionLines parent' value)
      (.calling {.effect} + w value) := by
  refine (Accounts.useRuntime .effect).bind ?_
  rintro _ _ _ rfl
  refine .after regionNames_quiet fun names names' ↦ .after (.line _ _) fun _ _ ↦ ?_
  refine .after (.line _ _) fun _ _ ↦ .after (.line _ _) fun _ _ ↦ (Accounts.line _ _).bind ?_
  rintro head head' _ ⟨rfl, hhead⟩
  refine (regionBody_puts h hvalue names names').indented.bind ?_
  rintro body body' _ ⟨rfl, hbody⟩
  refine .after (.line _ _) fun _ _ ↦ .text (by simp) ?_
  rw [zero_add, add_zero]
  refine .back (.add (.front (.mono (.call .effect) ?_) _) hbody) _
  exact (List.prefix_append (bytes "createEffect(") (bytes "() => \x7b")).isInfix.trans hhead

omit h in
/-- The lines for a text node once its getter is written. -/
theorem wiredText_accounts {done : Account} {getter getter' : Bytes} (hgetter : done.In getter)
    (t t' parent parent' : Bytes) :
    Accounts e.options.runtimeModule (.calling {.wire} + done)
      (do
        let make ← e.line (bytes "const " ++ t ++ bytes " = document.createTextNode('');")
        let wire ← e.line (bytes "$REGISTRY.wire(" ++ t ++ bytes ", 'textContent', () => " ++
          getter ++ bytes ");")
        return make ++ wire ++ (← e.line (parent ++ bytes ".appendChild(" ++ t ++ bytes ");")))
      (do
        let make ← e'.line (bytes "const " ++ t' ++ bytes " = document.createTextNode('');")
        let wire ← e'.line (bytes "$REGISTRY.wire(" ++ t' ++ bytes ", 'textContent', () => " ++
          getter' ++ bytes ");")
        return make ++ wire ++ (← e'.line (parent' ++ bytes ".appendChild(" ++ t' ++ bytes ");")))
      fun text sum ↦ sum = .calling {.wire} + done ∧ (Account.calling {.wire} + done).In text := by
  refine .after (.line _ _) fun make _ ↦ (Accounts.line _ _).bind ?_
  rintro wire wire' _ ⟨rfl, hwire⟩
  refine .after (.line _ _) fun _ _ ↦ .text (add_zero _) ?_
  rw [add_zero]
  refine .back (.front (.mono (.back (.add ?_ hgetter) _) hwire) _) _
  exact (Account.In.call .wire).back _ |>.back _

theorem textLines_puts {value : View} (hvalue : value.Kept .expression) (isNullable : Bool)
    (parent parent' : Bytes) :
    Puts e.options.runtimeModule (e.textLines parent isNullable value)
      (e'.textLines parent' isNullable value) (.calling {.wire} + w value) := by
  refine (Accounts.useRuntime .wire).bind ?_
  rintro _ _ _ rfl
  rw [zero_add]
  refine .after (.temporary (by simp [labels])) fun t t' ↦ .ite (fun _ ↦ ?_) fun _ ↦ ?_
  · refine .after (.temporary (by simp [labels])) fun v v' ↦ (h.value hvalue).bind ?_
    rintro text text' _ ⟨rfl, htext⟩
    refine .seq (P := fun getter sum ↦ sum = .calling {.wire} + w value ∧ (w value).In getter)
      (.pure ⟨rfl, ?_⟩) ?_
    · exact (htext.front _).back _ |>.back _ |>.back _ |>.back _ |>.back _ |>.back _ |>.back _
    · rintro getter getter' _ ⟨rfl, hgetter⟩
      exact wiredText_accounts hgetter t t' parent parent'
  · refine (arrowBody_puts h hvalue).bind ?_
    rintro getter getter' _ ⟨rfl, hgetter⟩
    exact wiredText_accounts hgetter t t' parent parent'

theorem nodeLines_puts {view : View} (hview : view.Kept .expression) (parent parent' : Bytes) :
    Puts e.options.runtimeModule (e.nodeLines parent view) (e'.nodeLines parent' view)
      (w view) := by
  refine (h.value hview).bind ?_
  rintro text text' _ ⟨rfl, htext⟩
  exact .lastLine (zero_add _) ((htext.front _).back _).only _

theorem valueLines_puts {value : View} (hvalue : value.Kept .expression) (c : Classification)
    (isSpread : Bool) (parent parent' : Bytes) :
    Puts e.options.runtimeModule (e.valueLines parent c isSpread value)
      (e'.valueLines parent' c isSpread value) (.calling (c.calls isSpread) + w value) := by
  have hcalls : c.calls isSpread =
      let isList := isSpread || c.category == .loop || c.realization == .list
      let isReactive := c.category != .static && (!c.dependencies.isEmpty || c.category != .loop)
      if isReactive && c.isText && !isList then {.wire} else if isReactive then {.effect} else 0 := by
    unfold Classification.calls
    grind
  rw [hcalls]
  refine .ite (fun hc ↦ ?_) fun hc ↦ .ite (fun hreactive ↦ ?_) fun hreactive ↦ ?_
  · rw [if_pos hc]
    exact textLines_puts h hvalue _ _ _
  · rw [if_neg hc, if_pos hreactive]
    exact regionLines_puts h hvalue _ _
  · rw [if_neg hc, if_neg hreactive, map_zero, zero_add]
    refine .ite (fun _ ↦ listLines_puts h hvalue _ _) fun _ ↦ .ite (fun _ ↦ ?_) fun _ ↦ ?_
    · refine (h.value hvalue).bind ?_
      rintro text text' _ ⟨rfl, htext⟩
      rw [zero_add]
      refine (guardedLines_accounts htext _ _).mono ?_
      rintro out _ ⟨rfl, hout⟩
      exact ⟨rfl, hout⟩
    · refine (h.value hvalue).bind ?_
      rintro text text' _ ⟨rfl, htext⟩
      exact .lastLine (zero_add _) ((htext.front _).back _).only _

theorem childLines_puts {child : View} (hchild : child.Kept .expression) (parent parent' : Bytes) :
    Puts e.options.runtimeModule (e.childLines parent child) (e'.childLines parent' child)
      (.calling child.childCalls + (child.payload.map w).sum) := by
  cases child with
  | plain line column form =>
    simp only [View.childCalls, View.payload, map_zero, zero_add, List.map_singleton,
      List.sum_singleton]
    exact nodeLines_puts h hchild parent parent'
  | rendered line column form =>
    cases form with
    | text value => exact .lastLine rfl (.zero _) _
    | child c value =>
      have hvalue : value.Kept .expression := by
        simpa [Rendered.slots] using hchild.rendered_parts.2.2
      simp only [childLines, View.childCalls, View.payload]
      cases isView value with
      | true =>
        simp only [if_true, map_zero, zero_add, List.map_singleton, List.sum_singleton]
        exact nodeLines_puts h hvalue parent parent'
      | false =>
        simp only [Bool.false_eq_true, if_false]
        split
        · next argument =>
          have hargument : argument.Kept .expression := by
            simpa [Plain.slots] using hvalue.plain_parts.2.2
          simpa using valueLines_puts h hargument c true parent parent'
        · next hspread =>
          simpa using valueLines_puts h hvalue c false parent parent'
    | _ =>
      simp only [View.childCalls, View.payload, map_zero, zero_add, List.map_singleton,
        List.sum_singleton]
      exact nodeLines_puts h hchild parent parent'

/-! ## Elements, fragments and calls -/

omit h in
theorem immediate_accounts {done sum : Account} {lines lines' : Emit Bytes}
    (hlines : Accounts e.options.runtimeModule done lines lines' fun text done ↦
      done = sum ∧ sum.In text) :
    Accounts e.options.runtimeModule done (e.immediate lines) (e'.immediate lines')
      fun text done ↦ done = sum ∧ sum.In text := by
  refine hlines.indented.seq ?_
  rintro text text' _ ⟨rfl, htext⟩
  exact .after .pad fun _ _ ↦ .text rfl ((htext.front _).back _ |>.back _)

omit h in
theorem elementCall_in {tag attributes children : Bytes} {account more : Account}
    (hattributes : account.In attributes) (hchildren : more.In children) :
    (.calling {.element tag} + account + more : Account).In
      (elementCall tag attributes children) :=
  ((((Account.In.call (.element tag)).back _).add hattributes).back _ |>.add hchildren).back _

theorem elementText_puts {element : ElementShape View} (hsound : element.Sound)
    (helement : AllHold View.Kept element.slots) :
    Puts e.options.runtimeModule (e.elementText element) (e'.elementText element)
      (.calling element.calls + (element.handed.map w).sum) := by
  simp only [ElementShape.slots, allHold_append, allHold_flatMap, allHold_filled,
    List.forall_mem_map] at helement
  obtain ⟨⟨⟨hattributes, hlisteners⟩, hbindings⟩, hchildren⟩ := helement
  refine (Accounts.useRuntime (.element element.tag)).bind ?_
  rintro _ _ _ rfl
  rw [zero_add]
  refine .ite (fun hstatic ↦ ?_) fun hstatic ↦ ?_
  · refine (elementAttributes_puts h hattributes).bind ?_
    rintro attributes attributes' _ ⟨rfl, hattributes⟩
    refine (expressionList_puts h hchildren).bind ?_
    rintro children children' _ ⟨rfl, hchildren⟩
    refine .text ?_ (elementCall_in hattributes hchildren)
    obtain ⟨hlisteners, hbindings⟩ := hsound.static hstatic
    simp [ElementShape.calls, ElementShape.handed, hstatic, hlisteners, hbindings, add_assoc]
  · refine .after (.temporary (by simp [labels])) fun el el' ↦ immediate_accounts ?_
    refine (elementAttributes_puts h hattributes).bind ?_
    rintro attributes attributes' _ ⟨rfl, hattributes⟩
    refine (Accounts.line _ _).bind ?_
    rintro first first' _ ⟨rfl, hfirst⟩
    refine (Accounts.mapM fun b hb ↦ bindingLines_puts h (hbindings b hb) el el').bind ?_
    rintro bindings bindings' _ ⟨rfl, hbindings⟩
    refine (Accounts.mapM fun a ha ↦ listenerLines_puts h (hlisteners a ha) el el').bind ?_
    rintro listeners listeners' _ ⟨rfl, hlisteners⟩
    refine (Accounts.mapM fun c hc ↦ childLines_puts h (hchildren c hc) el el').bind ?_
    rintro children children' _ ⟨rfl, hchildren⟩
    refine .after (.line _ _) fun last last' ↦ .text ?_ ?_
    · simp only [ElementShape.calls, ElementShape.handed, hstatic, Account.sum_calling,
        Account.sum_flatMap, List.map_append, List.sum_append, List.map_map, Function.comp_def,
        Bool.false_eq_true, if_false, map_add, add_zero]
      abel
    · have hcall := (elementCall_in hattributes (.zero [])).front _ |>.back _ |>.mono hfirst
      rw [add_zero] at hcall ⊢
      exact hcall.add hbindings.flatten |>.add hlisteners.flatten |>.add hchildren.flatten |>.back _

theorem fragmentText_puts {children : List View}
    (hchildren : ∀ child ∈ children, child.Kept .expression) :
    Puts e.options.runtimeModule (e.fragmentText children) (e'.fragmentText children)
      (.calling (children.map View.childCalls).sum +
        ((children.flatMap (·.payload)).map w).sum) := by
  rw [Account.sum_flatMap, ← Account.sum_calling]
  refine .after (.temporary (by simp [labels])) fun frag frag' ↦ immediate_accounts ?_
  refine .after (.line _ _) fun first first' ↦ ?_
  refine (Accounts.mapM fun c hc ↦ childLines_puts h (hchildren c hc) frag frag').bind ?_
  rintro children children' _ ⟨rfl, hchildren⟩
  refine .after (.line _ _) fun last last' ↦ .text (zero_add _) ?_
  exact ((hchildren.flatten.front _).back _).only

theorem callChildren_puts {children : List View}
    (hchildren : ∀ child ∈ children, child.Kept .expression) :
    Puts e.options.runtimeModule (e.callChildren children) (e'.callChildren children)
      (children.map w).sum := by
  unfold callChildren
  split
  · next child =>
    have hchild : child.Kept .expression := by simpa using hchildren
    rw [List.map_singleton, List.sum_singleton]
    refine .ite (fun _ ↦ (h.value hchild).bind ?_) fun _ ↦ h.value hchild
    rintro text text' _ ⟨rfl, htext⟩
    exact .text (zero_add _) ((htext.front _).back _).only
  · refine (expressionList_puts h hchildren).bind ?_
    rintro text text' _ ⟨rfl, htext⟩
    exact .text (zero_add _) ((htext.front _).back _).only

theorem callText_puts {props : List (ViewAttribute View)} {children : List View}
    (hprops : ∀ a ∈ props, AllHold View.Kept a.slots)
    (hchildren : ∀ child ∈ children, child.Kept .expression) (name : Bytes) :
    Puts e.options.runtimeModule (e.callText name props children) (e'.callText name props children)
      ((props.flatMap (·.value.toList) ++ children).map w).sum := by
  rw [List.map_append, List.sum_append, Account.sum_flatMap]
  refine (Accounts.mapM fun a ha ↦ attributeEntry_puts h (hprops a ha) false).bind ?_
  rintro entries entries' _ ⟨rfl, hentries⟩
  refine .ite (fun hempty ↦ ?_) fun _ ↦ ?_
  · rw [List.isEmpty_iff.mp hempty]
    refine .text (by simp) ?_
    rw [zero_add, List.append_nil]
    exact (hentries.bracedEntries.front _).back _
  · refine (callChildren_puts h hchildren).bind ?_
    rintro text text' _ ⟨rfl, htext⟩
    refine .text (by rw [zero_add]) ?_
    rw [zero_add]
    have hchild := Account.InSome.cons (htext.front (bytes "children: ")) (.nil [])
    rw [add_zero] at hchild
    exact ((hentries.append hchild).bracedEntries.front _).back _

end Accounted

end Emission

end SignalView
