import SignalView.Proofs.Script.Account.Expressions
import SignalView.Script.Statement

/-!
# What writing statements accounts for

A statement comes to what its parts come to, and a component to its wrapper as well. Parentheses
around a condition are dropped, but no call begins or ends with one of them.
-/

namespace SignalView

open EmitState Slot

/-! ## Conditions -/

namespace RuntimeCall

theorem text_eq_cons (call : RuntimeCall) : ∃ b rest, call.text = b :: rest ∧ b ≠ byte '(' := by
  cases call with
  | element tag => exact ⟨byte 't', _, rfl, by decide⟩
  | wrapper key => exact ⟨byte '$', _, rfl, by decide⟩
  | wire => exact ⟨byte '$', _, rfl, by decide⟩
  | effect => exact ⟨byte 'c', _, rfl, by decide⟩

theorem text_eq_concat (call : RuntimeCall) :
    ∃ rest b, call.text = rest ++ [b] ∧ b ≠ byte ')' := by
  have hquoted (front text : Bytes) : front ++ Quoted.quoted text =
      front ++ (Quoted.singleQuote :: Quoted.escape Quoted.singleQuote text) ++
        [Quoted.singleQuote] := by
    simp [Quoted.quoted, Quoted.quoteWith]
  cases call with
  | element tag => exact ⟨_, _, hquoted _ tag, by decide⟩
  | wrapper key => exact ⟨_, _, hquoted _ key, by decide⟩
  | wire => exact ⟨bytes "$REGISTRY.wire", byte '(', by decide, by decide⟩
  | effect => exact ⟨bytes "createEffect", byte '(', by decide, by decide⟩

theorem infix_stripParens (call : RuntimeCall) {text : Bytes} (h : call.text <:+: text) :
    call.text <:+: Quoted.stripParens text := by
  obtain ⟨b, tail, hfirst, hopen⟩ := call.text_eq_cons
  obtain ⟨front, c, hlast, hclose⟩ := call.text_eq_concat
  unfold Quoted.stripParens
  split
  · next first rest =>
    split
    · next hparens =>
      simp only [Bool.and_eq_true, beq_iff_eq] at hparens
      obtain ⟨⟨rfl, hend⟩, -⟩ := hparens
      -- what begins with another letter is behind the first one
      have hrest : call.text <:+: rest := by
        refine (List.infix_cons_iff.mp h).resolve_left fun hprefix ↦ ?_
        rw [hfirst, List.cons_prefix_cons] at hprefix
        exact hopen hprefix.1
      obtain ⟨inner, rfl⟩ := List.getLast?_eq_some_iff.mp hend
      rw [List.dropLast_concat]
      -- and what ends with another letter is in front of the last one
      refine (List.infix_concat_iff.mp hrest).resolve_left fun ⟨more, hmore⟩ ↦ ?_
      rw [hlast, ← List.append_assoc] at hmore
      exact hclose (List.singleton_inj.mp (List.append_inj' hmore rfl).2)
    · exact h
  · exact h

end RuntimeCall

theorem Account.In.stripParens {account : Account} {text : Bytes} (h : account.In text) :
    account.In (Quoted.stripParens text) := fun call hcall ↦ call.infix_stripParens (h call hcall)

namespace Emission

open Emit

section Accounted

variable {w : View → Account} {e e' : Emission} (h : AccountsFor w e e') (hw : View.Additive w)

include h

theorem condition_puts {test : View} (htest : test.Kept .expression) :
    Puts e.options.runtimeModule (e.condition test) (e'.condition test) (w test) := by
  refine (h.value htest).bind ?_
  rintro text text' _ ⟨rfl, htext⟩
  exact .text (zero_add _) htext.stripParens.only

/-! ## Variables and types -/

theorem variablesText_puts {declarators : List (Declarator View)}
    (hdeclarators : ∀ d ∈ declarators, AllHold View.Kept d.slots) (keyword : Bytes)
    (isDeclare : Bool) :
    Puts e.options.runtimeModule (e.variablesText keyword declarators isDeclare)
      (e'.variablesText keyword declarators isDeclare)
      (declarators.map fun d ↦ total w d.slots).sum := by
  refine (Accounts.mapM (w := fun d ↦ total w d.slots) fun d hd ↦ ?_).bind ?_
  · obtain ⟨htarget, hinit⟩ := by simpa [Declarator.slots] using hdeclarators d hd
    refine (h.value htarget).bind ?_
    rintro target target' _ ⟨rfl, htarget⟩
    refine (initial_puts h hinit).bind ?_
    rintro initial initial' _ ⟨rfl, hinitial⟩
    refine .text (by simp [Declarator.slots]) ?_
    rw [zero_add]
    exact ((htarget.back _).back _).add hinitial
  · rintro texts texts' _ ⟨rfl, htexts⟩
    exact .text (zero_add _) ((htexts.join _).front _).only

omit h in
theorem interfaceText_puts (name typeParameters : Bytes) (extended members : List Bytes)
    (isDeclare : Bool) :
    Puts e.options.runtimeModule (e.interfaceText name typeParameters extended members isDeclare)
      (e'.interfaceText name typeParameters extended members isDeclare) 0 := by
  refine .ite (fun _ ↦ .text rfl (.zero _)) fun _ ↦ ?_
  refine (Accounts.indented (.mapM (w := fun _ ↦ 0) fun member _ ↦
    .lastLine rfl (.zero _) _)).bind ?_
  rintro lines lines' _ ⟨rfl, -⟩
  exact .after .pad fun _ _ ↦ .text (by simp) (by simpa using .zero _)

theorem enumText_puts {members : List (EnumMember View)}
    (hmembers : ∀ m ∈ members, ∀ init ∈ m.init, init.Kept .expression) (name : Bytes)
    (isConst isDeclare : Bool) :
    Puts e.options.runtimeModule (e.enumText name members isConst isDeclare)
      (e'.enumText name members isConst isDeclare)
      (members.map fun m ↦ (m.init.toList.map w).sum).sum := by
  refine .ite (fun hnone ↦ ?_) fun _ ↦ ?_
  · rw [List.isEmpty_iff.mp hnone]
    exact .text rfl (.zero _)
  refine (Accounts.indented (.mapM (w := fun m ↦ (m.init.toList.map w).sum) fun m hm ↦
    (initial_puts h (hmembers m hm)).bind ?_)).bind ?_
  · rintro text text' _ ⟨rfl, htext⟩
    exact .lastLine (zero_add _) ((htext.front _).back _).only _
  · rintro lines lines' _ ⟨rfl, hlines⟩
    exact .after .pad fun _ _ ↦ .text (zero_add _) ((hlines.flatten.front _).back _ |>.back _).only

theorem namespaceText_puts {body : Option (List View)}
    (hbody : ∀ view ∈ body.getD [], view.Kept .statement) (keyword name : Bytes)
    (isDeclare : Bool) :
    Puts e.options.runtimeModule (e.namespaceText keyword name body isDeclare)
      (e'.namespaceText keyword name body isDeclare) ((body.getD []).map w).sum := by
  cases body with
  | none => exact .text rfl (.zero _)
  | some body =>
    refine (statementLines_puts h hbody).indented.bind ?_
    rintro lines lines' _ ⟨rfl, hlines⟩
    exact .after .pad fun _ _ ↦ .text (zero_add _) ((hlines.front _).back _ |>.back _).only

theorem loopPart_puts {part : Option View} (hpart : ∀ view ∈ part, view.Kept .expression) :
    Puts e.options.runtimeModule (e.loopPart part) (e'.loopPart part) (part.toList.map w).sum := by
  cases part with
  | none => exact .text rfl (.zero _)
  | some part =>
    rw [Option.toList_some, List.map_singleton, List.sum_singleton]
    refine (h.value (hpart part rfl)).bind ?_
    rintro text text' _ ⟨rfl, htext⟩
    exact .text (zero_add _) (htext.front _).only

theorem caseText_puts {c : SwitchCase View} (hc : AllHold View.Kept c.slots) :
    Puts e.options.runtimeModule (e.caseText c) (e'.caseText c) (total w c.slots) := by
  obtain ⟨htest, hbody⟩ := by simpa [SwitchCase.slots] using hc
  have hrest {done : Account} {label : Bytes} (hdone : done = (c.test.toList.map w).sum)
      (hlabel : done.In label) (label' : Bytes) :
      Accounts e.options.runtimeModule done
        (do return (← e.line label) ++ (← indented (e.statementLines c.body)))
        (do return (← e'.line label') ++ (← indented (e'.statementLines c.body)))
        fun text done ↦ done = total w c.slots ∧ (total w c.slots).In text := by
    refine Accounts.seq (.lastLine rfl hlabel label') ?_
    rintro line line' _ ⟨rfl, hline⟩
    refine (statementLines_puts h hbody).indented.bind ?_
    rintro lines lines' _ ⟨rfl, hlines⟩
    exact .text (by simp [SwitchCase.slots, hdone]) (hline.add hlines)
  unfold caseText
  cases hsome : c.test with
  | none => exact hrest (by simp [hsome]) (.zero _) _
  | some test =>
    refine (h.value (htest test hsome)).bind ?_
    rintro text text' _ ⟨rfl, htext⟩
    exact hrest (by simp [hsome]) ((htext.front _).back _).only _

theorem switchText_puts {discriminant : View} {cases : List (SwitchCase View)}
    (hdiscriminant : discriminant.Kept .expression)
    (hcases : ∀ c ∈ cases, AllHold View.Kept c.slots) :
    Puts e.options.runtimeModule (e.switchText discriminant cases)
      (e'.switchText discriminant cases)
      (w discriminant + (cases.map fun c ↦ total w c.slots).sum) := by
  refine (condition_puts h hdiscriminant).bind ?_
  rintro text text' _ ⟨rfl, htext⟩
  refine (Accounts.indented (.mapM fun c hc ↦ caseText_puts h (hcases c hc))).bind ?_
  rintro lines lines' _ ⟨rfl, hlines⟩
  refine .after .pad fun _ _ ↦ .text (by rw [zero_add]) ?_
  rw [zero_add]
  exact ((htext.front _).back _).add hlines.flatten |>.back _ |>.back _

/-! ## Exports -/

theorem exportDeclaration_puts {declaration : View} (hdeclaration : declaration.Kept .statement) :
    Puts e.options.runtimeModule (e.exportDeclaration declaration)
      (e'.exportDeclaration declaration) (w declaration) := by
  unfold exportDeclaration
  rw [h.format]
  refine (h.statement hdeclaration).bind ?_
  rintro text text' _ ⟨rfl, htext⟩
  refine .ite (fun _ ↦ .text (zero_add _) (htext.front _).only) fun _ ↦ ?_
  exact .after .pad fun _ _ ↦ .text (zero_add _) (htext.back _).only

omit h in
theorem exportAssignments_puts (specifiers : List ExportSpecifier) (source : Bytes) :
    Puts e.options.runtimeModule (e.exportAssignments specifiers source)
      (e'.exportAssignments specifiers source) 0 :=
  .ite (fun _ ↦ .text rfl (.zero _)) fun _ ↦ .after .pad fun _ _ ↦ .text rfl (.zero _)

theorem exportDefault_puts {value : DefaultExport View} (hvalue : AllHold View.Kept value.slots) :
    Puts e.options.runtimeModule (e.exportDefault value) (e'.exportDefault value)
      (total w value.slots) := by
  unfold exportDefault
  rw [h.format]
  cases value with
  | expression value =>
    have hkept : value.Kept .expression := by simpa [DefaultExport.slots] using hvalue
    refine (h.value hkept).bind ?_
    rintro text text' _ ⟨rfl, htext⟩
    exact .text (by simp [DefaultExport.slots]) ((htext.front _).back _).only
  | declaration declaration =>
    have hkept : declaration.Kept .statement := by simpa [DefaultExport.slots] using hvalue
    rw [DefaultExport.slots, total_filled, List.map_singleton, List.sum_singleton]
    refine (h.statement hkept).bind ?_
    rintro text text' _ ⟨rfl, htext⟩
    refine .ite (fun _ ↦ .text (zero_add _) (htext.front _).only) fun _ ↦ ?_
    refine .ite (fun _ ↦ .text (zero_add _) ((htext.front _).back _).only) fun _ ↦ ?_
    refine .after .pad fun _ _ ↦ .text (zero_add _) ?_
    exact (htext.back _).back _ |>.back _ |>.back _ |>.back _ |>.only

/-! ## Blocks of statements -/

include hw

theorem componentBody_puts {c : Component View} (hsound : c.Sound)
    (hblock : ∀ block ∈ c.block, block.Kept .statement)
    (hvalue : ∀ value ∈ c.value, value.Kept .expression) :
    Puts e.options.runtimeModule (e.componentBody c) (e'.componentBody c)
      ((c.block.toList.map w).sum + (c.value.toList.map w).sum) := by
  unfold componentBody
  cases hblocked : c.block with
  | some block =>
    rw [hsound.body (by simp [hblocked])]
    simpa using braced_puts h hw (hblock block hblocked)
  | none =>
    cases hvalued : c.value with
    | some value => simpa using arrowBody_puts h (hvalue value hvalued)
    | none => exact .text rfl (.zero _)

theorem componentText_puts {c : Component View} (hsound : c.Sound)
    (hc : AllHold View.Kept c.slots) :
    Puts e.options.runtimeModule (e.componentText c) (e'.componentText c)
      (.calling {.wrapper c.registryKey} + total w c.slots) := by
  obtain ⟨hparams, hblock, hvalue⟩ := by simpa [Component.slots] using hc
  refine (Accounts.useRuntime (.wrapper c.registryKey)).bind ?_
  rintro _ _ _ rfl
  refine (signature_puts h hparams _ _).bind ?_
  rintro signature signature' _ ⟨rfl, hsignature⟩
  have hcall : (Account.calling {.wrapper c.registryKey}).In
      (bytes "return $REGISTRY.execute(" ++ Quoted.quoted c.registryKey) :=
    (Account.In.call (.wrapper c.registryKey)).front (bytes "return ")
  refine .bind (P := fun text done ↦
    done = (c.block.toList.map w).sum + (c.value.toList.map w).sum ∧
      (Account.calling {.wrapper c.registryKey} + done).In text) (.indented ?_) ?_
  · refine (componentBody_puts h hw hsound hblock hvalue).bind ?_
    rintro inner inner' _ ⟨rfl, hinner⟩
    refine (Accounts.line _ _).frame.mono ?_
    rintro out _ ⟨_, rfl, rfl, hout⟩
    rw [add_zero, zero_add]
    exact ⟨rfl, ((hcall.back _).back _ |>.back _).add hinner |>.back _ |>.mono hout⟩
  · rintro body body' _ ⟨rfl, hbody⟩
    refine .after .pad fun _ _ ↦ .text ?_ ?_
    · simp [Component.slots, add_assoc]
    · rw [zero_add, add_right_comm, add_comm]
      refine .back (.back (.back (.add ?_ hbody) _) _) _
      refine .back ?_ _
      unfold componentHead
      cases c.form with
      | keyword => exact (hsignature.front _).back _
      | functionDeclaration => exact (hsignature.front _).back _
      | functionExpression => exact (hsignature.front _).back _
      | arrow => exact (hsignature.front _).back _

theorem loopInit_puts {init : Option View} (hinit : ∀ view ∈ init, view.Kept .loopHead) :
    Puts e.options.runtimeModule (e.loopInit init) (e'.loopInit init) (init.toList.map w).sum := by
  cases init with
  | none => exact .text rfl (.zero _)
  | some init =>
    rw [Option.toList_some, List.map_singleton, List.sum_singleton]
    have hkept : init.Kept .loopHead := hinit init rfl
    cases init with
    | plain line column form =>
      obtain ⟨hstands, -, hslots⟩ := hkept.plain_parts
      rw [hw]
      cases form with
      | variableDeclaration keyword declarators isDeclare =>
        rw [Plain.slots, total_flatMap]
        exact variablesText_puts h (allHold_flatMap.mp hslots) _ _
      | expressionStatement inner =>
        rw [Plain.slots, total_filled, List.map_singleton, List.sum_singleton]
        exact h.value (by simpa [Plain.slots] using hslots)
      | _ => cases hstands
    | rendered line column form => cases form <;> cases hkept.rendered_parts.1

theorem ifElse_puts {line column : Nat} {test consequent : View} {alternate : Option View}
    (htest : test.Kept .expression) (hconsequent : consequent.Kept .statement)
    (halternate : ∀ view ∈ alternate,
      Puts e.options.runtimeModule (e.ifText view) (e'.ifText view) (w view)) :
    Puts e.options.runtimeModule (e.ifText (.plain line column (.ifElse test consequent alternate)))
      (e'.ifText (.plain line column (.ifElse test consequent alternate)))
      (w test + w consequent + (alternate.toList.map w).sum) := by
  rw [ifText, ifText]
  refine (condition_puts h htest).bind ?_
  rintro condition condition' _ ⟨rfl, hcondition⟩
  refine (braced_puts h hw hconsequent).bind ?_
  rintro body body' _ ⟨rfl, hbody⟩
  rw [zero_add]
  have hfront := ((hcondition.front (bytes "if (")).back (bytes ") ")).add hbody
  cases alternate with
  | none =>
    refine .text (by simp) ?_
    rw [List.append_nil]
    exact hfront
  | some view =>
    refine (halternate view rfl).bind ?_
    rintro rest rest' _ ⟨rfl, hrest⟩
    exact .text (by simp) (hfront.add (hrest.front _))

theorem ifText_puts {view : View} (hview : view.Kept .statement) :
    Puts e.options.runtimeModule (e.ifText view) (e'.ifText view) (w view) := by
  obtain ⟨hfits, hsound⟩ := hview
  generalize hplace : Place.statement = place at hfits
  -- a chain goes on in the branch of the condition before it
  induction hfits with
  | @plain place line column form hstands hfilled hparts ih =>
    subst hplace
    have hview : (View.plain line column form).Kept .statement :=
      ⟨.plain hstands hfilled hparts, hsound⟩
    cases form with
    | ifElse test consequent alternate =>
      have hslots := hview.plain_parts.2.2
      obtain ⟨htest, hconsequent, halternate⟩ := by simpa [Plain.slots] using hslots
      rw [hw]
      simp only [Plain.slots, total_append, total_filled, List.map_cons, List.map_nil,
        List.sum_cons, List.sum_nil, add_zero, ← add_assoc]
      refine ifElse_puts h hw htest hconsequent fun part hpart ↦ ?_
      refine ih .statement part ?_ (halternate part hpart).2 rfl
      simp [Plain.slots, filled, Option.mem_def.mp hpart]
    | _ =>
      rw [ifText, ifText]
      · exact braced_puts h hw hview
      all_goals simp
  | rendered hstands hfilled hparts =>
    subst hplace
    rw [ifText, ifText]
    · exact braced_puts h hw ⟨.rendered hstands hfilled hparts, hsound⟩
    all_goals simp

theorem forText_puts {init test update : Option View} {body : View}
    (hinit : ∀ view ∈ init, view.Kept .loopHead) (htest : ∀ view ∈ test, view.Kept .expression)
    (hupdate : ∀ view ∈ update, view.Kept .expression) (hbody : body.Kept .statement) :
    Puts e.options.runtimeModule (e.forText init test update body)
      (e'.forText init test update body)
      ((init.toList.map w).sum + (test.toList.map w).sum + (update.toList.map w).sum + w body) := by
  refine (loopInit_puts h hw hinit).bind ?_
  rintro init init' _ ⟨rfl, hinit⟩
  refine (loopPart_puts h htest).bind ?_
  rintro test test' _ ⟨rfl, htest⟩
  refine (loopPart_puts h hupdate).bind ?_
  rintro update update' _ ⟨rfl, hupdate⟩
  refine (braced_puts h hw hbody).bind ?_
  rintro body body' _ ⟨rfl, hbody⟩
  refine .text (by rw [zero_add]) ?_
  rw [zero_add]
  exact (((hinit.front _).back _).add htest |>.back _).add hupdate |>.back _ |>.add hbody

theorem forInText_puts {left right body : View} (hleft : left.Kept .loopHead)
    (hright : right.Kept .expression) (hbody : body.Kept .statement) (isOf isAwait : Bool) :
    Puts e.options.runtimeModule (e.forInText left right body isOf isAwait)
      (e'.forInText left right body isOf isAwait) (w left + w right + w body) := by
  refine (loopInit_puts h hw (by simpa using hleft)).bind ?_
  rintro left left' _ ⟨rfl, hleft⟩
  refine (h.value hright).bind ?_
  rintro right right' _ ⟨rfl, hright⟩
  refine (braced_puts h hw hbody).bind ?_
  rintro body body' _ ⟨rfl, hbody⟩
  refine .text (by simp) ?_
  rw [zero_add]
  exact ((hleft.front _).back _).add hright |>.back _ |>.add hbody

/-- A `finally` clause, behind the rest of its statement. -/
theorem finalizer_accounts {finalizer : Option View}
    (hfinalizer : ∀ part ∈ finalizer, part.Kept .statement) {done account : Account} {front : Bytes}
    (hdone : done + (finalizer.toList.map w).sum = account) (hfront : done.In front)
    (front' : Bytes) :
    Accounts e.options.runtimeModule done
      (do
        let finalizer ← match finalizer with
          | none => pure []
          | some finalizer => pure (bytes " finally " ++ (← e.braced finalizer))
        return front ++ finalizer)
      (do
        let finalizer ← match finalizer with
          | none => pure []
          | some finalizer => pure (bytes " finally " ++ (← e'.braced finalizer))
        return front' ++ finalizer)
      fun text done ↦ done = account ∧ account.In text := by
  cases finalizer with
  | none => exact .text (by simpa using hdone) (hfront.back _)
  | some finalizer =>
    refine (braced_puts h hw (hfinalizer finalizer rfl)).bind ?_
    rintro text text' _ ⟨rfl, htext⟩
    exact .text (by simpa using hdone) (hfront.add (htext.front _))

theorem tryText_puts {t : TryShape View} (hsound : t.handler = none → t.param = none)
    (ht : AllHold View.Kept t.slots) :
    Puts e.options.runtimeModule (e.tryText t) (e'.tryText t) (total w t.slots) := by
  simp only [TryShape.slots, allHold_append, allHold_filled, List.cons_append,
    List.forall_mem_cons, List.forall_mem_append, Option.mem_toList] at ht
  obtain ⟨⟨hblock, hhandler, hfinalizer⟩, hparam⟩ := ht
  unfold tryText
  refine (braced_puts h hw hblock).bind ?_
  rintro block block' _ ⟨rfl, hblock⟩
  rw [zero_add]
  have hfront := hblock.front (bytes "try ")
  cases hhandled : t.handler with
  | none =>
    refine finalizer_accounts h hw hfinalizer ?_ (hfront.back _) _
    simp [TryShape.slots, hhandled, hsound hhandled]
  | some handler =>
    have hbraced := braced_puts h hw (hhandler handler hhandled)
    cases hcaught : t.param with
    | none =>
      refine hbraced.bind ?_
      rintro body body' _ ⟨rfl, hbody⟩
      refine finalizer_accounts h hw hfinalizer ?_ (hfront.add (hbody.front _)) _
      simp [TryShape.slots, hhandled, hcaught, add_assoc]
    | some param =>
      refine (h.value (hparam param hcaught)).bind ?_
      rintro param param' _ ⟨rfl, hparam⟩
      refine hbraced.bind ?_
      rintro body body' _ ⟨rfl, hbody⟩
      refine finalizer_accounts h hw hfinalizer ?_ ?_ _
      · simp only [TryShape.slots, hhandled, hcaught, total_append, total_filled, List.map_append,
          List.map_cons, List.sum_append, List.sum_cons, Option.toList_some, List.cons_append,
          List.map_nil, List.sum_nil]
        abel
      · rw [add_assoc]
        exact hfront.add (((hparam.front _).back _ |>.back _).front _ |>.add hbody)

/-! ## All statements -/

theorem plainStatement_puts {line column : Nat} {form : Plain View} (hform : form.stands .statement)
    (hsound : form.Sound) (hslots : AllHold View.Kept form.slots) :
    Puts e.options.runtimeModule (e.plainStatement (.plain line column form) form)
      (e'.plainStatement (.plain line column form) form) (total w form.slots) := by
  cases form with
  | imports | typeAlias | jump | empty | debugger | exportAll => exact .text rfl (.zero _)
  | exportNamed declaration specifiers source typeOnly =>
    cases declaration with
    | some declaration =>
      rw [Plain.slots, total_filled, Option.toList_some, List.map_singleton, List.sum_singleton]
      exact exportDeclaration_puts h (by simpa [Plain.slots] using hslots)
    | none =>
      unfold plainStatement
      rw [h.format]
      exact .ite (fun _ ↦ exportAssignments_puts specifiers source) fun _ ↦ .text rfl (.zero _)
  | exportDefault value => exact exportDefault_puts h hslots
  | functionDeclaration f isDeclare =>
    refine (callableText_puts h hw hslots isDeclare).bind ?_
    rintro text text' _ ⟨rfl, htext⟩
    exact .text (zero_add _) (htext.back _).only
  | classDeclaration c => exact classText_puts h hw hsound hslots false
  | enum name members isConst isDeclare =>
    rw [Plain.slots, total_flatMap]
    simp only [total_filled]
    refine enumText_puts h (fun m hm ↦ ?_) name isConst isDeclare
    simpa using allHold_flatMap.mp hslots m hm
  | module keyword name body isDeclare =>
    rw [Plain.slots, total_filled]
    exact namespaceText_puts h (allHold_filled.mp hslots) keyword name isDeclare
  | interface name typeParameters extended members isDeclare =>
    exact interfaceText_puts name typeParameters extended members isDeclare
  | variableDeclaration keyword declarators isDeclare =>
    rw [Plain.slots, total_flatMap]
    refine (variablesText_puts h (allHold_flatMap.mp hslots) keyword isDeclare).bind ?_
    rintro text text' _ ⟨rfl, htext⟩
    exact .text (zero_add _) (htext.back _).only
  | block body =>
    rw [Plain.slots, total_filled]
    exact bracedOf_puts h (allHold_filled.mp hslots)
  | expressionStatement inner =>
    simp only [Plain.slots, allHold_filled, List.forall_mem_singleton] at hslots
    rw [Plain.slots, total_filled, List.map_singleton, List.sum_singleton]
    refine wrapped_puts h hslots fun text ↦ ?_
    unfold guardStatement
    extract_lets isAmbiguous
    split
    · exact List.infix_append _ _ _
    · exact (List.prefix_append _ _).isInfix
  | throw argument =>
    simp only [Plain.slots, allHold_filled, List.forall_mem_singleton] at hslots
    rw [Plain.slots, total_filled, List.map_singleton, List.sum_singleton]
    exact wrapped_puts h hslots fun text ↦ List.infix_append _ _ _
  | ifElse test consequent alternate =>
    obtain ⟨htest, hconsequent, halternate⟩ := by simpa [Plain.slots] using hslots
    simp only [Plain.slots, total_append, total_filled, List.map_cons, List.map_nil,
      List.sum_cons, List.sum_nil, add_zero, ← add_assoc]
    exact ifElse_puts h hw htest hconsequent fun view hview ↦
      ifText_puts h hw (halternate view hview)
  | switch discriminant cases =>
    obtain ⟨hdiscriminant, hcases⟩ := by simpa [Plain.slots] using hslots
    rw [Plain.slots, total_append, total_filled, total_flatMap, List.map_singleton,
      List.sum_singleton]
    exact switchText_puts h hdiscriminant hcases
  | forLoop init test update body =>
    simp only [Plain.slots, allHold_append, allHold_filled, List.forall_mem_append,
      Option.mem_toList, List.forall_mem_singleton] at hslots
    obtain ⟨⟨hinit, htest, hupdate⟩, hbody⟩ := hslots
    simp only [Plain.slots, total_append, total_filled, List.map_append, List.sum_append,
      List.map_singleton, List.sum_singleton, ← add_assoc]
    exact forText_puts h hw hinit htest hupdate hbody
  | forIn left right body isOf isAwait =>
    obtain ⟨hleft, hright, hbody⟩ := by simpa [Plain.slots] using hslots
    simp only [Plain.slots, total_append, total_filled, List.map_singleton, List.sum_singleton]
    exact forInText_puts h hw hleft hright hbody isOf isAwait
  | whileLoop test body =>
    obtain ⟨htest, hbody⟩ := by simpa [Plain.slots] using hslots
    refine (condition_puts h htest).bind ?_
    rintro test test' _ ⟨rfl, htest⟩
    refine (braced_puts h hw hbody).bind ?_
    rintro body body' _ ⟨rfl, hbody⟩
    refine .text (by simp [Plain.slots]) ?_
    rw [zero_add]
    exact ((htest.front _).back _).add hbody
  | doWhile body test =>
    obtain ⟨hbody, htest⟩ := by simpa [Plain.slots] using hslots
    refine (braced_puts h hw hbody).bind ?_
    rintro body body' _ ⟨rfl, hbody⟩
    refine (condition_puts h htest).bind ?_
    rintro test test' _ ⟨rfl, htest⟩
    refine .text (by simp [Plain.slots]) ?_
    rw [zero_add]
    exact ((hbody.front _).back _).add htest |>.back _
  | returnValue argument =>
    cases argument with
    | none => exact .text rfl (.zero _)
    | some argument =>
      rw [Plain.slots, total_filled, Option.toList_some, List.map_singleton, List.sum_singleton]
      exact wrapped_puts h (by simpa [Plain.slots] using hslots) fun text ↦ List.infix_append _ _ _
  | tryCatch t => exact tryText_puts h hw hsound hslots
  | labeled label body =>
    rw [Plain.slots, total_filled, List.map_singleton, List.sum_singleton]
    refine (h.statement (by simpa [Plain.slots] using hslots)).bind ?_
    rintro text text' _ ⟨rfl, htext⟩
    exact .text (zero_add _) (htext.front _).only
  | _ => cases hform

omit hw in
/-- Markup hands on each of its parts once. -/
theorem expressionStep_markup {line column : Nat} {form : Rendered View} (hmarkup : form.isMarkup)
    (hview : (View.rendered line column form).Kept .expression) :
    Puts e.options.runtimeModule (e.expressionStep (.rendered line column form))
      (e'.expressionStep (.rendered line column form))
      (.calling (View.rendered line column form).calls + (form.handed.map w).sum) := by
  obtain ⟨-, hsound, hslots⟩ := hview.rendered_parts
  cases form with
  | component | classValue => cases hmarkup
  | element element => exact elementText_puts h hsound hslots
  | componentCall name props children =>
    obtain ⟨hprops, hchildren⟩ := by simpa [Rendered.slots] using hslots
    simp only [View.calls, map_zero, zero_add]
    exact callText_puts h hprops hchildren name
  | fragment children => exact fragmentText_puts h (allHold_filled.mp hslots)
  | text value => exact .text rfl (.zero _)
  | child classification inner =>
    simp only [View.calls, map_zero, zero_add, Rendered.handed, List.map_singleton,
      List.sum_singleton]
    exact h.value (by simpa [Rendered.slots] using hslots)

theorem statementStep_puts {view : View} (hview : view.Kept .statement) :
    Puts e.options.runtimeModule (e.statementStep view) (e'.statementStep view)
      (.calling view.calls + total w view.slots) := by
  cases view with
  | plain line column form =>
    obtain ⟨hstands, hsound, hslots⟩ := hview.plain_parts
    simp only [View.calls, map_zero, zero_add]
    exact plainStatement_puts h hw hstands hsound hslots
  | rendered line column form =>
    obtain ⟨hstands, hsound, hslots⟩ := hview.rendered_parts
    cases form with
    | component c => exact componentText_puts h hw hsound hslots
    | _ => cases hstands

end Accounted

end Emission

end SignalView
