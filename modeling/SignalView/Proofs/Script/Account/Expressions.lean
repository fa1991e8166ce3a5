import SignalView.Proofs.Script.Account.Markup

/-!
# What writing plain expressions accounts for

Every part of a plain construct is written once, so the construct accounts for what its parts come
to. A name that is a key is written without an entry point, and it comes to nothing; so is a block,
whose statements come to what it comes to.
-/

namespace SignalView

open EmitState Slot

namespace Emission

open Emit

section Accounted

variable {w : View → Account} {e e' : Emission} (h : AccountsFor w e e') (hw : View.Additive w)

include h

/-! ## Lists and blocks -/

theorem statementLines_puts {views : List View} (hviews : ∀ view ∈ views, view.Kept .statement) :
    Puts e.options.runtimeModule (e.statementLines views) (e'.statementLines views)
      (views.map w).sum := by
  refine (Accounts.mapM (w := w) fun view hview ↦
    (h.statement (hviews view hview)).bind ?_).bind ?_
  · rintro text text' _ ⟨rfl, htext⟩
    exact .lastLine (zero_add _) htext.only _
  · rintro texts texts' _ ⟨rfl, htexts⟩
    exact .text (zero_add _) htexts.flatten.only

omit h in
theorem blockStatements_kept {body : View} (hbody : body.Kept .statement) :
    ∀ view ∈ blockStatements body, view.Kept .statement := by
  unfold blockStatements
  split
  · exact allHold_filled.mp hbody.plain_parts.2.2
  · simpa using hbody

omit h in
theorem sum_blockStatements (hw : View.Additive w) (body : View) :
    ((blockStatements body).map w).sum = w body := by
  unfold blockStatements
  split
  · simp [hw _ _ _, Plain.slots]
  · simp

theorem bracedOf_puts {body : View} (hbody : ∀ view ∈ blockStatements body, view.Kept .statement) :
    Puts e.options.runtimeModule (e.braced body) (e'.braced body)
      ((blockStatements body).map w).sum := by
  refine (statementLines_puts h hbody).indented.bind ?_
  rintro lines lines' _ ⟨rfl, hlines⟩
  exact .after .pad fun _ _ ↦ .text (zero_add _) ((hlines.front _).back _ |>.back _).only

include hw in
theorem braced_puts {body : View} (hbody : body.Kept .statement) :
    Puts e.options.runtimeModule (e.braced body) (e'.braced body) (w body) := by
  rw [← sum_blockStatements hw body]
  exact bracedOf_puts h (blockStatements_kept hbody)

theorem decorators_puts {views : List View} (hviews : ∀ view ∈ views, view.Kept .expression)
    (separator separator' : Bytes) :
    Puts e.options.runtimeModule (e.decorators separator views) (e'.decorators separator' views)
      (views.map w).sum := by
  refine (Accounts.mapM (w := w) fun view hview ↦ (h.value (hviews view hview)).bind ?_).bind ?_
  · rintro text text' _ ⟨rfl, htext⟩
    exact .text (zero_add _) ((htext.front _).back _).only
  · rintro texts texts' _ ⟨rfl, htexts⟩
    exact .text (zero_add _) htexts.flatten.only

theorem initial_puts {value : Option View} (hvalue : ∀ part ∈ value, part.Kept .expression) :
    Puts e.options.runtimeModule (e.initial value) (e'.initial value)
      (value.toList.map w).sum := by
  cases value with
  | none => exact .text rfl (.zero _)
  | some value =>
    rw [Option.toList_some, List.map_singleton, List.sum_singleton]
    refine (h.value (hvalue value rfl)).bind ?_
    rintro text text' _ ⟨rfl, htext⟩
    exact .text (zero_add _) (htext.front _).only

/-! ## Functions -/

theorem param_puts {p : Param View} (hp : AllHold View.Kept p.slots) :
    Puts e.options.runtimeModule (e.param p) (e'.param p) (total w p.slots) := by
  obtain ⟨hdecorators, ⟨-, hpattern⟩, hinitial⟩ := by simpa [Param.slots] using hp
  refine (decorators_puts h hdecorators _ _).bind ?_
  rintro decorators decorators' _ ⟨rfl, hdecorators⟩
  refine (optionalExpression_puts h hpattern).bind ?_
  rintro pattern pattern' _ ⟨rfl, hpattern⟩
  refine (initial_puts h hinitial).bind ?_
  rintro initial initial' _ ⟨rfl, hinitial⟩
  refine .text (by simp [Param.slots, add_assoc]) ?_
  rw [zero_add]
  exact ((hdecorators.back _).back _).add hpattern |>.back _ |>.back _ |>.add hinitial

theorem signature_puts {params : List (Param View)}
    (hparams : ∀ p ∈ params, AllHold View.Kept p.slots) (typeParameters returnType : Bytes) :
    Puts e.options.runtimeModule (e.signature typeParameters params returnType)
      (e'.signature typeParameters params returnType)
      (params.map fun p ↦ total w p.slots).sum := by
  refine (Accounts.mapM fun p hp ↦ param_puts h (hparams p hp)).bind ?_
  rintro texts texts' _ ⟨rfl, htexts⟩
  exact .text (zero_add _) (((htexts.join _).front _).back _ |>.back _).only

include hw

theorem bodyText_puts {body : Option View} (hbody : ∀ block ∈ body, block.Kept .statement)
    (missing : String) :
    Puts e.options.runtimeModule (e.bodyText missing body) (e'.bodyText missing body)
      (body.toList.map w).sum := by
  cases body with
  | none => exact .text rfl (.zero _)
  | some body =>
    rw [Option.toList_some, List.map_singleton, List.sum_singleton]
    refine (braced_puts h hw (hbody body rfl)).bind ?_
    rintro text text' _ ⟨rfl, htext⟩
    exact .text (zero_add _) (htext.front _).only

theorem callableText_puts {f : Callable View} (hf : AllHold View.Kept f.slots)
    (isDeclare : Bool) :
    Puts e.options.runtimeModule (e.callableText f isDeclare) (e'.callableText f isDeclare)
      (total w f.slots) := by
  obtain ⟨hparams, hbody⟩ := by simpa [Callable.slots] using hf
  refine (signature_puts h hparams _ _).bind ?_
  rintro signature signature' _ ⟨rfl, hsignature⟩
  refine (bodyText_puts h hw hbody "").bind ?_
  rintro body body' _ ⟨rfl, hbody⟩
  refine .text (by simp [Callable.slots]) ?_
  rw [zero_add]
  exact (hsignature.front _).add hbody

theorem arrowText_puts {f : Arrow View} (hf : AllHold View.Kept f.slots) :
    Puts e.options.runtimeModule (e.arrowText f) (e'.arrowText f) (total w f.slots) := by
  obtain ⟨hparams, hbody⟩ := by simpa [Arrow.slots] using hf
  refine (signature_puts h hparams _ _).bind ?_
  rintro signature signature' _ ⟨rfl, hsignature⟩
  cases hform : f.body with
  | block body =>
    rw [hform] at hbody
    refine (braced_puts h hw (by simpa [ArrowBody.slots] using hbody)).bind ?_
    rintro text text' _ ⟨rfl, htext⟩
    refine .text (by simp [Arrow.slots, hform, ArrowBody.slots]) ?_
    rw [zero_add]
    exact ((hsignature.front _).back _).add htext
  | expression value =>
    rw [hform] at hbody
    refine (arrowBody_puts h (by simpa [ArrowBody.slots] using hbody)).bind ?_
    rintro text text' _ ⟨rfl, htext⟩
    refine .text (by simp [Arrow.slots, hform, ArrowBody.slots]) ?_
    rw [zero_add]
    exact ((hsignature.front _).back _).add htext

/-! ## Objects and classes -/

omit h in
/-- A key that is not computed comes to nothing. -/
theorem account_of_name {key : View} (hname : key.name?.isSome) : w key = 0 := by
  unfold View.name? at hname
  split at hname
  · simp [hw _ _ _, Plain.slots]
  · cases hname

theorem keyText_puts {computed : Bool} {key : Option View}
    (hkey : ∀ part ∈ key, part.Kept (keyPlace computed)) :
    Puts e.options.runtimeModule (e.keyText computed key) (e'.keyText computed key)
      (key.toList.map w).sum := by
  refine .ite (fun hcomputed ↦ ?_) fun hcomputed ↦ ?_
  · rw [keyPlace, if_pos hcomputed] at hkey
    refine (optionalExpression_puts h hkey).bind ?_
    rintro text text' _ ⟨rfl, htext⟩
    exact .text (zero_add _) ((htext.front _).back _).only
  · rw [keyPlace, if_neg hcomputed] at hkey
    cases key with
    | none => exact .text rfl (.zero _)
    | some key =>
      rw [Option.toList_some, List.map_singleton, List.sum_singleton]
      rw [Option.bind_some]
      cases hname : key.name? with
      | some name =>
        rw [account_of_name hw (by simp [hname])]
        exact .text rfl (.zero _)
      | none => exact h.expression (hkey key rfl) (.inr rfl)

omit h hw in
/-- A method holds a function, if it holds anything. -/
theorem heldFunction_cases {value : Option View} (hvalue : ∀ part ∈ value, part.Kept .function) :
    value = none ∨ ∃ line column f, value = some (.plain line column (.function f)) ∧
      AllHold View.Kept f.slots := by
  cases value with
  | none => exact .inl rfl
  | some value =>
    right
    have hkept : value.Kept .function := hvalue value rfl
    cases value with
    | plain line column form =>
      obtain ⟨hstands, -, hslots⟩ := hkept.plain_parts
      obtain ⟨f, rfl⟩ := Plain.eq_function_of_stands hstands
      exact ⟨line, column, f, rfl, hslots⟩
    | rendered line column form => cases form <;> cases hkept.rendered_parts.1

omit h in
/-- A default is the only part of a pattern that binds a name. -/
theorem account_of_default {key : Bytes} {value initial : View}
    (hdefault : defaultOf? key value = some initial) (hvalue : value.Kept .expression) :
    w value = w initial ∧ initial.Kept .expression := by
  unfold defaultOf? at hdefault
  split at hdefault
  · next line column target initial =>
    split at hdefault
    · next hname =>
      cases hdefault
      have hslots := hvalue.plain_parts.2.2
      simp only [Plain.slots, allHold_filled, List.forall_mem_cons] at hslots
      have htarget : w target = 0 := account_of_name hw (by rw [beq_iff_eq.mp hname]; rfl)
      exact ⟨by simp [hw _ _ _, Plain.slots, htarget], hslots.2.1⟩
    · cases hdefault
  · cases hdefault

theorem shorthandText_puts {value : Option View} (hvalue : ∀ part ∈ value, part.Kept .expression)
    (key : Bytes) :
    Puts e.options.runtimeModule (e.shorthandText key value) (e'.shorthandText key value)
      (value.toList.map w).sum := by
  cases value with
  | none => exact .text rfl (.zero _)
  | some value =>
    rw [Option.toList_some, List.map_singleton, List.sum_singleton]
    have hkept : value.Kept .expression := hvalue value rfl
    refine .ite (fun hname ↦ ?_) fun _ ↦ ?_
    · rw [account_of_name hw (by rw [beq_iff_eq.mp hname]; rfl)]
      exact .text rfl (.zero _)
    · split
      · next initial hdefault =>
        obtain ⟨haccount, hinitial⟩ := account_of_default hw hdefault hkept
        rw [haccount]
        refine (h.value hinitial).bind ?_
        rintro text text' _ ⟨rfl, htext⟩
        exact .text (zero_add _) (htext.front _).only
      · refine (h.value hkept).bind ?_
        rintro text text' _ ⟨rfl, htext⟩
        exact .text (zero_add _) (htext.front _).only

theorem methodText_puts {p : Property View} (hkey : ∀ key ∈ p.key, key.Kept (keyPlace p.computed))
    (hvalue : ∀ value ∈ p.value, value.Kept .function) (lead : String) :
    Puts e.options.runtimeModule (e.methodText lead p) (e'.methodText lead p)
      (total w p.slots) := by
  refine (keyText_puts h hw hkey).bind ?_
  rintro key key' _ ⟨rfl, hkey⟩
  obtain hnone | ⟨line, column, f, hsome, hf⟩ := heldFunction_cases hvalue
  · simp only [hnone, heldFunction?]
    refine .text (by simp [Property.slots, hnone]) ?_
    rw [zero_add, List.append_nil]
    exact hkey.front _
  · simp only [hsome, heldFunction?]
    obtain ⟨hparams, hbody⟩ := by simpa [Callable.slots] using hf
    refine (signature_puts h hparams _ _).bind ?_
    rintro signature signature' _ ⟨rfl, hsignature⟩
    refine (bodyText_puts h hw hbody _).bind ?_
    rintro body body' _ ⟨rfl, hbody⟩
    refine .text ?_ ?_
    · simp [Property.slots, hsome, hw _ _ _, Plain.slots, Callable.slots, add_assoc]
    · rw [zero_add, add_assoc]
      exact (hkey.front _).add (hsignature.add hbody)

theorem propertyText_puts {p : Property View} (hsound : p.Sound) (hp : AllHold View.Kept p.slots) :
    Puts e.options.runtimeModule (e.propertyText p) (e'.propertyText p) (total w p.slots) := by
  obtain ⟨⟨-, hkey⟩, -, hvalue⟩ := by simpa [Property.slots] using hp
  unfold Property.Sound at hsound
  unfold propertyText
  cases hkind : p.kind <;>
    simp only [hkind, PropertyKind.valuePlace] at hvalue hsound ⊢
  case init =>
    refine (keyText_puts h hw hkey).bind ?_
    rintro key key' _ ⟨rfl, hkey⟩
    refine (optionalExpression_puts h hvalue).bind ?_
    rintro value value' _ ⟨rfl, hvalue⟩
    refine .text (by simp [Property.slots]) ?_
    rw [zero_add]
    exact (hkey.back _).add hvalue
  case shorthand =>
    obtain ⟨hcomputed, hnamed⟩ := hsound
    obtain ⟨name, hname⟩ := Option.isSome_iff_exists.mp hnamed
    have hkeyText (e : Emission) : e.keyText p.computed p.key = pure name := by
      simp [keyText, hcomputed, hname]
    have hnothing : (p.key.toList.map w).sum = 0 := by
      obtain ⟨key, hkey, hname⟩ := Option.bind_eq_some_iff.mp hname
      simp [hkey, account_of_name hw (Option.isSome_of_eq_some hname)]
    rw [hkeyText, hkeyText, Property.slots, total_append, total_held, total_held, hnothing,
      zero_add]
    exact shorthandText_puts h hw hvalue name
  case method => exact methodText_puts h hw hkey hvalue _
  case getter => exact methodText_puts h hw hkey hvalue _
  case setter => exact methodText_puts h hw hkey hvalue _
  case spread =>
    refine (optionalExpression_puts h hvalue).bind ?_
    rintro value value' _ ⟨rfl, hvalue⟩
    exact .text (by simp [Property.slots, hsound]) (hvalue.front _).only

theorem fieldText_puts {m : ClassMember View} (hkey : ∀ key ∈ m.key, key.Kept (keyPlace m.computed))
    (hvalue : ∀ value ∈ m.value, value.Kept .expression) :
    Puts e.options.runtimeModule (e.fieldText m) (e'.fieldText m)
      ((m.key.toList.map w).sum + (m.value.toList.map w).sum) := by
  refine (keyText_puts h hw hkey).bind ?_
  rintro key key' _ ⟨rfl, hkey⟩
  refine (initial_puts h hvalue).bind ?_
  rintro initial initial' _ ⟨rfl, hinitial⟩
  refine .text (by rw [zero_add]) ?_
  rw [zero_add]
  exact ((hkey.back _).back _ |>.back _ |>.add hinitial).back _

/-- The part of a member that is a function, from its key on. -/
def keyedFunctionText (e : Emission) (lead : String) (m : ClassMember View) (key : Bytes) :
    Emit Bytes := do
  let head := bytes lead ++ methodMarks (heldFunction? m.value) ++ key ++ when m.optional "?"
  match heldFunction? m.value with
  | none => return head ++ bytes "();"
  | some f =>
    let signature ← e.signature f.typeParameters f.params f.returnType
    return head ++ signature ++ (← e.bodyText ";" f.body)

theorem keyedFunctionText_puts {m : ClassMember View} {account : Account} {key : Bytes}
    (hvalue : ∀ value ∈ m.value, value.Kept .function) (lead : String) (key' : Bytes)
    (hkey : account.In key) :
    Accounts e.options.runtimeModule account (e.keyedFunctionText lead m key)
      (e'.keyedFunctionText lead m key') fun text done ↦
        done = account + (m.value.toList.map w).sum ∧
          (account + (m.value.toList.map w).sum).In text := by
  unfold keyedFunctionText
  obtain hnone | ⟨line, column, f, hsome, hf⟩ := heldFunction_cases hvalue
  · simp only [hnone, heldFunction?]
    exact .text (by simp) ((hkey.front _).back _ |>.back _)
  · simp only [hsome, heldFunction?]
    obtain ⟨hparams, hbody⟩ := by simpa [Callable.slots] using hf
    refine (signature_puts h hparams _ _).bind ?_
    rintro signature signature' _ ⟨rfl, hsignature⟩
    refine (bodyText_puts h hw hbody _).bind ?_
    rintro body body' _ ⟨rfl, hbody⟩
    refine .text ?_ ((((hkey.front _).back _).add hsignature).add hbody)
    simp [hw _ _ _, Plain.slots, Callable.slots, add_assoc]

theorem memberFunctionText_puts {m : ClassMember View}
    (hkey : ∀ key ∈ m.key, key.Kept (keyPlace m.computed))
    (hvalue : ∀ value ∈ m.value, value.Kept .function) (lead : String) :
    Puts e.options.runtimeModule (e.memberFunctionText lead m) (e'.memberFunctionText lead m)
      ((m.key.toList.map w).sum + (m.value.toList.map w).sum) := by
  refine .ite (fun _ ↦ (keyText_puts h hw hkey).bind ?_) fun hnone ↦ ?_
  · rintro key key' _ ⟨rfl, hkey⟩
    rw [zero_add]
    exact keyedFunctionText_puts h hw hvalue lead key' hkey
  · have hkeyless : m.key = none := by simpa using hnone
    refine .seq (P := fun key done ↦ done = (m.key.toList.map w).sum ∧
      (m.key.toList.map w).sum.In key) (.pure ⟨by simp [hkeyless], ?_⟩) ?_
    · rw [hkeyless]
      exact .zero _
    · rintro key key' _ ⟨rfl, hkey⟩
      exact keyedFunctionText_puts h hw hvalue lead key' hkey

theorem memberText_puts {m : ClassMember View} (hregular : m.Regular)
    (hm : AllHold View.Kept m.slots) :
    Puts e.options.runtimeModule (e.memberText m) (e'.memberText m) (total w m.slots) := by
  simp only [ClassMember.slots, allHold_append, allHold_held, allHold_filled] at hm
  obtain ⟨⟨⟨hdecorators, -, hkey⟩, -, hvalue⟩, -, hblock⟩ := hm
  refine (decorators_puts h hdecorators _ _).bind ?_
  rintro decorators decorators' _ ⟨rfl, hdecorators⟩
  rw [zero_add]
  -- the decorators and the words stand in front of what the kind has room for
  have hfront {rest : Account} {text : Bytes} (hrest : rest.In text) :
      ((m.decorators.map w).sum + rest).In (decorators ++ words m.modifiers ++ text) :=
    (hdecorators.back _).add hrest
  unfold ClassMember.Regular at hregular
  cases hkind : m.kind <;>
    simp only [hkind, MemberKind.valuePlace, MemberKind.isFunction, if_true, Bool.false_eq_true,
      if_false] at hvalue hregular ⊢
  case property =>
    refine (fieldText_puts h hw hkey hvalue).bind ?_
    rintro text text' _ ⟨rfl, htext⟩
    exact .text (by simp [ClassMember.slots, hregular]) (hfront htext)
  case indexSignature =>
    refine .text (by simp [ClassMember.slots, hregular]) ?_
    rw [List.append_assoc _ m.type, ← add_zero (List.sum _)]
    exact hfront (.zero _)
  case staticBlock =>
    cases hsome : m.block with
    | none =>
      refine .text (by simp [ClassMember.slots, hregular, hsome]) ?_
      exact (hdecorators.back _).back _ |>.back _
    | some block =>
      refine (braced_puts h hw (hblock block hsome)).bind ?_
      rintro text text' _ ⟨rfl, htext⟩
      exact .text (by simp [ClassMember.slots, hregular, hsome]) ((hdecorators.back _).back _
        |>.add htext)
  all_goals
    refine (memberFunctionText_puts h hw hkey hvalue _).bind ?_
    rintro text text' _ ⟨rfl, htext⟩
    exact .text (by simp [ClassMember.slots, hregular]) (hfront htext)

theorem memberLines_accounts {members : List (ClassMember View)}
    (hregular : ∀ m ∈ members, m.Regular) (hmembers : ∀ m ∈ members, AllHold View.Kept m.slots) :
    Accounts e.options.runtimeModule 0
      (indented (members.mapM fun m ↦ do e.line (← e.memberText m)))
      (indented (members.mapM fun m ↦ do e'.line (← e'.memberText m))) fun lines done ↦
        done = (members.map fun m ↦ total w m.slots).sum ∧
          (members.map fun m ↦ total w m.slots).sum.InSome lines := by
  refine .indented (.mapM fun m hm ↦ (memberText_puts h hw (hregular m hm) (hmembers m hm)).bind ?_)
  rintro text text' _ ⟨rfl, htext⟩
  exact .lastLine (zero_add _) htext.only _

/-- The members of a class, behind its head. -/
theorem classBody_accounts {members : List (ClassMember View)}
    (hregular : ∀ m ∈ members, m.Regular) (hmembers : ∀ m ∈ members, AllHold View.Kept m.slots)
    {done account : Account} {head : Bytes}
    (hdone : done + (members.map fun m ↦ total w m.slots).sum = account) (hhead : done.In head)
    (head' : Bytes) :
    Accounts e.options.runtimeModule done
      (do
        if members.isEmpty then return head ++ bytes " \x7b\x7d"
        let lines ← indented (members.mapM fun m ↦ do e.line (← e.memberText m))
        return head ++ bytes " \x7b\n" ++ lines.flatten ++ (← e.pad) ++ bytes "\x7d")
      (do
        if members.isEmpty then return head' ++ bytes " \x7b\x7d"
        let lines ← indented (members.mapM fun m ↦ do e'.line (← e'.memberText m))
        return head' ++ bytes " \x7b\n" ++ lines.flatten ++ (← e'.pad) ++ bytes "\x7d")
      fun text done ↦ done = account ∧ account.In text := by
  refine .ite (fun hnone ↦ ?_) fun _ ↦ (memberLines_accounts h hw hregular hmembers).bind ?_
  · rw [List.isEmpty_iff.mp hnone] at hdone
    exact .text (by simpa using hdone) (hhead.back _)
  · rintro lines lines' _ ⟨rfl, hlines⟩
    exact .after .pad fun _ _ ↦ .text hdone
      (((hhead.back _).add hlines.flatten).back _ |>.back _)

theorem classText_puts {c : ClassShape View} (hregular : ∀ m ∈ c.members, m.Regular)
    (hc : AllHold View.Kept c.slots) (isValue : Bool) :
    Puts e.options.runtimeModule (e.classText isValue c) (e'.classText isValue c)
      (total w c.slots) := by
  obtain ⟨hdecorators, hsuper, hmembers⟩ := by simpa [ClassShape.slots] using hc
  refine .ite (fun _ ↦ .after (.pure rfl) fun separator separator' ↦ ?_)
    fun _ ↦ .after .pad fun _ _ ↦ .after (.pure rfl) fun separator separator' ↦ ?_
  all_goals
    refine (decorators_puts h hdecorators separator separator').bind ?_
    rintro decorators decorators' _ ⟨rfl, hdecorators⟩
    rw [zero_add]
    cases hsome : c.superClass with
    | none =>
      refine .after (.pure rfl) fun parent parent' ↦
        classBody_accounts h hw hregular hmembers ?_ ?_ _
      · simp [ClassShape.slots, hsome]
      · exact (hdecorators.back _).back _ |>.back _ |>.back _ |>.back _ |>.back _ |>.back _
    | some view =>
      refine (h.value (hsuper view hsome)).bind ?_
      rintro parent parent' _ ⟨rfl, hparent⟩
      refine .seq (P := fun text done ↦ done = (c.decorators.map w).sum + w view ∧
        (w view).In text) (.pure ⟨rfl, (hparent.front _).back _⟩) ?_
      rintro text text' _ ⟨rfl, htext⟩
      refine classBody_accounts h hw hregular hmembers ?_ ?_ _
      · simp [ClassShape.slots, hsome, add_assoc]
      · exact (hdecorators.back _).back _ |>.back _ |>.back _ |>.back _ |>.add htext |>.back _

/-! ## All plain expressions -/

omit hw in
theorem templateParts_puts {holes : List View} (hholes : ∀ hole ∈ holes, hole.Kept .expression)
    {quasis : List Bytes} (hlength : holes.length ≤ quasis.length) :
    Puts e.options.runtimeModule (e.templateParts quasis holes) (e'.templateParts quasis holes)
      (holes.map w).sum := by
  induction quasis generalizing holes with
  | nil =>
    rw [List.eq_nil_of_length_eq_zero (Nat.le_zero.mp hlength)]
    exact .text rfl (.zero _)
  | cons quasi quasis ih =>
    cases holes with
    | nil =>
      refine (ih (by simp) (Nat.zero_le _)).bind ?_
      rintro text text' _ ⟨rfl, -⟩
      exact .text rfl (.zero _)
    | cons hole holes =>
      rw [List.forall_mem_cons] at hholes
      refine (h.value hholes.1).bind ?_
      rintro text text' _ ⟨rfl, htext⟩
      refine (ih hholes.2 (Nat.le_of_succ_le_succ hlength)).bind ?_
      rintro rest rest' _ ⟨rfl, hrest⟩
      refine .text (by rw [zero_add, List.map_cons, List.sum_cons]) ?_
      rw [zero_add]
      exact ((htext.front _).back _).add hrest

omit hw in
theorem infixed_puts {left right : View} (hleft : left.Kept .expression)
    (hright : right.Kept .expression) (op : Bytes) :
    Puts e.options.runtimeModule (e.infixed left op right) (e'.infixed left op right)
      (w left + w right) := by
  refine (h.value hleft).bind ?_
  rintro left left' _ ⟨rfl, hleft⟩
  refine (h.value hright).bind ?_
  rintro right right' _ ⟨rfl, hright⟩
  refine .text (by rw [zero_add]) ?_
  rw [zero_add]
  exact ((hleft.back _).back _ |>.back _).add hright

omit h hw in
theorem suffix_leadingText (op text : Bytes) : text <:+ leadingText op text := by
  unfold leadingText
  extract_lets isWord runsTogether
  split <;> exact List.suffix_append _ _

omit h hw in
/-- An operator stands in front of its operand or behind it. -/
theorem infix_leading (op text : Bytes) (leading : Bool) :
    text <:+: if leading then leadingText op text else text ++ op := by
  split
  · exact (suffix_leadingText op text).isInfix
  · exact (List.prefix_append text op).isInfix

omit hw in
/-- An expression with more text around it. -/
theorem wrapped_puts {inner : View} (hinner : inner.Kept .expression)
    {change change' : Bytes → Bytes} (hchange : ∀ text, text <:+: change text) :
    Puts e.options.runtimeModule (do return change (← e.expression inner))
      (do return change' (← e'.expression inner)) (w inner) := by
  refine (h.value hinner).bind ?_
  rintro text text' _ ⟨rfl, htext⟩
  exact .text (zero_add _) (htext.mono (hchange text)).only

theorem plainExpression_puts {view : View} {form : Plain View} (hform : form.isExpression)
    (hsound : form.Sound) (hslots : AllHold View.Kept form.slots) :
    Puts e.options.runtimeModule (e.plainExpression view form) (e'.plainExpression view form)
      (total w form.slots) := by
  cases form with
  | identifier | number | string | regex | boolean | null | this | super | omitted =>
    exact .text rfl (.zero _)
  | template quasis holes =>
    have hlength : quasis.length = holes.length + 1 := hsound
    rw [Plain.slots, total_filled]
    refine (templateParts_puts h (allHold_filled.mp hslots) (by omega)).bind ?_
    rintro text text' _ ⟨rfl, htext⟩
    exact .text (zero_add _) ((htext.front _).back _).only
  | array elements =>
    rw [Plain.slots, total_filled]
    refine (expressionList_puts h (allHold_filled.mp hslots)).bind ?_
    rintro text text' _ ⟨rfl, htext⟩
    exact .text (zero_add _) ((htext.front _).back _ |>.back _).only
  | sequence parts =>
    rw [Plain.slots, total_filled]
    exact expressionList_puts h (allHold_filled.mp hslots)
  | object properties =>
    rw [Plain.slots, total_flatMap]
    refine (Accounts.mapM fun p hp ↦
      propertyText_puts h hw (hsound p hp) (allHold_flatMap.mp hslots p hp)).bind ?_
    rintro texts texts' _ ⟨rfl, htexts⟩
    exact .text (zero_add _) htexts.bracedEntries.only
  | function f => exact callableText_puts h hw hslots false
  | arrow f => exact arrowText_puts h hw hslots
  | unary | await | spread | paren | cast | nonNull =>
    simp only [Plain.slots, allHold_filled, List.forall_mem_singleton] at hslots
    rw [Plain.slots, total_filled, List.map_singleton, List.sum_singleton]
    refine wrapped_puts h hslots fun text ↦ ?_
    first
    | exact infix_leading _ _ _
    | exact (List.suffix_append _ _).isInfix
    | exact List.infix_append _ _ _
    | exact (List.prefix_append _ _).isInfix
    | simp only [List.append_assoc, List.prefix_append, List.IsPrefix.isInfix]
  | binary | assignment | assignmentPattern =>
    simp only [Plain.slots, allHold_filled, List.forall_mem_cons] at hslots
    rw [Plain.slots, total_filled, List.map_cons, List.sum_cons, List.map_singleton,
      List.sum_singleton]
    exact infixed_puts h hslots.1 hslots.2.1 _
  | taggedTemplate tag args quasi =>
    simp only [Plain.slots, allHold_filled, List.forall_mem_cons] at hslots
    refine (h.value hslots.1).bind ?_
    rintro tag tag' _ ⟨rfl, htag⟩
    refine (h.value hslots.2.1).bind ?_
    rintro quasi quasi' _ ⟨rfl, hquasi⟩
    refine .text (by simp [Plain.slots]) ?_
    rw [zero_add]
    exact (htag.back _).add hquasi
  | yield argument delegate =>
    simp only [Plain.slots, allHold_filled, Option.mem_toList] at hslots
    cases argument with
    | none => exact .text rfl (.zero _)
    | some argument =>
      refine (h.value (hslots argument rfl)).bind ?_
      rintro text text' _ ⟨rfl, htext⟩
      exact .text (by simp [Plain.slots]) ((htext.front _).front _).only
  | conditional test consequent alternate =>
    simp only [Plain.slots, allHold_filled, List.forall_mem_cons] at hslots
    refine (h.value hslots.1).bind ?_
    rintro test test' _ ⟨rfl, htest⟩
    refine (h.value hslots.2.1).bind ?_
    rintro consequent consequent' _ ⟨rfl, hconsequent⟩
    refine (h.value hslots.2.2.1).bind ?_
    rintro alternate alternate' _ ⟨rfl, halternate⟩
    refine .text (by simp [Plain.slots, add_assoc]) ?_
    rw [zero_add]
    exact ((htest.back _).add hconsequent |>.back _).add halternate
  | call callee args values optional =>
    simp only [Plain.slots, allHold_filled, List.forall_mem_cons] at hslots
    refine (h.value hslots.1).bind ?_
    rintro callee callee' _ ⟨rfl, hcallee⟩
    refine (expressionList_puts h hslots.2).bind ?_
    rintro values values' _ ⟨rfl, hvalues⟩
    refine .text (by simp [Plain.slots]) ?_
    rw [zero_add]
    exact ((hcallee.back _).back _ |>.back _).add hvalues |>.back _
  | new callee args values =>
    simp only [Plain.slots, allHold_filled, List.forall_mem_cons] at hslots
    refine (h.value hslots.1).bind ?_
    rintro callee callee' _ ⟨rfl, hcallee⟩
    cases values with
    | none => exact .text (by simp [Plain.slots]) ((hcallee.front _).back _ |>.back _).only
    | some values =>
      refine (expressionList_puts h hslots.2).bind ?_
      rintro text text' _ ⟨rfl, htext⟩
      refine .text (by simp [Plain.slots]) ?_
      rw [zero_add]
      exact ((hcallee.front _).back _).add ((htext.front _).back _)
  | member receiver key optional =>
    simp only [Plain.slots, allHold_append, allHold_filled, List.forall_mem_singleton] at hslots
    refine (h.value hslots.1).bind ?_
    rintro receiver receiver' _ ⟨rfl, hreceiver⟩
    cases key with
    | named name =>
      exact .text (by simp [Plain.slots, MemberKey.slots]) ((hreceiver.back _).back _).only
    | computed index =>
      have hindex : index.Kept .expression := by simpa [MemberKey.slots] using hslots.2
      refine (h.value hindex).bind ?_
      rintro text text' _ ⟨rfl, htext⟩
      refine .text (by simp [Plain.slots, MemberKey.slots]) ?_
      rw [zero_add]
      exact ((hreceiver.back _).add htext).back _
  | _ => cases hform

end Accounted

end Emission

end SignalView
