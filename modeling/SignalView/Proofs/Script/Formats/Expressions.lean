import SignalView.Proofs.Script.Formats.Rules

/-!
# Plain expressions in two formats

No expression looks at the module format itself. So a construct is written alike when its parts are,
and the same when they are. Which parts are written does not depend on the texts of others: the key
of a shorthand is a name.
-/

namespace SignalView

open Slot

namespace Emission

open Emit

section Formats

variable {p : Prop} {e e' : Emission} (h : Parallel p e e')
include h

/-! ## Lists and blocks -/

theorem optionalExpression_alike {view : Option View} (hview : ∀ part ∈ view, part.Stable p) :
    Alike p (e.optionalExpression view) (e'.optionalExpression view) := by
  cases view with
  | none => exact .refl _
  | some view => exact h.expression (hview view rfl)

theorem expressionList_alike {views : List View} (hviews : ∀ view ∈ views, view.Stable p) :
    Alike p (e.expressionList views) (e'.expressionList views) :=
  (Alike.mapM fun view hview ↦ h.expression (hviews view hview)).bind fun texts texts' htexts ↦
    .pure fun hp ↦ by rw [htexts hp]

theorem statementLines_alike {views : List View} (hviews : ∀ view ∈ views, view.Stable p) :
    Alike p (e.statementLines views) (e'.statementLines views) := by
  refine Alike.bind (.mapM fun view hview ↦ ?_) fun lines lines' hlines ↦
    .pure fun hp ↦ by rw [hlines hp]
  exact (h.statement (hviews view hview)).bind fun text text' htext ↦ h.line htext

omit h in
theorem blockStatements_stable {body : View} (hbody : body.Stable p) :
    ∀ view ∈ blockStatements body, view.Stable p := by
  unfold blockStatements
  split
  · simpa [View.slots, Plain.slots] using (View.stable_iff.mp hbody).2
  · simpa using hbody

theorem braced_alike {body : View} (hbody : body.Stable p) :
    Alike p (e.braced body) (e'.braced body) := by
  refine (statementLines_alike h (blockStatements_stable hbody)).indented.bind fun _ _ hlines ↦ ?_
  exact h.pad.bind fun _ _ hmargin ↦ .pure fun hp ↦ by rw [hlines hp, hmargin hp]

theorem arrowBody_alike {body : View} (hbody : body.Stable p) :
    Alike p (e.arrowBody body) (e'.arrowBody body) := by
  unfold arrowBody
  split
  · exact braced_alike h hbody
  · exact (h.expression hbody).bind fun text text' htext ↦ .pure fun hp ↦ by rw [htext hp]

theorem decorators_alike {views : List View} (hviews : ∀ view ∈ views, view.Stable p)
    {separator separator' : Bytes} (hseparator : p → separator = separator') :
    Alike p (e.decorators separator views) (e'.decorators separator' views) := by
  refine Alike.bind (.mapM fun view hview ↦ ?_) fun texts texts' htexts ↦
    .pure fun hp ↦ by rw [htexts hp]
  exact (h.expression (hviews view hview)).bind fun text text' htext ↦
    .pure fun hp ↦ by rw [htext hp, hseparator hp]

theorem initial_alike {value : Option View} (hvalue : ∀ part ∈ value, part.Stable p) :
    Alike p (e.initial value) (e'.initial value) := by
  cases value with
  | none => exact .refl _
  | some value =>
    exact (h.expression (hvalue value rfl)).bind fun text text' htext ↦
      .pure fun hp ↦ by rw [htext hp]

/-! ## Functions -/

theorem param_alike {param : Param View} (hparts : ∀ part ∈ parts param.slots, part.Stable p) :
    Alike p (e.param param) (e'.param param) := by
  simp only [Param.slots, parts_append, parts_filled, parts_held, List.forall_mem_append,
    Option.mem_toList] at hparts
  obtain ⟨⟨hdecorators, hpattern⟩, hinitial⟩ := hparts
  refine (decorators_alike h hdecorators fun _ ↦ rfl).bind fun _ _ hdecorators ↦ ?_
  refine (optionalExpression_alike h hpattern).bind fun _ _ hpattern ↦ ?_
  refine (initial_alike h hinitial).bind fun _ _ hinitial ↦ ?_
  exact .pure fun hp ↦ by rw [hdecorators hp, hpattern hp, hinitial hp]

theorem signature_alike {params : List (Param View)}
    (hparams : ∀ param ∈ params, ∀ part ∈ parts param.slots, part.Stable p)
    (typeParameters returnType : Bytes) : Alike p (e.signature typeParameters params returnType)
      (e'.signature typeParameters params returnType) :=
  (Alike.mapM fun param hparam ↦ param_alike h (hparams param hparam)).bind fun _ _ htexts ↦
    .pure fun hp ↦ by rw [htexts hp]

theorem bodyText_alike {body : Option View} (hbody : ∀ part ∈ body, part.Stable p)
    (missing : String) : Alike p (e.bodyText missing body) (e'.bodyText missing body) := by
  cases body with
  | none => exact .refl _
  | some body =>
    exact (braced_alike h (hbody body rfl)).bind fun text text' htext ↦
      .pure fun hp ↦ by rw [htext hp]

omit h in
theorem callable_stable {f : Callable View} (hparts : ∀ part ∈ parts f.slots, part.Stable p) :
    (∀ param ∈ f.params, ∀ part ∈ parts param.slots, part.Stable p) ∧
      ∀ part ∈ f.body, part.Stable p := by
  simp only [Callable.slots, parts_append, parts_flatMap, parts_filled, List.forall_mem_append,
    List.mem_flatMap, Option.mem_toList, forall_exists_index, and_imp] at hparts
  exact ⟨fun param hparam part ↦ hparts.1 part param hparam, hparts.2⟩

theorem callableText_alike {f : Callable View} (hparts : ∀ part ∈ parts f.slots, part.Stable p)
    (isDeclare : Bool) :
    Alike p (e.callableText f isDeclare) (e'.callableText f isDeclare) := by
  obtain ⟨hparams, hbody⟩ := callable_stable hparts
  refine (signature_alike h hparams _ _).bind fun _ _ hsignature ↦ ?_
  refine (bodyText_alike h hbody "").bind fun _ _ hbody ↦ ?_
  exact .pure fun hp ↦ by rw [hsignature hp, hbody hp]

theorem arrowText_alike {f : Arrow View} (hparts : ∀ part ∈ parts f.slots, part.Stable p) :
    Alike p (e.arrowText f) (e'.arrowText f) := by
  simp only [Arrow.slots, parts_append, parts_flatMap, List.forall_mem_append,
    List.mem_flatMap, forall_exists_index, and_imp] at hparts
  obtain ⟨hparams, hbody⟩ := hparts
  refine (signature_alike h (fun param hparam part ↦ hparams part param hparam) _ _).bind
    fun _ _ hsignature ↦ ?_
  cases hnode : f.body with
  | block body =>
    simp only [hnode, ArrowBody.slots, parts_filled, List.forall_mem_singleton] at hbody
    exact (braced_alike h hbody).bind fun _ _ hbody ↦ .pure fun hp ↦ by
      rw [hsignature hp, hbody hp]
  | expression value =>
    simp only [hnode, ArrowBody.slots, parts_filled, List.forall_mem_singleton] at hbody
    exact (arrowBody_alike h hbody).bind fun _ _ hbody ↦ .pure fun hp ↦ by
      rw [hsignature hp, hbody hp]

/-! ## Objects -/

theorem keyText_alike {key : Option View} (hkey : ∀ part ∈ key, part.Stable p) (computed : Bool) :
    Alike p (e.keyText computed key) (e'.keyText computed key) := by
  refine .ite (fun _ ↦ ?_) fun _ ↦ ?_
  · exact (optionalExpression_alike h hkey).bind fun _ _ htext ↦ .pure fun hp ↦ by rw [htext hp]
  · split
    · exact .refl _
    · exact optionalExpression_alike h hkey

omit h in
theorem heldFunction_stable {value : Option View} {f : Callable View}
    (hvalue : ∀ part ∈ value, part.Stable p) (hf : heldFunction? value = some f) :
    ∀ part ∈ parts f.slots, part.Stable p := by
  unfold heldFunction? at hf
  split at hf
  · obtain rfl := Option.some.inj hf
    exact (View.stable_iff.mp (hvalue _ rfl)).2
  · cases hf

theorem shorthandText_alike {value : Option View} (hvalue : ∀ part ∈ value, part.Stable p)
    (key : Bytes) : Alike p (e.shorthandText key value) (e'.shorthandText key value) := by
  cases value with
  | none => exact .refl _
  | some value =>
    have hstable : value.Stable p := hvalue value rfl
    refine .ite (fun _ ↦ .refl _) fun _ ↦ ?_
    split
    · next initial hdefault =>
      have hinitial : initial.Stable p := by
        unfold defaultOf? at hdefault
        split at hdefault
        · split at hdefault
          · obtain rfl := Option.some.inj hdefault
            exact (View.stable_iff.mp hstable).2 _ (by simp [View.slots, Plain.slots])
          · cases hdefault
        · cases hdefault
      exact (h.expression hinitial).bind fun _ _ htext ↦ .pure fun hp ↦ by rw [htext hp]
    · exact (h.expression hstable).bind fun _ _ htext ↦ .pure fun hp ↦ by rw [htext hp]

theorem methodText_alike {property : Property View} (hkey : ∀ part ∈ property.key, part.Stable p)
    (hvalue : ∀ part ∈ property.value, part.Stable p) (lead : String) :
    Alike p (e.methodText lead property) (e'.methodText lead property) := by
  refine (keyText_alike h hkey property.computed).bind fun _ _ hkey ↦ ?_
  split
  · exact .pure fun hp ↦ by rw [hkey hp]
  · next f hf =>
    obtain ⟨hparams, hbody⟩ := callable_stable (heldFunction_stable hvalue hf)
    refine (signature_alike h hparams _ _).bind fun _ _ hsignature ↦ ?_
    refine (bodyText_alike h hbody " \x7b\x7d").bind fun _ _ hbody ↦ ?_
    exact .pure fun hp ↦ by rw [hkey hp, hsignature hp, hbody hp]

theorem propertyText_alike {property : Property View} (hsound : property.Sound)
    (hparts : ∀ part ∈ parts property.slots, part.Stable p) :
    Alike p (e.propertyText property) (e'.propertyText property) := by
  simp only [Property.slots, parts_append, parts_held, List.forall_mem_append,
    Option.mem_toList] at hparts
  obtain ⟨hkey, hvalue⟩ := hparts
  unfold propertyText
  cases hkind : property.kind with
  | init =>
    refine (keyText_alike h hkey property.computed).bind fun _ _ hkey ↦ ?_
    exact (optionalExpression_alike h hvalue).bind fun _ _ htext ↦
      .pure fun hp ↦ by rw [hkey hp, htext hp]
  | shorthand =>
    -- the key is a name, so the value is written in the same way for both formats
    simp only [Property.Sound, hkind] at hsound
    obtain ⟨hcomputed, hname⟩ := hsound
    obtain ⟨name, hname⟩ := Option.isSome_iff_exists.mp hname
    have hkeyText (e : Emission) : e.keyText property.computed property.key = pure name := by
      simp [keyText, hcomputed, hname]
    rw [hkeyText, hkeyText]
    exact shorthandText_alike h hvalue name
  | method => exact methodText_alike h hkey hvalue ""
  | getter => exact methodText_alike h hkey hvalue "get "
  | setter => exact methodText_alike h hkey hvalue "set "
  | spread =>
    exact (optionalExpression_alike h hvalue).bind fun _ _ htext ↦
      .pure fun hp ↦ by rw [htext hp]

/-! ## Classes -/

theorem fieldText_alike {m : ClassMember View} (hkey : ∀ part ∈ m.key, part.Stable p)
    (hvalue : ∀ part ∈ m.value, part.Stable p) : Alike p (e.fieldText m) (e'.fieldText m) :=
  (keyText_alike h hkey m.computed).bind fun _ _ hkey ↦
    (initial_alike h hvalue).bind fun _ _ hinitial ↦
      .pure fun hp ↦ by rw [hkey hp, hinitial hp]

theorem memberFunctionText_alike {m : ClassMember View} (hkey : ∀ part ∈ m.key, part.Stable p)
    (hvalue : ∀ part ∈ m.value, part.Stable p) (lead : String) :
    Alike p (e.memberFunctionText lead m) (e'.memberFunctionText lead m) := by
  refine .ite (fun _ ↦ (keyText_alike h hkey m.computed).bind fun _ _ hkey ↦ ?_)
    fun _ ↦ .bind (.refl _) fun _ _ hkey ↦ ?_
  all_goals
    split
    · exact .pure fun hp ↦ by rw [hkey hp]
    · next f hf =>
      obtain ⟨hparams, hbody⟩ := callable_stable (heldFunction_stable hvalue hf)
      refine (signature_alike h hparams _ _).bind fun _ _ hsignature ↦ ?_
      refine (bodyText_alike h hbody ";").bind fun _ _ hbody ↦ ?_
      exact .pure fun hp ↦ by rw [hkey hp, hsignature hp, hbody hp]

theorem memberText_alike {m : ClassMember View} (hparts : ∀ part ∈ parts m.slots, part.Stable p) :
    Alike p (e.memberText m) (e'.memberText m) := by
  simp only [ClassMember.slots, parts_append, parts_held, parts_filled, List.forall_mem_append,
    Option.mem_toList] at hparts
  obtain ⟨⟨⟨hdecorators, hkey⟩, hvalue⟩, hblock⟩ := hparts
  refine (decorators_alike h hdecorators fun _ ↦ rfl).bind fun _ _ hdecorators ↦ ?_
  cases m.kind with
  | staticBlock =>
    cases hsome : m.block with
    | none => exact .pure fun hp ↦ by rw [hdecorators hp]
    | some block =>
      exact (braced_alike h (hblock block hsome)).bind fun _ _ htext ↦
        .pure fun hp ↦ by rw [hdecorators hp, htext hp]
  | indexSignature => exact .pure fun hp ↦ by rw [hdecorators hp]
  | property =>
    exact (fieldText_alike h hkey hvalue).bind fun _ _ htext ↦
      .pure fun hp ↦ by rw [hdecorators hp, htext hp]
  | getter | setter | constructor | method =>
    exact (memberFunctionText_alike h hkey hvalue _).bind fun _ _ htext ↦
      .pure fun hp ↦ by rw [hdecorators hp, htext hp]

/-- The members of a class behind its head. -/
theorem membersText_alike {members : List (ClassMember View)}
    (hmembers : ∀ m ∈ members, ∀ part ∈ parts m.slots, part.Stable p) {head head' : Bytes}
    (hhead : p → head = head') :
    Alike p
      (if members.isEmpty then pure (head ++ bytes " \x7b\x7d")
      else do
        let lines ← indented (members.mapM fun m ↦ do e.line (← e.memberText m))
        return head ++ bytes " \x7b\n" ++ lines.flatten ++ (← e.pad) ++ bytes "\x7d")
      (if members.isEmpty then pure (head' ++ bytes " \x7b\x7d")
      else do
        let lines ← indented (members.mapM fun m ↦ do e'.line (← e'.memberText m))
        return head' ++ bytes " \x7b\n" ++ lines.flatten ++ (← e'.pad) ++ bytes "\x7d") := by
  refine .ite (fun _ ↦ .pure fun hp ↦ by rw [hhead hp]) fun _ ↦ ?_
  refine .bind (.indented (.mapM fun m hm ↦ (memberText_alike h (hmembers m hm)).bind
    fun _ _ htext ↦ h.line htext)) fun _ _ hlines ↦ ?_
  exact h.pad.bind fun _ _ hmargin ↦ .pure fun hp ↦ by rw [hhead hp, hlines hp, hmargin hp]

theorem classText_alike {c : ClassShape View} (hparts : ∀ part ∈ parts c.slots, part.Stable p)
    (isValue : Bool) : Alike p (e.classText isValue c) (e'.classText isValue c) := by
  simp only [ClassShape.slots, parts_append, parts_filled, parts_flatMap, List.forall_mem_append,
    Option.mem_toList, List.mem_flatMap, forall_exists_index, and_imp] at hparts
  obtain ⟨⟨hdecorators, hsuper⟩, hmembers⟩ := hparts
  refine .ite (fun _ ↦ .bind (.refl _) fun _ _ hseparator ↦ ?_)
    fun _ ↦ h.pad.bind fun _ _ hmargin ↦
      .bind (.pure fun hp ↦ by rw [hmargin hp]) fun _ _ hseparator ↦ ?_
  all_goals
    refine (decorators_alike h hdecorators hseparator).bind fun _ _ hdecorators ↦ ?_
    cases hparent : c.superClass with
    | none =>
      exact .bind (.refl _) fun _ _ hparent ↦
        membersText_alike h (fun m hm part ↦ hmembers part m hm) fun hp ↦ by
          rw [hdecorators hp, hparent hp]
    | some parent =>
      refine (h.expression (hsuper parent hparent)).bind fun _ _ htext ↦
        .bind (.pure fun hp ↦ by rw [htext hp]) fun _ _ hparent ↦ ?_
      exact membersText_alike h (fun m hm part ↦ hmembers part m hm) fun hp ↦ by
        rw [hdecorators hp, hparent hp]

/-! ## Templates and operators -/

theorem templateParts_alike {quasis : List Bytes} {holes : List View}
    (hholes : ∀ hole ∈ holes, hole.Stable p) :
    Alike p (e.templateParts quasis holes) (e'.templateParts quasis holes) := by
  induction quasis generalizing holes with
  | nil => exact .refl _
  | cons quasi quasis ih =>
    cases holes with
    | nil => exact (ih hholes).bind fun _ _ hrest ↦ .pure fun hp ↦ by rw [hrest hp]
    | cons hole holes =>
      rw [List.forall_mem_cons] at hholes
      refine (h.expression hholes.1).bind fun _ _ htext ↦ ?_
      exact (ih hholes.2).bind fun _ _ hrest ↦ .pure fun hp ↦ by rw [htext hp, hrest hp]

theorem memberAccess_alike {key : MemberKey View} (hkey : ∀ part ∈ parts key.slots, part.Stable p)
    {receiver receiver' : Bytes} (hreceiver : p → receiver = receiver') (optional : Bool) :
    Alike p (e.memberAccess receiver key optional) (e'.memberAccess receiver' key optional) := by
  cases key with
  | named name => exact .pure fun hp ↦ by rw [hreceiver hp]
  | computed index =>
    simp only [MemberKey.slots, parts_filled, List.forall_mem_singleton] at hkey
    exact (h.expression hkey).bind fun _ _ htext ↦
      .pure fun hp ↦ by rw [hreceiver hp, htext hp]

theorem infixed_alike {left right : View} (hleft : left.Stable p) (hright : right.Stable p)
    (op : Bytes) : Alike p (e.infixed left op right) (e'.infixed left op right) :=
  (h.expression hleft).bind fun _ _ hleft ↦ (h.expression hright).bind fun _ _ hright ↦
    .pure fun hp ↦ by rw [hleft hp, hright hp]

/-! ## All plain expressions -/

section Forms

variable {view : View}

theorem yield_alike {argument : Option View} (hargument : ∀ part ∈ argument, part.Stable p)
    (delegate : Bool) : Alike p (e.plainExpression view (.yield argument delegate))
      (e'.plainExpression view (.yield argument delegate)) := by
  cases argument with
  | none => exact .refl _
  | some argument =>
    exact (h.expression (hargument argument rfl)).bind fun _ _ htext ↦
      .pure fun hp ↦ by rw [htext hp]

theorem conditional_alike {test consequent alternate : View} (htest : test.Stable p)
    (hconsequent : consequent.Stable p) (halternate : alternate.Stable p) :
    Alike p (e.plainExpression view (.conditional test consequent alternate))
      (e'.plainExpression view (.conditional test consequent alternate)) := by
  refine (h.expression htest).bind fun _ _ htest ↦ ?_
  refine (h.expression hconsequent).bind fun _ _ hconsequent ↦ ?_
  exact (h.expression halternate).bind fun _ _ halternate ↦
    .pure fun hp ↦ by rw [htest hp, hconsequent hp, halternate hp]

theorem new_alike {callee : View} {args : List Bytes} {values : Option (List View)}
    (hcallee : callee.Stable p) (hvalues : ∀ value ∈ values.getD [], value.Stable p) :
    Alike p (e.plainExpression view (.new callee args values))
      (e'.plainExpression view (.new callee args values)) := by
  refine (h.expression hcallee).bind fun _ _ hcallee ↦ ?_
  cases values with
  | none => exact .pure fun hp ↦ by rw [hcallee hp]
  | some values =>
    exact (expressionList_alike h hvalues).bind fun _ _ hvalues ↦
      .pure fun hp ↦ by rw [hcallee hp, hvalues hp]

end Forms

theorem plainExpression_alike {line column : Nat} {form : Plain View}
    (hview : (View.plain line column form).Stable p) (view : View) :
    Alike p (e.plainExpression view form) (e'.plainExpression view form) := by
  obtain ⟨⟨hsound, -⟩, hparts⟩ := View.stable_iff.mp hview
  simp only [View.slots] at hparts
  cases form with
  | template quasis holes =>
    simp only [Plain.slots, parts_filled] at hparts
    exact (templateParts_alike h hparts).bind fun _ _ htext ↦ .pure fun hp ↦ by rw [htext hp]
  | taggedTemplate tag args quasi =>
    simp only [Plain.slots, parts_filled, List.forall_mem_cons] at hparts
    exact (h.expression hparts.1).bind fun _ _ htag ↦ (h.expression hparts.2.1).bind
      fun _ _ hquasi ↦ .pure fun hp ↦ by rw [htag hp, hquasi hp]
  | array elements =>
    simp only [Plain.slots, parts_filled] at hparts
    exact (expressionList_alike h hparts).bind fun _ _ htext ↦ .pure fun hp ↦ by rw [htext hp]
  | object properties =>
    simp only [Plain.slots, parts_flatMap, List.mem_flatMap, forall_exists_index,
      and_imp] at hparts
    exact .bind (.mapM fun property hproperty ↦ propertyText_alike h (hsound property hproperty)
      fun part ↦ hparts part property hproperty) fun _ _ htexts ↦
        .pure fun hp ↦ by rw [htexts hp]
  | function f => exact callableText_alike h hparts false
  | functionDeclaration f isDeclare => exact callableText_alike h hparts isDeclare
  | arrow f => exact arrowText_alike h hparts
  | classDeclaration c => exact classText_alike h hparts false
  | unary op operand leading =>
    simp only [Plain.slots, parts_filled, List.forall_mem_singleton] at hparts
    exact (h.expression hparts).bind fun _ _ htext ↦ .pure fun hp ↦ by rw [htext hp]
  | await inner | spread inner | paren inner | nonNull inner | cast inner _ _ =>
    simp only [Plain.slots, parts_filled, List.forall_mem_singleton] at hparts
    exact (h.expression hparts).bind fun _ _ htext ↦ .pure fun hp ↦ by rw [htext hp]
  | yield argument delegate =>
    simp only [Plain.slots, parts_filled, Option.mem_toList] at hparts
    exact yield_alike h hparts delegate
  | binary op left right | assignment op left right =>
    simp only [Plain.slots, parts_filled, List.forall_mem_cons] at hparts
    exact infixed_alike h hparts.1 hparts.2.1 op
  | assignmentPattern target initial =>
    simp only [Plain.slots, parts_filled, List.forall_mem_cons] at hparts
    exact infixed_alike h hparts.1 hparts.2.1 _
  | conditional test consequent alternate =>
    simp only [Plain.slots, parts_filled, List.forall_mem_cons] at hparts
    exact conditional_alike h hparts.1 hparts.2.1 hparts.2.2.1
  | call callee args values optional =>
    simp only [Plain.slots, parts_filled, List.forall_mem_cons] at hparts
    exact (h.expression hparts.1).bind fun _ _ hcallee ↦ (expressionList_alike h hparts.2).bind
      fun _ _ hvalues ↦ .pure fun hp ↦ by rw [hcallee hp, hvalues hp]
  | new callee args values =>
    simp only [Plain.slots, parts_filled, List.forall_mem_cons] at hparts
    exact new_alike h hparts.1 hparts.2
  | member receiver key optional =>
    simp only [Plain.slots, parts_append, parts_filled, List.forall_mem_append,
      List.forall_mem_singleton] at hparts
    exact (h.expression hparts.1).bind fun _ _ hreceiver ↦
      memberAccess_alike h hparts.2 hreceiver optional
  | sequence parts =>
    simp only [Plain.slots, parts_filled] at hparts
    exact expressionList_alike h hparts
  | _ => exact .refl _

end Formats

end Emission

end SignalView
