import SignalView.Proofs.Script.Rules

/-!
# Writing plain expressions

The parts of a construct are written by the entry points, one level deeper than the construct. Each
production writes what it is made of, so it gives a text wherever its parts stand in their places.
-/

namespace SignalView

open EmitState Slot

namespace Emission

open Emit

/-- Two groups of entry points write the same for what stands in its place, when its paths are no
longer than there are levels. -/
structure Serves (I : EmitState → Prop) (deep : Prop) (level : Nat) (e e' : Emission) : Prop where
  lasting : Lasting e.options.runtimeModule I
  options : e'.options = { e.options with maxDepth := e'.options.maxDepth }
  statement {view : View} (h : view.Placed deep level .statement) :
    Writes I deep (e.statement view) (e'.statement view)
  expression {place : Place} {view : View} (h : view.Placed deep level place)
    (hplace : place = .expression ∨ place = .key) :
    Writes I deep (e.expression view) (e'.expression view)

section Served

variable {I : EmitState → Prop} {deep : Prop} {n : Nat} {e e' : Emission}
  (h : Serves I deep n e e')

include h

namespace Serves

theorem value {view : View} (hview : view.Placed deep n .expression) :
    Writes I deep (e.expression view) (e'.expression view) := h.expression hview (.inl rfl)

theorem format : e'.options.format = e.options.format := by
  rw [h.options]

/-! ## Lines and what they need -/

theorem pad : Writes I deep e.pad e'.pad := by
  have hindent : e'.options.indent = e.options.indent := by rw [h.options]
  unfold Emission.pad
  rw [hindent]
  exact Writes.level.bind fun _ ↦ .pure

theorem line (text : Bytes) : Writes I deep (e.line text) (e'.line text) := h.pad.bind fun _ ↦ .pure

theorem useRuntime {name : Bytes} (hname : name ∈ helpers) :
    Writes I deep (e.useRuntime name) (e'.useRuntime name) := by
  have hruntime : e'.options.runtimeModule = e.options.runtimeModule := by rw [h.options]
  unfold Emission.useRuntime
  rw [hruntime]
  exact .modify fun _ hs ↦ h.lasting.helper hs hname

theorem temporary {label : String} (hlabel : label ∈ labels) :
    Writes I deep (Emit.temporary label) (Emit.temporary label) := .temporary h.lasting hlabel

end Serves

/-! ## Lists and blocks -/

theorem optionalExpression_writes {view : Option View}
    (hview : ∀ part ∈ view, part.Placed deep n .expression) :
    Writes I deep (e.optionalExpression view) (e'.optionalExpression view) := by
  cases view with
  | none => exact .pure
  | some view => exact h.value (hview view rfl)

theorem expressionList_writes {views : List View}
    (hviews : ∀ view ∈ views, view.Placed deep n .expression) :
    Writes I deep (e.expressionList views) (e'.expressionList views) :=
  (Writes.mapM fun view hview ↦ h.value (hviews view hview)).bind fun _ ↦ .pure

theorem statementLines_writes {views : List View}
    (hviews : ∀ view ∈ views, view.Placed deep n .statement) :
    Writes I deep (e.statementLines views) (e'.statementLines views) := by
  refine Writes.bind (.mapM fun view hview ↦ ?_) fun _ ↦ .pure
  exact (h.statement (hviews view hview)).bind fun text ↦ h.line text

omit h in
theorem blockStatements_placed {body : View} (hbody : body.Placed deep n .statement) :
    ∀ view ∈ blockStatements body, view.Placed deep n .statement := by
  unfold blockStatements
  split
  · exact allHold_filled.mp hbody.plain_slots
  · simpa using hbody

theorem bracedOf_writes {body : View}
    (hbody : ∀ view ∈ blockStatements body, view.Placed deep n .statement) :
    Writes I deep (e.braced body) (e'.braced body) := by
  refine .bind (.indented (statementLines_writes h hbody)) fun _ ↦ ?_
  exact h.pad.bind fun _ ↦ .pure

theorem braced_writes {body : View} (hbody : body.Placed deep n .statement) :
    Writes I deep (e.braced body) (e'.braced body) :=
  bracedOf_writes h (blockStatements_placed hbody)

theorem arrowBody_writes {body : View} (hbody : body.Placed deep n .expression) :
    Writes I deep (e.arrowBody body) (e'.arrowBody body) := by
  unfold arrowBody
  split
  · exact absurd hbody.plain_parts.1 Bool.false_ne_true
  · exact (h.value hbody).bind fun _ ↦ .pure

theorem decorators_writes {views : List View}
    (hviews : ∀ view ∈ views, view.Placed deep n .expression)
    (separator : Bytes) : Writes I deep (e.decorators separator views)
      (e'.decorators separator views) := by
  refine Writes.bind (.mapM fun view hview ↦ ?_) fun _ ↦ .pure
  exact (h.value (hviews view hview)).bind fun _ ↦ .pure

theorem initial_writes {value : Option View}
    (hvalue : ∀ part ∈ value, part.Placed deep n .expression) :
    Writes I deep (e.initial value) (e'.initial value) := by
  cases value with
  | none => exact .pure
  | some value => exact (h.value (hvalue value rfl)).bind fun _ ↦ .pure

/-! ## Functions -/

theorem param_writes {p : Param View} (hp : AllHold (View.Placed deep n) p.slots) :
    Writes I deep (e.param p) (e'.param p) := by
  obtain ⟨hdecorators, ⟨-, hpattern⟩, hinitial⟩ := by simpa [Param.slots] using hp
  refine (decorators_writes h hdecorators _).bind fun _ ↦ ?_
  refine (optionalExpression_writes h hpattern).bind fun _ ↦ ?_
  exact (initial_writes h hinitial).bind fun _ ↦ .pure

theorem signature_writes {params : List (Param View)}
    (hparams : ∀ p ∈ params, AllHold (View.Placed deep n) p.slots)
    (typeParameters returnType : Bytes) :
    Writes I deep (e.signature typeParameters params returnType)
      (e'.signature typeParameters params returnType) :=
  (Writes.mapM fun p hp ↦ param_writes h (hparams p hp)).bind fun _ ↦ .pure

theorem bodyText_writes {body : Option View}
    (hbody : ∀ block ∈ body, block.Placed deep n .statement)
    (missing : String) : Writes I deep (e.bodyText missing body) (e'.bodyText missing body) := by
  cases body with
  | none => exact .pure
  | some body => exact (braced_writes h (hbody body rfl)).bind fun _ ↦ .pure

theorem callableText_writes {f : Callable View} (hf : AllHold (View.Placed deep n) f.slots)
    (isDeclare : Bool) : Writes I deep (e.callableText f isDeclare)
      (e'.callableText f isDeclare) := by
  obtain ⟨hparams, hbody⟩ := by simpa [Callable.slots] using hf
  refine (signature_writes h hparams _ _).bind fun _ ↦ ?_
  exact (bodyText_writes h hbody "").bind fun _ ↦ .pure

theorem arrowText_writes {f : Arrow View} (hf : AllHold (View.Placed deep n) f.slots) :
    Writes I deep (e.arrowText f) (e'.arrowText f) := by
  obtain ⟨hparams, hbody⟩ := by simpa [Arrow.slots] using hf
  refine (signature_writes h hparams _ _).bind fun _ ↦ ?_
  cases hform : f.body with
  | block body =>
    rw [hform] at hbody
    exact (braced_writes h (by simpa [ArrowBody.slots] using hbody)).bind fun _ ↦ .pure
  | expression value =>
    rw [hform] at hbody
    exact (arrowBody_writes h (by simpa [ArrowBody.slots] using hbody)).bind fun _ ↦ .pure

/-! ## Objects and classes -/

theorem keyText_writes {computed : Bool} {key : Option View}
    (hkey : ∀ part ∈ key, part.Placed deep n (keyPlace computed)) :
    Writes I deep (e.keyText computed key) (e'.keyText computed key) := by
  refine .ite (fun hcomputed ↦ ?_) fun hcomputed ↦ ?_
  · rw [keyPlace, if_pos hcomputed] at hkey
    exact (optionalExpression_writes h hkey).bind fun _ ↦ .pure
  · rw [keyPlace, if_neg hcomputed] at hkey
    split
    · exact .pure
    · cases key with
      | none => exact .pure
      | some key => exact h.expression (hkey key rfl) (.inr rfl)

omit h in
/-- The function of a method keeps its slots. -/
theorem heldFunction_slots {value : Option View} {f : Callable View}
    (hvalue : ∀ part ∈ value, part.Placed deep n .function) (hf : heldFunction? value = some f) :
    (∀ p ∈ f.params, AllHold (View.Placed deep n) p.slots) ∧
      ∀ body ∈ f.body, body.Placed deep n .statement := by
  unfold heldFunction? at hf
  split at hf
  · cases hf
    have hslots := (hvalue _ rfl).plain_slots
    simpa [Plain.slots, Callable.slots] using hslots
  · cases hf

theorem shorthandText_writes {value : Option View}
    (hvalue : ∀ part ∈ value, part.Placed deep n .expression)
    (key : Bytes) : Writes I deep (e.shorthandText key value) (e'.shorthandText key value) := by
  cases value with
  | none => exact .pure
  | some value =>
    have hplaced : value.Placed deep n .expression := hvalue value rfl
    refine .ite (fun _ ↦ .pure) fun _ ↦ ?_
    split
    · next initial hdefault =>
      refine .bind (h.value ?_) fun _ ↦ .pure
      unfold defaultOf? at hdefault
      split at hdefault
      · split at hdefault
        · cases hdefault
          have hslots := hplaced.plain_slots
          simp only [Plain.slots, allHold_filled, List.forall_mem_cons] at hslots
          exact hslots.2.1
        · cases hdefault
      · cases hdefault
    · exact (h.value hplaced).bind fun _ ↦ .pure

theorem methodText_writes {p : Property View}
    (hkey : ∀ key ∈ p.key, key.Placed deep n (keyPlace p.computed))
    (hvalue : ∀ value ∈ p.value, value.Placed deep n .function) (lead : String) :
    Writes I deep (e.methodText lead p) (e'.methodText lead p) := by
  refine (keyText_writes h hkey).bind fun _ ↦ ?_
  split
  · exact .pure
  · next f hf =>
    obtain ⟨hparams, hbody⟩ := heldFunction_slots hvalue hf
    refine (signature_writes h hparams _ _).bind fun _ ↦ ?_
    exact (bodyText_writes h hbody _).bind fun _ ↦ .pure

theorem propertyText_writes {p : Property View} (hp : AllHold (View.Placed deep n) p.slots) :
    Writes I deep (e.propertyText p) (e'.propertyText p) := by
  simp only [Property.slots, allHold_append, allHold_held] at hp
  obtain ⟨⟨-, hkey⟩, -, hvalue⟩ := hp
  unfold propertyText
  cases hkind : p.kind <;> simp only [hkind, PropertyKind.valuePlace] at hvalue
  · refine (keyText_writes h hkey).bind fun _ ↦ ?_
    exact (optionalExpression_writes h hvalue).bind fun _ ↦ .pure
  · exact (keyText_writes h hkey).bind fun key ↦ shorthandText_writes h hvalue key
  · exact methodText_writes h hkey hvalue _
  · exact methodText_writes h hkey hvalue _
  · exact methodText_writes h hkey hvalue _
  · exact (optionalExpression_writes h hvalue).bind fun _ ↦ .pure

theorem memberFunctionText_writes {m : ClassMember View}
    (hkey : ∀ key ∈ m.key, key.Placed deep n (keyPlace m.computed))
    (hvalue : ∀ value ∈ m.value, value.Placed deep n .function) (lead : String) :
    Writes I deep (e.memberFunctionText lead m) (e'.memberFunctionText lead m) := by
  refine .ite (fun _ ↦ (keyText_writes h hkey).bind fun _ ↦ ?_) fun _ ↦ ?_
  all_goals
    split
    · exact .pure
    · next f hf =>
      obtain ⟨hparams, hbody⟩ := heldFunction_slots hvalue hf
      refine (signature_writes h hparams _ _).bind fun _ ↦ ?_
      exact (bodyText_writes h hbody _).bind fun _ ↦ .pure

theorem memberText_writes {m : ClassMember View} (hm : AllHold (View.Placed deep n) m.slots) :
    Writes I deep (e.memberText m) (e'.memberText m) := by
  simp only [ClassMember.slots, allHold_append, allHold_held, allHold_filled] at hm
  obtain ⟨⟨⟨hdecorators, -, hkey⟩, -, hvalue⟩, -, hblock⟩ := hm
  refine (decorators_writes h hdecorators _).bind fun _ ↦ ?_
  cases hkind : m.kind <;>
    simp only [hkind, MemberKind.valuePlace, MemberKind.isFunction, if_true, Bool.false_eq_true,
      if_false] at hvalue ⊢
  case property =>
    refine .bind ((keyText_writes h hkey).bind fun _ ↦ ?_) fun _ ↦ .pure
    exact (initial_writes h hvalue).bind fun _ ↦ .pure
  case indexSignature => exact .pure
  case staticBlock =>
    cases hsome : m.block with
    | none => exact .pure
    | some block => exact (braced_writes h (hblock block hsome)).bind fun _ ↦ .pure
  all_goals exact (memberFunctionText_writes h hkey hvalue _).bind fun _ ↦ .pure

theorem memberLines_writes {members : List (ClassMember View)}
    (hmembers : ∀ m ∈ members, AllHold (View.Placed deep n) m.slots) :
    Writes I deep (indented (members.mapM fun m ↦ do e.line (← e.memberText m)))
      (indented (members.mapM fun m ↦ do e'.line (← e'.memberText m))) := by
  refine .indented (.mapM fun m hm ↦ ?_)
  exact (memberText_writes h (hmembers m hm)).bind fun text ↦ h.line text

theorem classText_writes {c : ClassShape View} (hc : AllHold (View.Placed deep n) c.slots)
    (isValue : Bool) : Writes I deep (e.classText isValue c) (e'.classText isValue c) := by
  obtain ⟨hdecorators, hsuper, hmembers⟩ := by simpa [ClassShape.slots] using hc
  refine .ite (fun _ ↦ .bind .pure fun separator ↦ ?_)
    fun _ ↦ h.pad.bind fun _ ↦ .bind .pure fun separator ↦ ?_
  all_goals
    refine (decorators_writes h hdecorators separator).bind fun _ ↦ ?_
    cases hparent : c.superClass with
    | none =>
      refine .bind .pure fun parent ↦ .ite (fun _ ↦ .pure) fun _ ↦ ?_
      exact (memberLines_writes h hmembers).bind fun _ ↦ h.pad.bind fun _ ↦ .pure
    | some parent =>
      refine (h.value (hsuper parent hparent)).bind fun _ ↦ .bind .pure fun _ ↦ ?_
      refine .ite (fun _ ↦ .pure) fun _ ↦ ?_
      exact (memberLines_writes h hmembers).bind fun _ ↦ h.pad.bind fun _ ↦ .pure

/-! ## All plain expressions -/

theorem templateParts_writes {holes : List View}
    (hholes : ∀ hole ∈ holes, hole.Placed deep n .expression)
    (quasis : List Bytes) : Writes I deep (e.templateParts quasis holes)
      (e'.templateParts quasis holes) := by
  induction quasis generalizing holes with
  | nil => exact .pure
  | cons quasi quasis ih =>
    cases holes with
    | nil => exact (ih (by simp)).bind fun _ ↦ .pure
    | cons hole holes =>
      rw [List.forall_mem_cons] at hholes
      exact (h.value hholes.1).bind fun _ ↦ (ih hholes.2).bind fun _ ↦ .pure

theorem memberAccess_writes {key : MemberKey View} (hkey : AllHold (View.Placed deep n) key.slots)
    (receiver : Bytes) (optional : Bool) : Writes I deep (e.memberAccess receiver key optional)
      (e'.memberAccess receiver key optional) := by
  cases key with
  | named name => exact .pure
  | computed index => exact (h.value (by simpa [MemberKey.slots] using hkey)).bind fun _ ↦ .pure

theorem infixed_writes {left right : View} (hleft : left.Placed deep n .expression)
    (hright : right.Placed deep n .expression) (op : Bytes) :
    Writes I deep (e.infixed left op right) (e'.infixed left op right) :=
  (h.value hleft).bind fun _ ↦ (h.value hright).bind fun _ ↦ .pure

theorem plainExpression_writes {view : View} {form : Plain View} (hform : form.isExpression)
    (hslots : AllHold (View.Placed deep n) form.slots) : Writes I deep (e.plainExpression view form)
      (e'.plainExpression view form) := by
  cases form with
  | identifier | number | string | regex | boolean | null | this | super | omitted => exact .pure
  | template quasis holes =>
    exact (templateParts_writes h (allHold_filled.mp hslots) quasis).bind fun _ ↦ .pure
  | array elements => exact (expressionList_writes h (allHold_filled.mp hslots)).bind fun _ ↦ .pure
  | sequence parts => exact expressionList_writes h (allHold_filled.mp hslots)
  | object properties =>
    refine Writes.bind (.mapM fun p hp ↦ ?_) fun _ ↦ .pure
    exact propertyText_writes h (allHold_flatMap.mp hslots p hp)
  | function f => exact callableText_writes h hslots false
  | arrow f => exact arrowText_writes h hslots
  | unary | await | spread | paren | cast | nonNull =>
    simp only [Plain.slots, allHold_filled, List.forall_mem_singleton] at hslots
    exact (h.value hslots).bind fun _ ↦ .pure
  | binary | assignment | assignmentPattern =>
    simp only [Plain.slots, allHold_filled, List.forall_mem_cons] at hslots
    exact infixed_writes h hslots.1 hslots.2.1 _
  | taggedTemplate tag args quasi =>
    simp only [Plain.slots, allHold_filled, List.forall_mem_cons] at hslots
    exact (h.value hslots.1).bind fun _ ↦ (h.value hslots.2.1).bind fun _ ↦ .pure
  | yield argument delegate =>
    simp only [Plain.slots, allHold_filled, Option.mem_toList] at hslots
    cases argument with
    | none => exact .pure
    | some argument => exact (h.value (hslots argument rfl)).bind fun _ ↦ .pure
  | conditional test consequent alternate =>
    simp only [Plain.slots, allHold_filled, List.forall_mem_cons] at hslots
    refine (h.value hslots.1).bind fun _ ↦ (h.value hslots.2.1).bind fun _ ↦ ?_
    exact (h.value hslots.2.2.1).bind fun _ ↦ .pure
  | call callee args values optional =>
    simp only [Plain.slots, allHold_filled, List.forall_mem_cons] at hslots
    exact (h.value hslots.1).bind fun _ ↦ (expressionList_writes h hslots.2).bind fun _ ↦ .pure
  | new callee args values =>
    simp only [Plain.slots, allHold_filled, List.forall_mem_cons] at hslots
    refine (h.value hslots.1).bind fun _ ↦ ?_
    cases values with
    | none => exact .pure
    | some values => exact (expressionList_writes h hslots.2).bind fun _ ↦ .pure
  | member receiver key optional =>
    simp only [Plain.slots, allHold_append, allHold_filled, List.forall_mem_singleton] at hslots
    exact (h.value hslots.1).bind fun _ ↦ memberAccess_writes h hslots.2 _ optional
  | _ => cases hform

end Served

end Emission

end SignalView
