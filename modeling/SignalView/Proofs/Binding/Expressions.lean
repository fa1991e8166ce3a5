import SignalView.Proofs.Binding.Rules

/-!
# The events of expressions

An expression is lowered as its events tell, and names are written in it where they tell so.
-/

namespace SignalView

open Lower Slot

namespace Lowering

/-- The entry points follow their events. -/
structure Traces (l : Lowering) (t : Tracing) : Prop where
  runtimeModule : t.runtimeModule = l.runtimeModule
  statement (node : Node) : Follows 0 (t.statement node) (l.statement node) View.names
  expression (node : Node) : Follows 0 (t.expression node) (l.expression node) View.names
  element (node : Node) : Follows 0 (t.element node) (l.element node) View.names

section Traced

variable {l : Lowering} {t : Tracing} (h : l.Traces t)

omit h in
/-- A plain view in which a construct has been lowered. -/
theorem plainView_follows {trace : List Event} {line column : Nat} {lower : Lower (Plain View)}
    (hlower : Follows 0 trace lower (Plain.names line column)) :
    Follows 0 trace (do return View.plain line column (← lower)) View.names :=
  hlower.bindLast fun form ↦ .pure (by simp)

include h

/-! ## Lists and blocks -/

theorem expressions_follows (nodes : List Node) :
    Follows 0 (t.expressions nodes) (l.expressions nodes) fun views ↦
      (views.map View.names).sum :=
  .mapM fun node _ ↦ h.expression node

theorem optionalExpression_follows (node : Option Node) :
    Follows 0 (t.optional node) (l.optionalExpression node) fun view ↦
      (view.toList.map View.names).sum :=
  .optionMapM fun part _ ↦ h.expression part

theorem block_follows (newScope : Bool) (node : Node) :
    Follows 0 (t.block newScope node) (l.block newScope node) View.names := by
  cases node with
  | surface range form => exact h.statement _
  | plain range form =>
    cases form with
    | block body =>
      have hstatements : Follows 0 (body.flatMap t.statement) (body.mapM l.statement) fun views ↦
          (views.map View.names).sum :=
        .mapM fun part _ ↦ h.statement part
      have hplain (views : List View) : (views.map View.names).sum =
          (View.plain range.start.line range.start.column (.block views)).names := by
        simp [Plain.names, Plain.ownNames, Plain.slots]
      cases newScope with
      | true => exact (hstatements.inScope .block).bindLast fun views ↦ .pure (by simp [hplain])
      | false => exact hstatements.bindLast fun views ↦ .pure (by simp [hplain])
    | _ => exact h.statement _

/-! ## Functions -/

theorem params_follows (ps : List (Param Node)) :
    Follows 0 (ps.flatMap fun p ↦ t.expressions p.decorators ++
        (t.optional p.pattern ++ t.optional p.initial))
      (l.params ps) fun qs ↦ (qs.map fun q ↦ Slot.names q.slots).sum := by
  refine .mapM fun p _ ↦ (expressions_follows h _).bind fun decorators ↦ ?_
  refine (optionalExpression_follows h _).bind fun pattern ↦ ?_
  refine (optionalExpression_follows h _).bindLast fun initial ↦ .pure ?_
  simp [Param.slots, add_assoc]

/-- Parameters are declared in front of their parts. -/
theorem declaredParams_follows (ps : List (Param Node)) {β : Type} {more : List Event}
    {next : List (Param View) → Lower β} {w : β → Multiset Written}
    (hnext : ∀ qs, Follows (qs.map fun q ↦ Slot.names q.slots).sum more (next qs) w) :
    Follows 0 (t.params ps ++ more) (do declareParams ps; next (← l.params ps)) w := by
  rw [Tracing.params, List.append_assoc]
  refine .after (declareParams_follows _) fun _ ↦ (params_follows h _).bind fun qs ↦ ?_
  rw [zero_add]
  exact hnext qs

theorem callable_follows (f : Callable Node) :
    Follows 0 (t.callable f) (l.callable f) fun g ↦ Slot.names g.slots := by
  refine declaredParams_follows h _ fun ps ↦ ?_
  refine (Follows.optionMapM fun body _ ↦ block_follows h false body).bindLast fun body ↦ .pure ?_
  simp [Callable.slots]

theorem functionExpression_follows (line column : Nat) (f : Callable Node) :
    Follows 0 (t.functionExpression f) (l.functionExpression line column f) fun g ↦
      Slot.names g.slots :=
  .inScope (.after (declare_follows _ _ (by decide) _ _ _ _) fun _ ↦ callable_follows h f) _

theorem arrowBody_follows (body : ArrowBody Node) :
    Follows 0 (t.arrowBody body) (l.arrowBody body) fun lowered ↦ Slot.names lowered.slots := by
  cases body with
  | block body =>
    exact (block_follows h false body).bindLast fun _ ↦ .pure (by simp [ArrowBody.slots])
  | expression value =>
    exact (h.expression value).bindLast fun _ ↦ .pure (by simp [ArrowBody.slots])

theorem arrow_follows (f : Arrow Node) :
    Follows 0 (t.arrow f) (l.arrow f) fun g ↦ Slot.names g.slots := by
  refine .inScope (declaredParams_follows h _ fun ps ↦ ?_) _
  exact (arrowBody_follows h f.body).bindLast fun body ↦ .pure (by simp [Arrow.slots])

/-! ## Keys, objects and classes -/

theorem propertyKey_follows (computed : Bool) (key : Node) :
    Follows 0 (t.propertyKey computed key) (l.propertyKey computed key) View.names := by
  cases computed with
  | true =>
    unfold propertyKey Tracing.propertyKey
    simpa using h.expression key
  | false =>
    cases key with
    | surface range form => exact h.expression _
    | plain range form =>
      cases form with
      | identifier name =>
        exact .keeping (.pure (by simp [Plain.names, Plain.ownNames, Plain.slots, Slot.names]))
      | _ => exact h.expression _

theorem property_follows (p : Property Node) :
    Follows 0 (t.property p) (l.property p) fun q ↦ Slot.names q.slots := by
  refine (Follows.optionMapM fun key _ ↦ propertyKey_follows h p.computed key).bind fun key ↦ ?_
  refine (optionalExpression_follows h _).bindLast fun value ↦ .pure ?_
  simp [Property.slots]

theorem memberKey_follows (key : MemberKey Node) :
    Follows 0 (t.memberKey key) (l.memberKey key) fun lowered ↦ Slot.names lowered.slots := by
  cases key with
  | named name => exact .pure rfl
  | computed index =>
    exact (h.expression index).bindLast fun _ ↦ .pure (by simp [MemberKey.slots])

theorem classMember_follows (m : ClassMember Node) :
    Follows 0 (t.classMember m) (l.classMember m) fun d ↦ Slot.names d.slots := by
  refine (expressions_follows h _).bind fun decorators ↦ ?_
  refine (Follows.optionMapM fun key _ ↦ propertyKey_follows h m.computed key).bind fun key ↦ ?_
  refine (optionalExpression_follows h _).bind fun value ↦ ?_
  refine (Follows.optionMapM fun block _ ↦ block_follows h true block).bindLast fun block ↦ ?_
  exact .pure (by simp [ClassMember.slots, add_assoc])

theorem classShape_follows (c : ClassShape Node) :
    Follows 0 (t.classShape c) (l.classShape c) fun d ↦ Slot.names d.slots := by
  refine (expressions_follows h _).bind fun decorators ↦ ?_
  refine (optionalExpression_follows h _).bind fun superClass ↦ ?_
  refine (Follows.inScope (.mapM fun m _ ↦ classMember_follows h m) _).bindLast fun members ↦ ?_
  exact .pure (by simp [ClassShape.slots, add_assoc])

/-! ## All expressions -/

theorem plainExpression_follows (node : Node) (form : Plain Node) :
    Follows 0 (t.plainExpression node form) (l.plainExpression node form)
      (Plain.names node.line node.column) := by
  cases form with
  | identifier name =>
    exact (resolve_follows name _ _).bindLast fun value ↦ .pure rfl
  | number | string | regex | boolean | null | this | super | omitted => exact .pure rfl
  | unary | await | spread | paren | cast | nonNull =>
    refine (h.expression _).bindLast fun _ ↦ .pure ?_
    simp [Plain.names, Plain.ownNames, Plain.slots]
  | taggedTemplate | binary | assignment | assignmentPattern =>
    refine (h.expression _).bind fun _ ↦ (h.expression _).bindLast fun _ ↦ .pure ?_
    simp [Plain.names, Plain.ownNames, Plain.slots]
  | template | array | sequence =>
    refine (expressions_follows h _).bindLast fun _ ↦ .pure ?_
    simp [Plain.names, Plain.ownNames, Plain.slots]
  | object properties =>
    refine (Follows.mapM fun p _ ↦ property_follows h p).bindLast fun qs ↦ .pure ?_
    simp [Plain.names, Plain.ownNames, Plain.slots]
  | function f =>
    refine (functionExpression_follows h _ _ f).bindLast fun g ↦ .pure ?_
    simp [Plain.names, Plain.ownNames, Plain.slots]
  | arrow f =>
    refine (arrow_follows h f).bindLast fun g ↦ .pure ?_
    simp [Plain.names, Plain.ownNames, Plain.slots]
  | yield argument delegate =>
    refine (optionalExpression_follows h _).bindLast fun _ ↦ .pure ?_
    simp [Plain.names, Plain.ownNames, Plain.slots]
  | conditional test consequent alternate =>
    refine (h.expression _).bind fun _ ↦ (h.expression _).bind fun _ ↦ ?_
    refine (h.expression _).bindLast fun _ ↦ .pure ?_
    simp [Plain.names, Plain.ownNames, Plain.slots, add_assoc]
  | call callee typeArguments args optional =>
    refine (h.expression _).bind fun _ ↦ (expressions_follows h _).bindLast fun _ ↦ .pure ?_
    simp [Plain.names, Plain.ownNames, Plain.slots]
  | new callee typeArguments args =>
    refine (h.expression _).bind fun _ ↦ ?_
    refine (Follows.optionMapM fun list _ ↦ expressions_follows h list).bindLast fun lowered ↦ ?_
    refine .pure ?_
    cases lowered <;> simp [Plain.names, Plain.ownNames, Plain.slots]
  | member receiver key optional =>
    refine (h.expression _).bind fun _ ↦ (memberKey_follows h key).bindLast fun _ ↦ .pure ?_
    simp [Plain.names, Plain.ownNames, Plain.slots]
  | _ => exact .failAt _ _ _ _

theorem expressionStep_follows (node : Node) :
    Follows 0 (t.expressionStep node) (l.expressionStep node) View.names := by
  cases node with
  | plain range form => exact plainView_follows (plainExpression_follows h _ _)
  | surface range form =>
    cases form with
    | element | fragment => exact h.element _
    | text raw value =>
      exact .pure (by simp [Rendered.slots, Slot.names])
    | container inner =>
      cases inner with
      | none =>
        exact .pure (by simp [Plain.names, Plain.ownNames, Plain.slots, Slot.names])
      | some inner => exact (h.expression _).of_eq (List.append_nil _)
    | classExpression declaration =>
      cases declaration with
      | surface => exact .failAt _ _ _ _
      | plain range form =>
        cases form with
        | classDeclaration c =>
          refine (classShape_follows h c).bindLast fun d ↦ .pure ?_
          simp [Rendered.slots]
        | _ => exact .failAt _ _ _ _
    | _ => exact .failAt _ _ _ _

end Traced

end Lowering

end SignalView
