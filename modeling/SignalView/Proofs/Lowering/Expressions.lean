import SignalView.Proofs.Lowering.Rules

/-!
# Lowering expressions and markup

Where every construct of a tree stands in its place, the lowered constructs stand in theirs. The
faults that are left are an attribute that is set twice and nesting beyond the limit.
-/

namespace SignalView

open Lower LoweringState Slot

/-! ## Names -/

namespace Lower

variable {I : LoweringState → Prop} [Lasting I] {deep : Prop}

theorem declare_runs (keyword name : Bytes) (kind : SymbolKind) (type : Bytes)
    (line column : Nat) : Runs I deep (declare keyword name kind type line column) := by
  refine .ite (fun _ ↦ .pure trivial) fun _ ↦ Yields.state.bind fun s _ ↦ ?_
  split
  · exact .modify fun _ hs ↦ Lasting.symbols hs _
  · exact .ite (fun _ ↦ .warn _ _ _ _) fun _ ↦ .pure trivial

theorem declarePattern_runs (keyword : Bytes) (kind : SymbolKind) (type : Bytes) (pattern : Node) :
    Runs I deep (declarePattern keyword kind type pattern) := by
  unfold declarePattern
  split
  · exact declare_runs _ _ _ _ _ _
  · exact .forM fun _ _ ↦ declare_runs _ _ _ _ _ _

theorem declareParams_runs (params : List (Param Node)) : Runs I deep (declareParams params) :=
  .forM fun _ _ ↦ .optionForM fun _ _ ↦ declarePattern_runs _ _ _ _

theorem declareSignalPair_runs (keyword type : Bytes) (index : Nat) (elements : List Node) :
    Runs I deep (declareSignalPair keyword type index elements) := by
  induction elements generalizing index with
  | nil => exact .pure trivial
  | cons element rest ih =>
    unfold declareSignalPair
    split
    · exact (declare_runs _ _ _ _ _ _).bind fun _ _ ↦ ih _
    · exact (declare_runs _ _ _ _ _ _).bind fun _ _ ↦ ih _
    · exact (declarePattern_runs _ _ _ _).bind fun _ _ ↦ ih _

theorem declareSignals_runs (keyword : Bytes) (declarator : Declarator Node) :
    Runs I deep (declareSignals keyword declarator) := by
  unfold declareSignals
  split
  · refine Yields.state.bind fun s _ ↦ ?_
    split
    · exact (declareSignalPair_runs _ _ _ _).bind fun _ _ ↦ .pure trivial
    · exact (declare_runs _ _ _ _ _ _).bind fun _ _ ↦ .pure trivial
    · exact .pure trivial
  · exact .pure trivial

theorem resolve_runs (name : Bytes) : Runs I deep (resolve name) := by
  refine Yields.state.bind fun s _ ↦ ?_
  split
  · refine (Yields.markUsed _).bind fun _ _ ↦ ?_
    split
    · exact .ite (fun _ ↦ Yields.noteSignals.bind fun _ _ ↦ .pure trivial) fun _ ↦ .pure trivial
    · exact .pure trivial
  · refine .ite (fun himplicit ↦ ?_) fun _ ↦ .pure trivial
    have hname := Primitive.canonicalName_mem_exports himplicit
    refine .bind (.modify fun _ hs ↦ Lasting.primitive hs hname) fun _ _ ↦ ?_
    exact Yields.noteSignals.bind fun _ _ ↦ .pure trivial

end Lower

namespace Lowering

/-- Two groups of entry points give the same constructs, for the places of those they are given,
when these have no longer paths than there are levels. -/
structure Serves (I : LoweringState → Prop) [Lasting I] (deep : Prop) (level : Nat)
    (l l' : Lowering) : Prop where
  runtime : l'.runtimeModule = l.runtimeModule
  statement {n : Nat} (hn : n ≤ level) {place : Place} {node : Node}
    (h : node.Placed deep n place) (hplace : place = .statement ∨ place = .loopHead) :
    Yields I deep (l.statement node) (l'.statement node) (View.Placed deep n place)
  expression {n : Nat} (hn : n ≤ level) {place : Place} {node : Node}
    (h : node.Placed deep n place)
    (hplace : place = .expression ∨ place = .function ∨ place = .key) :
    Yields I deep (l.expression node) (l'.expression node) (View.Placed deep n place)
  element {n : Nat} (hn : n ≤ level) {node : Node} (h : node.Placed deep (n + 1) .expression)
    (hmarkup : node.isMarkup) :
    Yields I deep (l.element node) (l'.element node) (View.Placed deep (n + 1) .expression)

section Served

variable {I : LoweringState → Prop} [Lasting I] {deep : Prop} {m n : Nat} {l l' : Lowering}

theorem Serves.mono (h : Serves I deep n l l') (hmn : m ≤ n) : Serves I deep m l l' where
  runtime := h.runtime
  statement hm := h.statement (Nat.le_trans hm hmn)
  expression hm := h.expression (Nat.le_trans hm hmn)
  element hm := h.element (Nat.le_trans hm hmn)

variable (h : Serves I deep n l l')

include h

theorem Serves.value {node : Node} (hnode : node.Placed deep n .expression) :
    Yields I deep (l.expression node) (l'.expression node) (View.Placed deep n .expression) :=
  h.expression n.le_refl hnode (.inl rfl)

theorem Serves.item {node : Node} (hnode : node.Placed deep n .statement) :
    Yields I deep (l.statement node) (l'.statement node) (View.Placed deep n .statement) :=
  h.statement n.le_refl hnode (.inl rfl)

/-! ## Lists and blocks -/

theorem expressions_yields {nodes : List Node}
    (hnodes : ∀ node ∈ nodes, node.Placed deep n .expression) :
    Yields I deep (l.expressions nodes) (l'.expressions nodes) fun views ↦
      ∀ view ∈ views, view.Placed deep n .expression :=
  .mapM fun node hnode ↦ h.value (hnodes node hnode)

theorem optionalIn_yields {place : Place} {node : Option Node}
    (hnode : ∀ part ∈ node, part.Placed deep n place)
    (hplace : place = .expression ∨ place = .function ∨ place = .key) :
    Yields I deep (l.optionalExpression node) (l'.optionalExpression node) fun view ↦
      view.isSome = node.isSome ∧ ∀ part ∈ view, part.Placed deep n place :=
  .optionMapM fun part hpart ↦ h.expression n.le_refl (hnode part hpart) hplace

theorem optionalExpression_yields {node : Option Node}
    (hnode : ∀ part ∈ node, part.Placed deep n .expression) :
    Yields I deep (l.optionalExpression node) (l'.optionalExpression node) fun view ↦
      view.isSome = node.isSome ∧ ∀ part ∈ view, part.Placed deep n .expression :=
  optionalIn_yields h hnode (.inl rfl)

theorem blockOf_yields {body : List Node} (hbody : ∀ part ∈ body, part.Placed deep n .statement)
    (range : Range) (newScope : Bool) :
    Yields I deep (l.block newScope (.plain range (.block body)))
      (l'.block newScope (.plain range (.block body))) (View.Placed deep (n + 1) .statement) := by
  have hstatements : Yields I deep (body.mapM l.statement) (body.mapM l'.statement) fun views ↦
      ∀ view ∈ views, view.Placed deep n .statement :=
    .mapM fun part hpart ↦ h.item (hbody part hpart)
  have hplaced (views : List View) (hviews : ∀ view ∈ views, view.Placed deep n .statement) :
      (View.plain range.start.line range.start.column (.block views)).Placed deep (n + 1)
        .statement :=
    .of_plain rfl (allHold_filled.mpr hviews)
  refine .ite (fun _ ↦ ?_) fun _ ↦ ?_
  · exact (Yields.inScope hstatements).bind fun views hviews ↦ .pure (hplaced views hviews)
  · exact hstatements.bind fun views hviews ↦ .pure (hplaced views hviews)

theorem block_yields {node : Node} (hnode : node.Placed deep n .statement) (newScope : Bool) :
    Yields I deep (l.block newScope node) (l'.block newScope node)
      (View.Placed deep n .statement) := by
  unfold block
  split
  · next range body =>
    obtain ⟨-, -, hbody⟩ := hnode.plain_parts
    refine (blockOf_yields (h.mono n.pred_le) (allHold_filled.mp hbody) range newScope).mono ?_
    exact fun _ hview ↦ hview.of_pred hnode.pos
  · exact h.item hnode

/-! ## Functions -/

theorem params_yields {ps : List (Param Node)}
    (hps : ∀ p ∈ ps, AllHold (Node.Placed deep n) p.slots) :
    Yields I deep (l.params ps) (l'.params ps) fun qs ↦
      ∀ q ∈ qs, AllHold (View.Placed deep n) q.slots := by
  refine .mapM fun p hp ↦ ?_
  obtain ⟨hdecorators, ⟨hsome, hpattern⟩, hinitial⟩ := by simpa [Param.slots] using hps p hp
  refine (expressions_yields h hdecorators).bind fun decorators hdecorators ↦ ?_
  refine (optionalExpression_yields h hpattern).bind fun pattern hpattern ↦ ?_
  refine (optionalExpression_yields h hinitial).bind fun initial hinitial ↦ .pure ?_
  simpa [Param.slots] using ⟨hdecorators, ⟨hpattern.1.trans hsome, hpattern.2⟩, hinitial.2⟩

theorem callable_yields {f : Callable Node} (hf : AllHold (Node.Placed deep n) f.slots) :
    Yields I deep (l.callable f) (l'.callable f) fun g ↦ AllHold (View.Placed deep n) g.slots := by
  obtain ⟨hparams, hbody⟩ := by simpa [Callable.slots] using hf
  refine (declareParams_runs _).bind fun _ _ ↦ (params_yields h hparams).bind fun ps hps ↦ ?_
  refine (Yields.optionMapM fun body hmem ↦ block_yields h (hbody body hmem) false).bind ?_
  exact fun body hbody ↦ .pure (by simpa [Callable.slots] using ⟨hps, hbody.2⟩)

theorem functionExpression_yields {f : Callable Node} (hf : AllHold (Node.Placed deep n) f.slots)
    (line column : Nat) :
    Yields I deep (l.functionExpression line column f) (l'.functionExpression line column f) fun g ↦
      AllHold (View.Placed deep n) g.slots :=
  .inScope ((declare_runs _ _ _ _ _ _).bind fun _ _ ↦ callable_yields h hf)

theorem arrowBody_yields {body : ArrowBody Node} (hbody : AllHold (Node.Placed deep n) body.slots) :
    Yields I deep (l.arrowBody body) (l'.arrowBody body) fun lowered ↦
      AllHold (View.Placed deep n) lowered.slots := by
  cases body with
  | block body =>
    have hbody : body.Placed deep n .statement := by simpa [ArrowBody.slots] using hbody
    exact (block_yields h hbody false).bind fun view hview ↦ .pure (by simpa [ArrowBody.slots])
  | expression value =>
    have hvalue : value.Placed deep n .expression := by simpa [ArrowBody.slots] using hbody
    exact (h.value hvalue).bind fun view hview ↦ .pure (by simpa [ArrowBody.slots])

theorem arrow_yields {f : Arrow Node} (hf : AllHold (Node.Placed deep n) f.slots) :
    Yields I deep (l.arrow f) (l'.arrow f) fun g ↦ AllHold (View.Placed deep n) g.slots := by
  obtain ⟨hparams, hbody⟩ := by simpa [Arrow.slots] using hf
  refine .inScope ((declareParams_runs _).bind fun _ _ ↦ ?_)
  refine (params_yields h hparams).bind fun ps hps ↦ ?_
  refine (arrowBody_yields h hbody).bind fun body hbody ↦ .pure ?_
  simpa [Arrow.slots] using ⟨hps, hbody⟩

/-! ## Keys, objects and classes -/

theorem propertyKey_yields {computed : Bool} {key : Node}
    (hkey : key.Placed deep n (keyPlace computed)) :
    Yields I deep (l.propertyKey computed key)
      (l'.propertyKey computed key) (View.Placed deep n (keyPlace computed)) := by
  unfold propertyKey
  split
  · exact .pure (View.Placed.of_pred (.of_plain rfl (by simp [Plain.slots])) hkey.pos)
  · refine h.expression n.le_refl hkey ?_
    cases computed <;> simp [keyPlace]

theorem property_yields {p : Property Node} (hp : AllHold (Node.Placed deep n) p.slots) :
    Yields I deep (l.property p) (l'.property p) fun q ↦ AllHold (View.Placed deep n) q.slots := by
  simp only [Property.slots, allHold_append, allHold_held] at hp
  obtain ⟨⟨hkeyed, hkey⟩, hvalued, hvalue⟩ := hp
  refine (Yields.optionMapM fun key hmem ↦ propertyKey_yields h (hkey key hmem)).bind ?_
  rintro key ⟨hsome, hkey⟩
  refine (optionalIn_yields h hvalue ?_).bind ?_
  · cases p.kind <;> simp [PropertyKind.valuePlace]
  rintro value ⟨hsome', hvalue⟩
  refine .pure ?_
  simp only [Property.slots, allHold_append, allHold_held, hsome, hsome']
  exact ⟨⟨hkeyed, hkey⟩, hvalued, hvalue⟩

theorem memberKey_yields {key : MemberKey Node} (hkey : AllHold (Node.Placed deep n) key.slots) :
    Yields I deep (l.memberKey key) (l'.memberKey key) fun lowered ↦
      AllHold (View.Placed deep n) lowered.slots := by
  cases key with
  | named name => exact .pure (by simp [MemberKey.slots])
  | computed index =>
    have hindex : index.Placed deep n .expression := by simpa [MemberKey.slots] using hkey
    exact (h.value hindex).bind fun view hview ↦ .pure (by simpa [MemberKey.slots] using hview)

theorem classMember_yields {c : ClassMember Node} (hc : AllHold (Node.Placed deep n) c.slots) :
    Yields I deep (l.classMember c) (l'.classMember c) fun d ↦
      AllHold (View.Placed deep n) d.slots := by
  simp only [ClassMember.slots, allHold_append, allHold_held, allHold_filled] at hc
  obtain ⟨⟨⟨hdecorators, hkeyed, hkey⟩, hvalued, hvalue⟩, hblocked, hblock⟩ := hc
  refine (expressions_yields h hdecorators).bind fun decorators hdecorators ↦ ?_
  refine (Yields.optionMapM fun key hmem ↦ propertyKey_yields h (hkey key hmem)).bind ?_
  rintro key ⟨hkeySome, hkey⟩
  refine (optionalIn_yields h hvalue ?_).bind ?_
  · cases c.kind <;> simp [MemberKind.valuePlace, MemberKind.isFunction]
  rintro value ⟨hvalueSome, hvalue⟩
  refine (Yields.optionMapM fun block hmem ↦ block_yields h (hblock block hmem) true).bind ?_
  rintro block ⟨hblockSome, hblock⟩
  refine .pure ?_
  simp only [ClassMember.slots, allHold_append, allHold_held, allHold_filled, hkeySome, hvalueSome,
    hblockSome]
  exact ⟨⟨⟨hdecorators, hkeyed, hkey⟩, hvalued, hvalue⟩, hblocked, hblock⟩

theorem classShape_yields {c : ClassShape Node} (hc : AllHold (Node.Placed deep n) c.slots) :
    Yields I deep (l.classShape c) (l'.classShape c) fun d ↦
      AllHold (View.Placed deep n) d.slots := by
  obtain ⟨hdecorators, hsuper, hmembers⟩ := by simpa [ClassShape.slots] using hc
  refine (expressions_yields h hdecorators).bind fun decorators hdecorators ↦ ?_
  refine (optionalExpression_yields h hsuper).bind fun superClass hsuper ↦ ?_
  refine (Yields.inScope (.mapM fun m hm ↦ classMember_yields h (hmembers m hm))).bind ?_
  intro members hmembers
  refine .pure ?_
  simpa [ClassShape.slots] using ⟨hdecorators, hsuper.2, hmembers⟩

/-! ## All expressions -/

theorem plainExpression_yields {node : Node} {form : Plain Node} (hform : form.isExpression)
    (hslots : AllHold (Node.Placed deep n) form.slots) :
    Yields I deep (l.plainExpression node form) (l'.plainExpression node form) fun lowered ↦
      lowered.isExpression ∧ AllHold (View.Placed deep n) lowered.slots := by
  cases form with
  | identifier name =>
    exact (resolve_runs name).bind fun _ _ ↦ .pure ⟨rfl, by simp [Plain.slots]⟩
  | number | string | regex | boolean | null | this | super | omitted =>
    exact .pure ⟨rfl, by simp [Plain.slots]⟩
  | unary | await | spread | paren | cast | nonNull =>
    simp only [Plain.slots, allHold_filled, List.forall_mem_singleton] at hslots
    exact (h.value hslots).bind fun view hview ↦ .pure ⟨rfl, by simpa [Plain.slots] using hview⟩
  | taggedTemplate | binary | assignment | assignmentPattern =>
    simp only [Plain.slots, allHold_filled, List.forall_mem_cons] at hslots
    obtain ⟨hleft, hright, -⟩ := hslots
    refine (h.value hleft).bind fun left hleft ↦ (h.value hright).bind fun right hright ↦ ?_
    exact .pure ⟨rfl, by simpa [Plain.slots] using ⟨hleft, hright⟩⟩
  | template | array | sequence =>
    simp only [Plain.slots, allHold_filled] at hslots
    exact (expressions_yields h hslots).bind fun views hviews ↦
      .pure ⟨rfl, by simpa [Plain.slots] using hviews⟩
  | object properties =>
    simp only [Plain.slots, allHold_flatMap] at hslots
    refine (Yields.mapM fun p hp ↦ property_yields h (hslots p hp)).bind fun qs hqs ↦ ?_
    exact .pure ⟨rfl, by simpa [Plain.slots] using hqs⟩
  | function f =>
    exact (functionExpression_yields h hslots _ _).bind fun g hg ↦ .pure ⟨rfl, hg⟩
  | arrow f => exact (arrow_yields h hslots).bind fun g hg ↦ .pure ⟨rfl, hg⟩
  | yield argument delegate =>
    simp only [Plain.slots, allHold_filled, Option.mem_toList] at hslots
    exact (optionalExpression_yields h hslots).bind fun view hview ↦
      .pure ⟨rfl, by simpa [Plain.slots] using hview.2⟩
  | conditional test consequent alternate =>
    simp only [Plain.slots, allHold_filled, List.forall_mem_cons] at hslots
    obtain ⟨htest, hconsequent, halternate, -⟩ := hslots
    refine (h.value htest).bind fun test htest ↦ ?_
    refine (h.value hconsequent).bind fun consequent hconsequent ↦ ?_
    refine (h.value halternate).bind fun alternate halternate ↦ .pure ⟨rfl, ?_⟩
    simpa [Plain.slots] using ⟨htest, hconsequent, halternate⟩
  | call callee typeArguments args optional =>
    simp only [Plain.slots, allHold_filled, List.forall_mem_cons] at hslots
    refine (h.value hslots.1).bind fun callee hcallee ↦ ?_
    refine (expressions_yields h hslots.2).bind fun args hargs ↦ .pure ⟨rfl, ?_⟩
    simpa [Plain.slots] using ⟨hcallee, hargs⟩
  | new callee typeArguments args =>
    simp only [Plain.slots, allHold_filled, List.forall_mem_cons] at hslots
    refine (h.value hslots.1).bind fun callee hcallee ↦ ?_
    refine (Yields.optionMapM fun list hlist ↦ expressions_yields h ?_).bind ?_
    · simpa [Option.mem_def.mp hlist] using hslots.2
    · rintro lowered ⟨-, hargs⟩
      refine .pure ⟨rfl, ?_⟩
      cases lowered <;> simp_all [Plain.slots]
  | member receiver key optional =>
    simp only [Plain.slots, allHold_append, allHold_filled, List.forall_mem_singleton] at hslots
    refine (h.value hslots.1).bind fun receiver hreceiver ↦ ?_
    refine (memberKey_yields h hslots.2).bind fun key hkey ↦ .pure ⟨rfl, ?_⟩
    simpa [Plain.slots] using ⟨hreceiver, hkey⟩
  | _ => cases hform

theorem expressionStep_yields {place : Place} {node : Node}
    (hnode : node.Placed deep (n + 1) place)
    (hplace : place = .expression ∨ place = .function ∨ place = .key) :
    Yields I deep (l.expressionStep node) (l'.expressionStep node)
      (View.Placed deep (n + 1) place) := by
  cases node with
  | plain range form =>
    obtain ⟨hstands, -, hslots⟩ := hnode.plain_parts
    rcases hplace with rfl | rfl | rfl
    · refine (plainExpression_yields h hstands hslots).bind fun lowered hlowered ↦ ?_
      exact .pure (.of_plain hlowered.1 hlowered.2)
    · obtain ⟨f, rfl⟩ := Plain.eq_function_of_stands hstands
      refine .bind (P := fun lowered ↦ ∃ g, lowered = .function g ∧
        AllHold (View.Placed deep n) g.slots) ?_ ?_
      · exact (functionExpression_yields h hslots _ _).bind fun g hg ↦ .pure ⟨g, rfl, hg⟩
      · rintro _ ⟨g, rfl, hg⟩
        exact .pure (.of_plain rfl hg)
    · cases form with
      | identifier name =>
        refine .bind (P := fun lowered ↦ ∃ name, lowered = .identifier name) ?_ ?_
        · exact (resolve_runs name).bind fun name _ ↦ .pure ⟨name, rfl⟩
        · rintro _ ⟨name, rfl⟩
          exact .pure (.of_plain rfl (by simp [Plain.slots]))
      | number | string => exact .pure (.of_plain rfl (by simp [Plain.slots]))
      | _ => cases hstands
  | surface range form =>
    obtain ⟨hstands, -, hslots⟩ := hnode.surface_parts
    rcases hplace with rfl | rfl | rfl
    · cases form with
      | element | fragment => exact h.element n.le_refl hnode rfl
      | classExpression declaration =>
        have hdeclaration : declaration.Placed deep n .class_ := by
          simpa [Surface.slots, Surface.weight] using hslots
        obtain ⟨_, c, rfl, hc⟩ := hdeclaration.class_cases
        exact (classShape_yields h hc).bind fun d hd ↦ .pure (.of_rendered rfl hd)
      | _ => cases hstands
    · cases form <;> cases hstands
    · cases form <;> cases hstands

/-! ## Attributes -/

theorem attributeValue_yields {node : Node} (hnode : node.Placed deep n .attributeValue) :
    Yields I deep (l.attributeValue node)
      (l'.attributeValue node) (View.Placed deep n .expression) := by
  obtain hvalue | ⟨range, inner, rfl, hinner⟩ := hnode.attributeValue_cases
  · unfold attributeValue
    split
    · next range inner =>
      obtain ⟨hstands, -, -⟩ := hvalue.surface_parts
      cases hstands
    · exact h.value hvalue
  · exact h.value hinner

omit h in
/-- What an attribute is lowered to has one slot, for its value. -/
def AttributePart.slots : AttributePart → List (Slot View)
  | .attr a => a.slots
  | .listener a => filled .expression [a.handler]
  | .binding a => filled .expression [a.expression]

theorem spreadAttribute_yields {value : Option Node} (hsome : value.isSome)
    (hvalue : ∀ part ∈ value, part.Placed deep n .expression) :
    Yields I deep (l.spreadAttribute value) (l'.spreadAttribute value) fun a ↦
      AllHold (View.Placed deep n) a.slots := by
  refine (optionalExpression_yields h hvalue).bind fun view hview ↦ .pure ?_
  simpa [ViewAttribute.slots, hview.1, hsome] using hview.2

theorem elementAttribute_yields {name : Bytes} {value : Option Node} (c : Classification)
    (hvalue : ∀ part ∈ value, part.Placed deep n .attributeValue) :
    Yields I deep (l.elementAttribute name value c) (l'.elementAttribute name value c) fun part ↦
      AllHold (View.Placed deep n) part.slots := by
  cases value with
  | none => exact .pure (by simp [AttributePart.slots, ViewAttribute.slots])
  | some value =>
    have hlowered := attributeValue_yields h (hvalue value rfl)
    refine .ite (fun _ ↦ ?_) fun _ ↦ .ite (fun _ ↦ ?_) fun _ ↦ ?_
    · refine hlowered.bind fun view hview ↦ Yields.noteListener.bind fun _ _ ↦ .pure ?_
      simpa [AttributePart.slots] using hview
    · refine (Yields.noteDependencies _).bind fun _ _ ↦ hlowered.bind fun view hview ↦ .pure ?_
      simpa [AttributePart.slots] using hview
    · refine hlowered.bind fun view hview ↦ .pure ?_
      simpa [AttributePart.slots, ViewAttribute.slots] using hview

theorem elementAttributes_yields {tag : Bytes} {nodes : List Node}
    (hnodes : ∀ node ∈ nodes, node.Placed deep n .attribute) (seen : List Bytes) :
    Yields I deep (l.elementAttributes tag seen nodes)
      (l'.elementAttributes tag seen nodes) fun parts ↦
      ∀ part ∈ parts, AllHold (View.Placed deep n) part.slots := by
  induction nodes generalizing seen with
  | nil => exact .pure (by simp)
  | cons node rest ih =>
    rw [List.forall_mem_cons] at hnodes
    have hrest (seen : List Bytes) := ih hnodes.2 seen
    obtain ⟨range, name, value, isSpread, rfl, hsome, hvalue⟩ := hnodes.1.attribute_cases
    refine .ite (fun hspread ↦ ?_) fun hspread ↦ ?_
    · rw [if_pos hspread] at hvalue
      refine (spreadAttribute_yields h (hsome hspread) hvalue).bind fun first hfirst ↦ ?_
      refine (hrest seen).bind fun parts hparts ↦ .pure ?_
      simpa using ⟨hfirst, hparts⟩
    · rw [if_neg hspread] at hvalue
      refine .iteThen (fun _ ↦ .failAt (by simp [faultCodes])) (Yields.state.bind fun s _ ↦ ?_)
      refine (elementAttribute_yields h _ hvalue).bind fun first hfirst ↦ ?_
      refine (hrest _).bind fun parts hparts ↦ .pure ?_
      simpa using ⟨hfirst, hparts⟩

theorem callProp_yields {name : Bytes} {value : Option Node}
    (hvalue : ∀ part ∈ value, part.Placed deep n .attributeValue) :
    Yields I deep (l.callProp name value) (l'.callProp name value) fun a ↦
      AllHold (View.Placed deep n) a.slots := by
  refine Yields.state.bind fun s _ ↦ .iteThen (fun _ ↦ .noteListener) ?_
  refine (Yields.optionMapM fun part hpart ↦ attributeValue_yields h (hvalue part hpart)).bind ?_
  exact fun view hview ↦ .pure (by simpa [ViewAttribute.slots] using hview.2)

theorem callProps_yields {nodes : List Node}
    (hnodes : ∀ node ∈ nodes, node.Placed deep n .attribute) :
    Yields I deep (l.callProps nodes) (l'.callProps nodes) fun props ↦
      ∀ a ∈ props, AllHold (View.Placed deep n) a.slots := by
  induction nodes with
  | nil => exact .pure (by simp)
  | cons node rest ih =>
    rw [List.forall_mem_cons] at hnodes
    have hrest {first : ViewAttribute View} (hfirst : AllHold (View.Placed deep n) first.slots) :
        Yields I deep (do return first :: (← l.callProps rest))
          (do return first :: (← l'.callProps rest)) fun props ↦
            ∀ a ∈ props, AllHold (View.Placed deep n) a.slots :=
      (ih hnodes.2).bind fun props hprops ↦ .pure (by simpa using ⟨hfirst, hprops⟩)
    obtain ⟨range, name, value, isSpread, rfl, hsome, hvalue⟩ := hnodes.1.attribute_cases
    refine .ite (fun hspread ↦ ?_) fun hspread ↦ ?_
    · rw [if_pos hspread] at hvalue
      exact (spreadAttribute_yields h (hsome hspread) hvalue).bind fun _ ↦ hrest
    · rw [if_neg hspread] at hvalue
      exact (callProp_yields h hvalue).bind fun _ ↦ hrest

/-! ## Children and elements -/

theorem markupChild_yields {node : Node} (hnode : node.Placed deep n .child) :
    Yields I deep (l.markupChild node) (l'.markupChild node) fun view ↦
      ∀ part ∈ view, part.Placed deep n .expression := by
  obtain ⟨hmarkup, hkind⟩ | ⟨range, raw, value, rfl⟩ | ⟨range, inner, rfl, hinner⟩ :=
    hnode.child_cases
  · unfold markupChild
    split
    · cases hkind
    · cases hkind
    · exact (h.value hmarkup).bind fun view hview ↦ .pure (by simpa using hview)
  · refine .pure ?_
    rintro _ ⟨⟩
    exact View.Placed.of_pred (.of_rendered rfl (by simp [Rendered.slots])) hnode.pos
  · refine Yields.state.bind fun s _ ↦ (Yields.noteDependencies _).bind fun _ _ ↦ ?_
    refine ((h.mono n.pred_le).value hinner).bind fun view hview ↦ .pure ?_
    rintro _ ⟨⟩
    refine View.Placed.of_pred (.of_rendered rfl ?_) hnode.pos
    simpa [Rendered.slots] using hview

theorem markupChildren_yields {nodes : List Node}
    (hnodes : ∀ node ∈ nodes, node.Placed deep n .child) :
    Yields I deep (l.markupChildren nodes) (l'.markupChildren nodes) fun views ↦
      ∀ view ∈ views, view.Placed deep n .expression := by
  refine (Yields.mapM fun node hnode ↦ markupChild_yields h (hnodes node hnode)).bind ?_
  intro views hviews
  refine .pure fun view hview ↦ ?_
  obtain ⟨_, hmem, rfl⟩ := List.mem_filterMap.mp hview
  exact hviews _ hmem view rfl

theorem componentCall_yields {tag : Bytes} {attributes children : List Node}
    (hattributes : ∀ node ∈ attributes, node.Placed deep n .attribute)
    (hchildren : ∀ node ∈ children, node.Placed deep n .child) :
    Yields I deep (l.componentCall tag attributes children)
      (l'.componentCall tag attributes children) fun form ↦
        AllHold (View.Placed deep n) form.slots := by
  refine (Yields.markUsed _).bind fun _ _ ↦ (callProps_yields h hattributes).bind ?_
  intro props hprops
  refine (markupChildren_yields h hchildren).bind fun views hviews ↦ .pure ?_
  simpa [Rendered.slots] using ⟨hprops, hviews⟩

omit h in
/-- The parts of an element's attributes are sorted by what they are. -/
theorem allHold_elementSlots {tag : Bytes} {parts : List AttributePart} {children : List View}
    {isStatic : Bool} (hparts : ∀ part ∈ parts, AllHold (View.Placed deep n) part.slots)
    (hchildren : ∀ view ∈ children, view.Placed deep n .expression) :
    AllHold (View.Placed deep n) (ElementShape.slots {
      tag := tag, attributes := parts.filterMap (·.attr?)
      listeners := parts.filterMap (·.listener?), bindings := parts.filterMap (·.binding?)
      children := children, isStatic := isStatic }) := by
  simp only [ElementShape.slots, allHold_append, allHold_flatMap, allHold_filled, List.mem_map,
    List.mem_filterMap]
  refine ⟨⟨⟨?_, ?_⟩, ?_⟩, hchildren⟩
  · rintro a ⟨part, hmem, hpart⟩
    cases part <;> cases hpart
    exact hparts _ hmem
  · rintro _ ⟨a, ⟨part, hmem, hpart⟩, rfl⟩
    cases part <;> cases hpart
    simpa [AttributePart.slots] using hparts _ hmem
  · rintro _ ⟨a, ⟨part, hmem, hpart⟩, rfl⟩
    cases part <;> cases hpart
    simpa [AttributePart.slots] using hparts _ hmem

theorem plainElement_yields {tag : Bytes} {attributes children : List Node}
    (hattributes : ∀ node ∈ attributes, node.Placed deep n .attribute)
    (hchildren : ∀ node ∈ children, node.Placed deep n .child) :
    Yields I deep (l.plainElement tag attributes children)
      (l'.plainElement tag attributes children) fun form ↦
        AllHold (View.Placed deep n) form.slots := by
  refine (elementAttributes_yields h hattributes []).bind fun parts hparts ↦ ?_
  refine (markupChildren_yields h hchildren).bind fun views hviews ↦ .pure ?_
  exact allHold_elementSlots hparts hviews

theorem elementStep_yields {node : Node} (hnode : node.Placed deep (n + 2) .expression)
    (hmarkup : node.isMarkup) :
    Yields I deep (l.elementStep node) (l'.elementStep node)
      (View.Placed deep (n + 1) .expression) := by
  cases node with
  | plain => cases hmarkup
  | surface range form =>
    obtain ⟨-, hregular, hslots⟩ := hnode.surface_parts
    cases form with
    | element tag attributes children selfClosing =>
      simp only [Surface.slots, allHold_append, allHold_filled] at hslots
      -- a tag is never empty, so the fault for that is out of reach
      refine .ite (fun hempty ↦ absurd (List.isEmpty_iff.mp hempty) hregular) fun _ ↦ ?_
      refine .bind (.modify fun _ hs ↦ Lasting.markup hs) fun _ _ ↦ .ite (fun _ ↦ ?_) fun _ ↦ ?_
      · refine (componentCall_yields h hslots.1 hslots.2).bind fun form hform ↦ ?_
        exact .pure (.of_rendered rfl hform)
      · refine (plainElement_yields h hslots.1 hslots.2).bind fun form hform ↦ ?_
        exact .pure (.of_rendered rfl hform)
    | fragment children =>
      refine .bind (.modify fun _ hs ↦ Lasting.markup hs) fun _ _ ↦ ?_
      refine (markupChildren_yields h (allHold_filled.mp hslots)).bind fun views hviews ↦ ?_
      exact .pure (.of_rendered rfl (allHold_filled.mpr hviews))
    | _ => cases hmarkup

end Served

end Lowering

end SignalView
