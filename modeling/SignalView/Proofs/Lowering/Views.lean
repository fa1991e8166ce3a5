import SignalView.Proofs.Lowering.Accounts
import SignalView.Proofs.Lowering.Expressions

/-!
# Lowering builds the whole tree

Every entry point, and every construct that is made of what they give, builds exactly the views of
the tree that it gives.
-/

namespace SignalView

open Lower Slot

namespace Lowering

/-- What the entry points give is accounted for, for the places of those they are given. -/
structure Accounts (Tag : Bytes → Prop) (l : Lowering) : Prop where
  patterns : l.ReadsPatterns
  statement {place : Place} {node : Node} (h : node.Fits Tag place)
    (hplace : place = .statement ∨ place = .loopHead) :
    Builds 0 (l.statement node) fun view built ↦ built = view.subviews
  expression {place : Place} {node : Node} (h : node.Fits Tag place)
    (hplace : place = .expression ∨ place = .function ∨ place = .key) :
    Builds 0 (l.expression node) fun view built ↦ built = view.subviews
  element {node : Node} (h : node.Fits Tag .expression) :
    Builds 0 (l.element node) fun view built ↦ built = view.subviews

section Accounted

variable {Tag : Bytes → Prop} {l : Lowering} (h : l.Accounts Tag)

include h

theorem Accounts.value {node : Node} (hnode : node.Fits Tag .expression) :
    Builds 0 (l.expression node) fun view built ↦ built = view.subviews :=
  h.expression hnode (.inl rfl)

theorem Accounts.item {node : Node} (hnode : node.Fits Tag .statement) :
    Builds 0 (l.statement node) fun view built ↦ built = view.subviews :=
  h.statement hnode (.inl rfl)

/-! ## Lists and blocks -/

theorem expressions_builds {nodes : List Node}
    (hnodes : ∀ node ∈ nodes, node.Fits Tag .expression) :
    Builds 0 (l.expressions nodes) fun views built ↦
      views.length = nodes.length ∧ built = (views.map View.subviews).sum :=
  .mapM fun node hnode ↦ h.value (hnodes node hnode)

theorem optionalIn_builds {place : Place} {node : Option Node}
    (hnode : ∀ part ∈ node, part.Fits Tag place)
    (hplace : place = .expression ∨ place = .function ∨ place = .key) :
    Builds 0 (l.optionalExpression node) fun view built ↦
      view.isSome = node.isSome ∧ built = (view.toList.map View.subviews).sum :=
  .optionMapM fun part hpart ↦ h.expression (hnode part hpart) hplace

theorem optionalExpression_builds {node : Option Node}
    (hnode : ∀ part ∈ node, part.Fits Tag .expression) :
    Builds 0 (l.optionalExpression node) fun view built ↦
      view.isSome = node.isSome ∧ built = (view.toList.map View.subviews).sum :=
  optionalIn_builds h hnode (.inl rfl)

theorem block_builds {node : Node} (hnode : node.Fits Tag .statement) (newScope : Bool) :
    Builds 0 (l.block newScope node) fun view built ↦ built = view.subviews := by
  unfold block
  split
  · next range body =>
    obtain ⟨-, -, hbody⟩ := Node.fits_plain_iff.mp hnode
    have hstatements : Builds 0 (body.mapM l.statement) fun views built ↦
        views.length = body.length ∧ built = (views.map View.subviews).sum :=
      .mapM fun part hpart ↦ h.item (allHold_filled.mp hbody part hpart)
    refine .ite (fun _ ↦ (Builds.inScope hstatements _).bind ?_) fun _ ↦ hstatements.bind ?_
    all_goals
      rintro views _ ⟨-, rfl⟩
      exact .view trivial rfl (by simp [View.slots, Plain.slots])
  · exact h.item hnode

/-! ## Functions -/

theorem params_builds {ps : List (Param Node)} (hps : ∀ p ∈ ps, AllHold (Node.Fits Tag) p.slots) :
    Builds 0 (l.params ps) fun qs built ↦
      qs.length = ps.length ∧ built = (qs.map fun q ↦ Slot.subviews q.slots).sum := by
  refine .mapM fun p hp ↦ ?_
  obtain ⟨hdecorators, ⟨-, hpattern⟩, hinitial⟩ := by simpa [Param.slots] using hps p hp
  refine (expressions_builds h hdecorators).bind ?_
  rintro decorators _ ⟨-, rfl⟩
  refine (optionalExpression_builds h hpattern).bind ?_
  rintro pattern _ ⟨-, rfl⟩
  refine (optionalExpression_builds h hinitial).bind ?_
  rintro initial _ ⟨-, rfl⟩
  exact .pure (by simp [Param.slots, add_assoc])

theorem callable_builds {f : Callable Node} (hf : AllHold (Node.Fits Tag) f.slots) :
    Builds 0 (l.callable f) fun g built ↦ built = Slot.subviews g.slots := by
  obtain ⟨hparams, hbody⟩ := by simpa [Callable.slots] using hf
  refine .after (declareParams_idle _) fun _ ↦ (params_builds h hparams).bind ?_
  rintro ps _ ⟨-, rfl⟩
  refine (Builds.optionMapM fun body hmem ↦ block_builds h (hbody body hmem) false).bind ?_
  rintro body _ ⟨-, rfl⟩
  exact .pure (by simp [Callable.slots])

theorem functionExpression_builds {f : Callable Node} (hf : AllHold (Node.Fits Tag) f.slots)
    (line column : Nat) :
    Builds 0 (l.functionExpression line column f) fun g built ↦ built = Slot.subviews g.slots :=
  .inScope (.after (declare_idle _ _ _ _ _ _) fun _ ↦ callable_builds h hf) _

theorem arrowBody_builds {body : ArrowBody Node} (hbody : AllHold (Node.Fits Tag) body.slots) :
    Builds 0 (l.arrowBody body) fun lowered built ↦ built = Slot.subviews lowered.slots := by
  cases body with
  | block body =>
    have hbody : body.Fits Tag .statement := by simpa [ArrowBody.slots] using hbody
    refine (block_builds h hbody false).bind ?_
    rintro view _ rfl
    exact .pure (by simp [ArrowBody.slots])
  | expression value =>
    have hvalue : value.Fits Tag .expression := by simpa [ArrowBody.slots] using hbody
    refine (h.value hvalue).bind ?_
    rintro view _ rfl
    exact .pure (by simp [ArrowBody.slots])

theorem arrow_builds {f : Arrow Node} (hf : AllHold (Node.Fits Tag) f.slots) :
    Builds 0 (l.arrow f) fun g built ↦ built = Slot.subviews g.slots := by
  obtain ⟨hparams, hbody⟩ := by simpa [Arrow.slots] using hf
  refine .inScope (.after (declareParams_idle _) fun _ ↦ (params_builds h hparams).bind ?_) _
  rintro ps _ ⟨-, rfl⟩
  refine (arrowBody_builds h hbody).bind ?_
  rintro body _ rfl
  exact .pure (by simp [Arrow.slots])

/-! ## Keys, objects and classes -/

/-- A key that is a name stays one. -/
theorem propertyKey_builds {computed : Bool} {key : Node}
    (hkey : key.Fits Tag (keyPlace computed)) :
    Builds 0 (l.propertyKey computed key) fun view built ↦
      (computed = false → key.name?.isSome → view.name?.isSome) ∧ built = view.subviews := by
  unfold propertyKey
  split
  · next range name =>
    have hbuilds : Builds 0 (pure (View.plain range.start.line range.start.column
        (.identifier name))) fun view built ↦ built = view.subviews := .view trivial rfl rfl
    intro s _ t hrun
    obtain ⟨more, hgains, hbuilt⟩ := hbuilds hrun
    cases hrun
    exact ⟨more, hgains, fun _ _ ↦ rfl, hbuilt⟩
  · next hname =>
    refine (h.expression hkey ?_).mono fun view built hbuilt ↦ ⟨fun hplain hnamed ↦ ?_, hbuilt⟩
    · cases computed <;> simp [keyPlace]
    · unfold Node.name? at hnamed
      split at hnamed
      · exact absurd hplain (hname _ _ rfl)
      · cases hnamed

theorem property_builds {p : Property Node} (hregular : p.Regular)
    (hp : AllHold (Node.Fits Tag) p.slots) :
    Builds 0 (l.property p) fun q built ↦ q.Sound ∧ built = Slot.subviews q.slots := by
  simp only [Property.slots, allHold_append, allHold_held] at hp
  obtain ⟨⟨-, hkey⟩, -, hvalue⟩ := hp
  have hnamed (key : Node) (hmem : key ∈ p.key) :
      Builds 0 (l.propertyKey p.computed key) fun view built ↦
        (p.computed = false → (p.key.bind Node.name?).isSome → view.name?.isSome) ∧
          built = view.subviews := by
    rw [Option.mem_def.mp hmem]
    exact propertyKey_builds h (hkey key hmem)
  refine (Builds.optionMapMEach hnamed).bind ?_
  rintro key _ ⟨hkeyed, hname, rfl⟩
  refine (optionalIn_builds h hvalue ?_).bind ?_
  · cases p.kind <;> simp [PropertyKind.valuePlace]
  rintro value _ ⟨-, rfl⟩
  refine .pure ⟨?_, by simp [Property.slots]⟩
  unfold Property.Sound
  unfold Property.Regular at hregular
  cases hkind : p.kind <;> simp only [hkind] at hregular ⊢
  case shorthand =>
    obtain ⟨hcomputed, name, hbinds, -⟩ := hregular
    cases key with
    | none =>
      rw [Option.isSome_none, eq_comm, Option.isSome_eq_false_iff, Option.isNone_iff_eq_none]
        at hkeyed
      simp [hkeyed] at hbinds
    | some key => exact ⟨hcomputed, hname key rfl hcomputed (by simp [hbinds])⟩
  case spread => simpa [hregular] using hkeyed

theorem memberKey_builds {key : MemberKey Node} (hkey : AllHold (Node.Fits Tag) key.slots) :
    Builds 0 (l.memberKey key) fun lowered built ↦ built = Slot.subviews lowered.slots := by
  cases key with
  | named name => exact .pure rfl
  | computed index =>
    have hindex : index.Fits Tag .expression := by simpa [MemberKey.slots] using hkey
    refine (h.value hindex).bind ?_
    rintro view _ rfl
    exact .pure (by simp [MemberKey.slots])

theorem classMember_builds {c : ClassMember Node} (hregular : c.Regular)
    (hc : AllHold (Node.Fits Tag) c.slots) :
    Builds 0 (l.classMember c) fun d built ↦ d.Regular ∧ built = Slot.subviews d.slots := by
  simp only [ClassMember.slots, allHold_append, allHold_held, allHold_filled] at hc
  obtain ⟨⟨⟨hdecorators, -, hkey⟩, -, hvalue⟩, -, hblock⟩ := hc
  refine (expressions_builds h hdecorators).bind ?_
  rintro decorators _ ⟨-, rfl⟩
  refine (Builds.optionMapM fun key hmem ↦
    (propertyKey_builds h (hkey key hmem)).mono fun _ _ hbuilt ↦ hbuilt.2).bind ?_
  rintro key _ ⟨hkeyed, rfl⟩
  refine (optionalIn_builds h hvalue ?_).bind ?_
  · cases c.kind <;> simp [MemberKind.valuePlace, MemberKind.isFunction]
  rintro value _ ⟨hvalued, rfl⟩
  refine (Builds.optionMapM fun block hmem ↦ block_builds h (hblock block hmem) true).bind ?_
  rintro block _ ⟨hblocked, rfl⟩
  refine .pure ⟨?_, by simp [ClassMember.slots, add_assoc]⟩
  unfold ClassMember.Regular at hregular ⊢
  cases hkind : c.kind <;> simp_all

theorem classShape_builds {c : ClassShape Node} (hregular : ∀ m ∈ c.members, m.Regular)
    (hc : AllHold (Node.Fits Tag) c.slots) :
    Builds 0 (l.classShape c) fun d built ↦
      (∀ m ∈ d.members, m.Regular) ∧ built = Slot.subviews d.slots := by
  obtain ⟨hdecorators, hsuper, hmembers⟩ := by simpa [ClassShape.slots] using hc
  refine (expressions_builds h hdecorators).bind ?_
  rintro decorators _ ⟨-, rfl⟩
  refine (optionalExpression_builds h hsuper).bind ?_
  rintro superClass _ ⟨-, rfl⟩
  refine (Builds.inScope (.mapMEach fun m hm ↦
    classMember_builds h (hregular m hm) (hmembers m hm)) _).bind ?_
  rintro members _ ⟨hlowered, rfl⟩
  exact .pure ⟨hlowered, by simp [ClassShape.slots, add_assoc]⟩

/-! ## All expressions -/

theorem plainExpression_builds {node : Node} {form : Plain Node} {place : Place}
    (hregular : form.Regular place) (hslots : AllHold (Node.Fits Tag) form.slots) :
    Builds 0 (l.plainExpression node form) fun lowered built ↦
      lowered.Sound ∧ built = Slot.subviews lowered.slots := by
  cases form with
  | identifier name =>
    exact .after (resolve_idle name) fun _ ↦ .pure ⟨trivial, rfl⟩
  | number | string | regex | boolean | null | this | super | omitted => exact .pure ⟨trivial, rfl⟩
  | unary | await | spread | paren | cast | nonNull =>
    simp only [Plain.slots, allHold_filled, List.forall_mem_singleton] at hslots
    refine (h.value hslots).bind ?_
    rintro view _ rfl
    exact .pure ⟨trivial, by simp [Plain.slots]⟩
  | taggedTemplate | binary | assignment | assignmentPattern =>
    simp only [Plain.slots, allHold_filled, List.forall_mem_cons] at hslots
    obtain ⟨hleft, hright, -⟩ := hslots
    refine (h.value hleft).bind ?_
    rintro left _ rfl
    refine (h.value hright).bind ?_
    rintro right _ rfl
    exact .pure ⟨trivial, by simp [Plain.slots]⟩
  | template quasis holes =>
    simp only [Plain.slots, allHold_filled] at hslots
    refine (expressions_builds h hslots).bind ?_
    rintro views _ ⟨hlength, rfl⟩
    have hchunks : quasis.length = views.length + 1 := hlength ▸ hregular
    exact .pure ⟨hchunks, by simp [Plain.slots]⟩
  | array | sequence =>
    simp only [Plain.slots, allHold_filled] at hslots
    refine (expressions_builds h hslots).bind ?_
    rintro views _ ⟨-, rfl⟩
    exact .pure ⟨trivial, by simp [Plain.slots]⟩
  | object properties =>
    simp only [Plain.slots, allHold_flatMap] at hslots
    refine (Builds.mapMEach fun p hp ↦ property_builds h (hregular p hp) (hslots p hp)).bind ?_
    rintro qs _ ⟨hspread, rfl⟩
    exact .pure ⟨hspread, by simp [Plain.slots]⟩
  | function f =>
    refine (functionExpression_builds h hslots _ _).bind ?_
    rintro g _ rfl
    exact .pure ⟨trivial, by simp [Plain.slots]⟩
  | arrow f =>
    refine (arrow_builds h hslots).bind ?_
    rintro g _ rfl
    exact .pure ⟨trivial, by simp [Plain.slots]⟩
  | yield argument delegate =>
    simp only [Plain.slots, allHold_filled, Option.mem_toList] at hslots
    refine (optionalExpression_builds h hslots).bind ?_
    rintro view _ ⟨-, rfl⟩
    exact .pure ⟨trivial, by simp [Plain.slots]⟩
  | conditional test consequent alternate =>
    simp only [Plain.slots, allHold_filled, List.forall_mem_cons] at hslots
    obtain ⟨htest, hconsequent, halternate, -⟩ := hslots
    refine (h.value htest).bind ?_
    rintro test _ rfl
    refine (h.value hconsequent).bind ?_
    rintro consequent _ rfl
    refine (h.value halternate).bind ?_
    rintro alternate _ rfl
    exact .pure ⟨trivial, by simp [Plain.slots, add_assoc]⟩
  | call callee typeArguments args optional =>
    simp only [Plain.slots, allHold_filled, List.forall_mem_cons] at hslots
    refine (h.value hslots.1).bind ?_
    rintro callee _ rfl
    refine (expressions_builds h hslots.2).bind ?_
    rintro args _ ⟨-, rfl⟩
    exact .pure ⟨trivial, by simp [Plain.slots]⟩
  | new callee typeArguments args =>
    simp only [Plain.slots, allHold_filled, List.forall_mem_cons] at hslots
    refine (h.value hslots.1).bind ?_
    rintro callee _ rfl
    refine (Builds.optionMapM (w := fun views ↦ (views.map View.subviews).sum)
      fun list hlist ↦ ?_).bind ?_
    · refine (expressions_builds h ?_).mono fun _ _ hviews ↦ hviews.2
      simpa [Option.mem_def.mp hlist] using hslots.2
    · rintro lowered _ ⟨-, rfl⟩
      refine .pure ⟨trivial, ?_⟩
      cases lowered <;> simp [Plain.slots]
  | member receiver key optional =>
    simp only [Plain.slots, allHold_append, allHold_filled, List.forall_mem_singleton] at hslots
    refine (h.value hslots.1).bind ?_
    rintro receiver _ rfl
    refine (memberKey_builds h hslots.2).bind ?_
    rintro key _ rfl
    exact .pure ⟨trivial, by simp [Plain.slots]⟩
  | _ => exact .failAt _ _ _ _

theorem expressionStep_builds {place : Place} {node : Node} (hnode : node.Fits Tag place)
    (hplace : place = .expression ∨ place = .function ∨ place = .key) :
    Builds 0 (l.expressionStep node) fun view built ↦ built = view.subviews := by
  cases node with
  | plain range form =>
    obtain ⟨-, hregular, hslots⟩ := Node.fits_plain_iff.mp hnode
    refine (plainExpression_builds h hregular hslots).bind ?_
    rintro lowered _ ⟨hsound, rfl⟩
    exact .view hsound rfl (zero_add _)
  | surface range form =>
    obtain ⟨hstands, -, hslots⟩ := Node.fits_surface_iff.mp hnode
    rcases hplace with rfl | rfl | rfl
    · cases form with
      | element | fragment => exact h.element hnode
      | classExpression declaration =>
        simp only [Surface.slots, allHold_filled, List.forall_mem_singleton] at hslots
        obtain ⟨_, c, rfl, hc, hregular⟩ := hslots.class_cases
        refine (classShape_builds h hregular hc).bind ?_
        rintro d _ ⟨hmembers, rfl⟩
        exact .view hmembers rfl (zero_add _)
      | _ => cases hstands
    · cases form <;> cases hstands
    · cases form <;> cases hstands

/-! ## Attributes -/

theorem attributeValue_builds {node : Node} (hnode : node.Fits Tag .attributeValue) :
    Builds 0 (l.attributeValue node) fun view built ↦ built = view.subviews := by
  obtain hvalue | ⟨range, inner, rfl, hinner⟩ := hnode.attributeValue_cases
  · unfold attributeValue
    split
    · next range inner =>
      obtain ⟨hstands, -, -⟩ := Node.fits_surface_iff.mp hvalue
      cases hstands
    · exact h.value hvalue
  · exact h.value hinner

theorem spreadAttribute_builds {value : Option Node}
    (hvalue : ∀ part ∈ value, part.Fits Tag .expression) :
    Builds 0 (l.spreadAttribute value) fun a built ↦
      a.isSpread = true ∧ built = Slot.subviews a.slots := by
  refine (optionalExpression_builds h hvalue).bind ?_
  rintro view _ ⟨-, rfl⟩
  exact .pure ⟨rfl, by simp [ViewAttribute.slots]⟩

omit h in
/-- The property that a part of an element sets, where that is known. -/
def AttributePart.property? : AttributePart → Option Bytes
  | .attr a => if a.isSpread then none else some (Attribute.domProperty a.name)
  | .listener _ => none
  | .binding b => some b.property

omit h in
/-- Attributes in the markup keep their names. -/
theorem domProperty_of_isMarkup {name : Bytes} (h : Attribute.isMarkup name = true) :
    Attribute.domProperty name = name := by
  unfold Attribute.domProperty
  split
  · next hclass =>
    rw [eq_of_beq hclass] at h
    exact absurd h (by decide)
  · split
    · next hfor =>
      rw [eq_of_beq hfor] at h
      exact absurd h (by decide)
    · rfl

theorem elementAttribute_builds {name : Bytes} {value : Option Node} (c : Classification)
    (hvalue : ∀ part ∈ value, part.Fits Tag .attributeValue) :
    Builds 0 (l.elementAttribute name value c) fun part built ↦
      (∀ property ∈ part.property?, property = Attribute.domProperty name) ∧
        built = Slot.subviews part.slots := by
  cases value with
  | none =>
    refine .pure ⟨?_, by simp [AttributePart.slots, ViewAttribute.slots]⟩
    simp [AttributePart.property?]
  | some value =>
    have hlowered := attributeValue_builds h (hvalue value rfl)
    refine .ite (fun _ ↦ ?_) fun _ ↦ .ite (fun _ ↦ ?_) fun _ ↦ ?_
    · refine hlowered.bind ?_
      rintro view _ rfl
      refine .after Idle.noteListener fun _ ↦ .pure ⟨?_, by simp [AttributePart.slots]⟩
      simp [AttributePart.property?]
    · refine .afterNoting (hlowered.bind ?_)
      rintro view _ rfl
      refine .pure ⟨?_, by simp [AttributePart.slots]⟩
      rintro _ ⟨⟩
      split
      · next hmarkup => exact (domProperty_of_isMarkup hmarkup).symm
      · rfl
    · refine hlowered.bind ?_
      rintro view _ rfl
      refine .pure ⟨?_, by simp [AttributePart.slots, ViewAttribute.slots]⟩
      simp [AttributePart.property?]

/-- No property that has been seen is set again. -/
theorem elementAttributes_builds {tag : Bytes} {nodes : List Node}
    (hnodes : ∀ node ∈ nodes, node.Fits Tag .attribute) (seen : List Bytes) :
    Builds 0 (l.elementAttributes tag seen nodes) fun parts built ↦
      ((parts.filterMap (·.property?)).Nodup ∧
        ∀ property ∈ parts.filterMap (·.property?), property ∉ seen) ∧
      built = (parts.map fun part ↦ Slot.subviews part.slots).sum := by
  induction nodes generalizing seen with
  | nil => exact .pure ⟨by simp, rfl⟩
  | cons node rest ih =>
    rw [List.forall_mem_cons] at hnodes
    obtain ⟨range, name, value, isSpread, rfl, -, hvalue⟩ := hnodes.1.attribute_cases
    refine .ite (fun hspread ↦ ?_) fun hspread ↦ ?_
    · rw [if_pos hspread] at hvalue
      refine (spreadAttribute_builds h hvalue).bind ?_
      rintro first _ ⟨hfirst, rfl⟩
      refine (ih hnodes.2 seen).bind ?_
      rintro parts _ ⟨hparts, rfl⟩
      have hnone : (AttributePart.attr first).property? = none := by
        simp [AttributePart.property?, hfirst]
      exact .pure ⟨by simpa [List.filterMap_cons, hnone] using hparts,
        by simp [AttributePart.slots]⟩
    · rw [if_neg hspread] at hvalue
      refine .ite (fun _ ↦ .bind (P := fun _ _ ↦ False) (.failAt _ _ _ _) fun _ _ ↦ False.elim) ?_
      intro hseen
      refine .after Idle.state fun s ↦ (elementAttribute_builds h _ hvalue).bind ?_
      rintro first _ ⟨hfirst, rfl⟩
      refine (ih hnodes.2 _).bind ?_
      rintro parts _ ⟨⟨hnodup, hapart⟩, rfl⟩
      refine .pure ⟨?_, by simp⟩
      cases hproperty : first.property? with
      | none =>
        simp only [List.filterMap_cons, hproperty]
        exact ⟨hnodup, fun other hother hmem ↦
          hapart other hother (List.mem_cons_of_mem _ hmem)⟩
      | some property =>
        obtain rfl := hfirst property hproperty
        simp only [List.filterMap_cons, hproperty, List.nodup_cons, List.forall_mem_cons]
        refine ⟨⟨fun hmem ↦ hapart _ hmem List.mem_cons_self, hnodup⟩, ?_, fun other hother hmem ↦
          hapart other hother (List.mem_cons_of_mem _ hmem)⟩
        simpa using hseen

theorem callProp_builds {name : Bytes} {value : Option Node}
    (hvalue : ∀ part ∈ value, part.Fits Tag .attributeValue) :
    Builds 0 (l.callProp name value) fun a built ↦ built = Slot.subviews a.slots := by
  refine .after Idle.state fun s ↦ .iteThen Idle.noteListener ?_
  refine (Builds.optionMapM fun part hpart ↦ attributeValue_builds h (hvalue part hpart)).bind ?_
  rintro view _ ⟨-, rfl⟩
  exact .pure (by simp [ViewAttribute.slots])

theorem callProps_builds {nodes : List Node} (hnodes : ∀ node ∈ nodes, node.Fits Tag .attribute) :
    Builds 0 (l.callProps nodes) fun props built ↦
      built = (props.map fun a ↦ Slot.subviews a.slots).sum := by
  induction nodes with
  | nil => exact .pure rfl
  | cons node rest ih =>
    rw [List.forall_mem_cons] at hnodes
    obtain ⟨range, name, value, isSpread, rfl, -, hvalue⟩ := hnodes.1.attribute_cases
    refine .ite (fun hspread ↦ ?_) fun hspread ↦ ?_
    · rw [if_pos hspread] at hvalue
      refine (spreadAttribute_builds h hvalue).bind ?_
      rintro first _ ⟨-, rfl⟩
      refine (ih hnodes.2).bind ?_
      rintro props _ rfl
      exact .pure (by simp)
    · rw [if_neg hspread] at hvalue
      refine (callProp_builds h hvalue).bind ?_
      rintro first _ rfl
      refine (ih hnodes.2).bind ?_
      rintro props _ rfl
      exact .pure (by simp)

/-! ## Children and elements -/

omit h in
theorem someView_builds {built : Multiset View} {view : View} (hsound : view.Sound)
    (hcomponent : view.component? = none) (hbuilt : built = Slot.subviews view.slots) :
    Builds built (pure (some view)) fun view built ↦
      built = (view.toList.map View.subviews).sum := by
  intro s _ t hrun
  cases hrun
  obtain ⟨more, hgains, hmore⟩ := Builds.view hsound hcomponent hbuilt
    (show (pure view : Lower View) s = (.ok view, s) from rfl)
  exact ⟨more, hgains, by simpa using hmore⟩

theorem markupChild_builds {node : Node} (hnode : node.Fits Tag .child) :
    Builds 0 (l.markupChild node) fun view built ↦
      built = (view.toList.map View.subviews).sum := by
  obtain ⟨hmarkup, hkind⟩ | ⟨range, raw, value, rfl⟩ | ⟨range, inner, rfl, hinner⟩ :=
    hnode.child_cases
  · unfold markupChild
    split
    · cases hkind
    · cases hkind
    · refine (h.value hmarkup).bind ?_
      rintro view _ rfl
      exact .pure (by simp)
  · have htext (line column : Nat) : (View.rendered line column (.text value)).Sound := trivial
    exact someView_builds (htext _ _) rfl rfl
  · refine .after Idle.state fun s ↦ .afterNoting ?_
    refine (h.value hinner).bind ?_
    rintro view _ rfl
    have hchild (line column : Nat) (c : Classification) :
        (View.rendered line column (.child c view)).Sound := trivial
    exact someView_builds (hchild _ _ _) rfl (by simp [View.slots, Rendered.slots])

theorem markupChildren_builds {nodes : List Node} (hnodes : ∀ node ∈ nodes, node.Fits Tag .child) :
    Builds 0 (l.markupChildren nodes) fun views built ↦
      built = (views.map View.subviews).sum := by
  refine (Builds.mapM fun node hnode ↦ markupChild_builds h (hnodes node hnode)).bind ?_
  rintro views _ ⟨-, rfl⟩
  refine .pure ?_
  rw [zero_add]
  clear hnodes
  induction views with
  | nil => rfl
  | cons view views ih => cases view <;> simp [ih]

theorem componentCall_builds {tag : Bytes} {attributes children : List Node}
    (hattributes : ∀ node ∈ attributes, node.Fits Tag .attribute)
    (hchildren : ∀ node ∈ children, node.Fits Tag .child) :
    Builds 0 (l.componentCall tag attributes children) fun form built ↦
      (form.Sound ∧ ∀ line column, (View.rendered line column form).component? = none) ∧
        built = Slot.subviews form.slots := by
  refine .after (Idle.markUsed _) fun _ ↦ (callProps_builds h hattributes).bind ?_
  rintro props _ rfl
  refine (markupChildren_builds h hchildren).bind ?_
  rintro views _ rfl
  exact .pure ⟨⟨trivial, fun _ _ ↦ rfl⟩, by simp [Rendered.slots]⟩

omit h in
/-- The views in the parts of an element's attributes are in its attributes, its listeners and its
bindings. -/
theorem subviews_attributeParts (parts : List AttributePart) :
    (parts.map fun part ↦ Slot.subviews part.slots).sum =
      ((parts.filterMap (·.attr?)).map fun a ↦ Slot.subviews a.slots).sum +
        (((parts.filterMap (·.listener?)).map (·.handler)).map View.subviews).sum +
        (((parts.filterMap (·.binding?)).map (·.expression)).map View.subviews).sum := by
  induction parts with
  | nil => rfl
  | cons part parts ih =>
    rw [List.map_cons, List.sum_cons, ih]
    cases part <;>
      simp [AttributePart.attr?, AttributePart.listener?, AttributePart.binding?,
        AttributePart.slots, add_assoc, add_left_comm]

omit h in
/-- The properties that an element sets are those that the parts of its attributes set. -/
theorem properties_attributeParts (parts : List AttributePart) :
    List.Perm ((((parts.filterMap (·.attr?)).filter (!·.isSpread)).map fun a ↦
        Attribute.domProperty a.name) ++ (parts.filterMap (·.binding?)).map (·.property))
      (parts.filterMap (·.property?)) := by
  induction parts with
  | nil => exact .nil
  | cons part parts ih =>
    cases part with
    | attr a =>
      cases hspread : a.isSpread <;>
        simpa [List.filterMap_cons, AttributePart.attr?, AttributePart.binding?,
          AttributePart.property?, hspread] using ih
    | listener a => simpa [List.filterMap_cons, AttributePart.attr?, AttributePart.binding?,
        AttributePart.property?] using ih
    | binding b =>
      simp only [List.filterMap_cons, AttributePart.attr?, AttributePart.binding?,
        AttributePart.property?, List.map_cons]
      exact List.perm_middle.trans (ih.cons _)

theorem plainElement_builds {tag : Bytes} {attributes children : List Node}
    (hattributes : ∀ node ∈ attributes, node.Fits Tag .attribute)
    (hchildren : ∀ node ∈ children, node.Fits Tag .child) :
    Builds 0 (l.plainElement tag attributes children) fun form built ↦
      (form.Sound ∧ ∀ line column, (View.rendered line column form).component? = none) ∧
        built = Slot.subviews form.slots := by
  refine (elementAttributes_builds h hattributes []).bind ?_
  rintro parts _ ⟨⟨hnodup, -⟩, rfl⟩
  refine (markupChildren_builds h hchildren).bind ?_
  rintro views _ rfl
  refine .pure ⟨⟨⟨?_, ?_⟩, fun _ _ ↦ rfl⟩, ?_⟩
  · exact (properties_attributeParts parts).nodup_iff.mpr hnodup
  · simp only [Bool.and_eq_true, List.isEmpty_iff]
    exact fun hstatic ↦ hstatic.1
  · simp [Rendered.slots, ElementShape.slots, subviews_attributeParts, add_assoc]

theorem elementStep_builds {node : Node} (hnode : node.Fits Tag .expression) :
    Builds 0 (l.elementStep node) fun view built ↦ built = view.subviews := by
  have hmarkup : Idle (Lower.modify fun s ↦ { s with hasMarkup := true }) :=
    .modify fun _ ↦ ⟨rfl, rfl, rfl⟩
  unfold elementStep
  split
  · obtain ⟨-, -, hslots⟩ := Node.fits_surface_iff.mp hnode
    simp only [Surface.slots, allHold_append, allHold_filled] at hslots
    refine .iteThen (.failAt _ _ _ _) (.after hmarkup fun _ ↦ .ite (fun _ ↦ ?_) fun _ ↦ ?_)
    · refine (componentCall_builds h hslots.1 hslots.2).bind ?_
      rintro form _ ⟨⟨hsound, hcomponent⟩, rfl⟩
      exact .view hsound (hcomponent _ _) (zero_add _)
    · refine (plainElement_builds h hslots.1 hslots.2).bind ?_
      rintro form _ ⟨⟨hsound, hcomponent⟩, rfl⟩
      exact .view hsound (hcomponent _ _) (zero_add _)
  · obtain ⟨-, -, hslots⟩ := Node.fits_surface_iff.mp hnode
    refine .after hmarkup fun _ ↦ ?_
    refine (markupChildren_builds h (allHold_filled.mp hslots)).bind ?_
    rintro views _ rfl
    exact .view trivial rfl (by simp [View.slots, Rendered.slots])
  · exact .failAt _ _ _ _

end Accounted

end Lowering

end SignalView
