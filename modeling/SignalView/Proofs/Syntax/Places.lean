import SignalView.Syntax.Node

/-!
# Constructs in their places

Every construct has slots, and each slot is a place: of an expression, of a statement, in the head
of a loop, in a tag. A tree fits when each of its slots is filled with a construct that can stand
there. What the slots of a plain construct are does not depend on the tree, so the tree of the
source and the tree of the output share them.
-/

namespace SignalView

inductive Place where
  | expression | statement | loopHead | class_ | function | key | attribute | attributeValue | child
  deriving DecidableEq, Repr

/-- A place and what it holds. A slot that has to be filled and is not holds nothing. -/
structure Slot (α : Type) where
  place : Place
  content : Option α

namespace Slot

variable {α : Type} {P : Place → α → Prop} {place : Place}

/-- Slots of one place that hold some parts. -/
def filled (place : Place) (parts : List α) : List (Slot α) :=
  parts.map fun part ↦ ⟨place, some part⟩

/-- A slot that has to be filled, or that may be empty. -/
def held (required : Bool) (place : Place) (content : Option α) : List (Slot α) :=
  if required then [⟨place, content⟩] else filled place content.toList

/-- The slot is filled, and its content is as it has to be in its place. -/
def Holds (P : Place → α → Prop) (slot : Slot α) : Prop :=
  ∃ part, slot.content = some part ∧ P slot.place part

@[simp]
theorem holds_some {part : α} : (⟨place, some part⟩ : Slot α).Holds P ↔ P place part := by
  simp [Holds]

@[simp]
theorem holds_none : ¬(⟨place, none⟩ : Slot α).Holds P := by
  simp [Holds]

/-- All of some slots are filled as they have to be. -/
def AllHold (P : Place → α → Prop) (slots : List (Slot α)) : Prop := ∀ slot ∈ slots, slot.Holds P

@[simp]
theorem allHold_nil : AllHold P [] := by
  simp [AllHold]

@[simp]
theorem allHold_cons {slot : Slot α} {slots : List (Slot α)} :
    AllHold P (slot :: slots) ↔ slot.Holds P ∧ AllHold P slots := by
  simp [AllHold]

@[simp]
theorem allHold_append {slots more : List (Slot α)} :
    AllHold P (slots ++ more) ↔ AllHold P slots ∧ AllHold P more := by
  simp [AllHold, or_imp, forall_and]

@[simp]
theorem allHold_filled {parts : List α} :
    AllHold P (filled place parts) ↔ ∀ part ∈ parts, P place part := by
  simp [AllHold, filled]

@[simp]
theorem allHold_held {required : Bool} {content : Option α} :
    AllHold P (held required place content) ↔
      (required = true → content.isSome) ∧ ∀ part ∈ content, P place part := by
  cases content <;> cases required <;> simp [held, filled, AllHold]

@[simp]
theorem allHold_flatMap {β : Type} {items : List β} {slots : β → List (Slot α)} :
    AllHold P (items.flatMap slots) ↔ ∀ item ∈ items, AllHold P (slots item) := by
  simp only [AllHold, List.mem_flatMap]
  constructor
  · intro h item hitem slot hslot
    exact h slot ⟨item, hitem, hslot⟩
  · rintro h slot ⟨item, hitem, hslot⟩
    exact h item hitem slot hslot

/-- Slots are filled as they have to be when each is filled, and what each holds is right. -/
theorem allHold_iff {slots : List (Slot α)} :
    AllHold P slots ↔ (∀ slot ∈ slots, slot.content.isSome) ∧
      ∀ place part, ⟨place, some part⟩ ∈ slots → P place part := by
  constructor
  · intro h
    refine ⟨fun slot hslot ↦ ?_, fun place part hpart ↦ holds_some.mp (h _ hpart)⟩
    obtain ⟨part, hpart, -⟩ := h slot hslot
    simp [hpart]
  · rintro ⟨hfilled, hparts⟩ ⟨place, content⟩ hslot
    obtain ⟨part, rfl⟩ := Option.isSome_iff_exists.mp (hfilled _ hslot)
    exact holds_some.mpr (hparts _ _ hslot)

theorem AllHold.mono {Q : Place → α → Prop} {slots : List (Slot α)} (h : AllHold P slots)
    (hmono : ∀ place part, P place part → Q place part) : AllHold Q slots := by
  intro slot hslot
  obtain ⟨part, hpart, hholds⟩ := h slot hslot
  exact ⟨part, hpart, hmono _ _ hholds⟩

end Slot

open Slot

variable {α : Type}

/-! ## The slots of shapes -/

def Param.slots (p : Param α) : List (Slot α) :=
  filled .expression p.decorators ++ held true .expression p.pattern ++
    filled .expression p.initial.toList

def Callable.slots (f : Callable α) : List (Slot α) :=
  f.params.flatMap (·.slots) ++ filled .statement f.body.toList

def ArrowBody.slots : ArrowBody α → List (Slot α)
  | .block body => filled .statement [body]
  | .expression value => filled .expression [value]

def Arrow.slots (f : Arrow α) : List (Slot α) := f.params.flatMap (·.slots) ++ f.body.slots

/-- Where a key stands: only a computed one is an expression. -/
def keyPlace (computed : Bool) : Place := if computed then .expression else .key

/-- Where the value of a property stands; methods and accessors hold a function. -/
def PropertyKind.valuePlace : PropertyKind → Place
  | .method | .getter | .setter => .function
  | .init | .shorthand | .spread => .expression

def Property.slots (p : Property α) : List (Slot α) :=
  held (p.kind != .spread) (keyPlace p.computed) p.key ++ held true p.kind.valuePlace p.value

def MemberKey.slots : MemberKey α → List (Slot α)
  | .named _ => []
  | .computed index => filled .expression [index]

namespace MemberKind

/-- The members that are functions. -/
def isFunction : MemberKind → Bool
  | .constructor | .method | .getter | .setter => true
  | .property | .indexSignature | .staticBlock => false

def valuePlace (kind : MemberKind) : Place := if kind.isFunction then .function else .expression

end MemberKind

def ClassMember.slots (m : ClassMember α) : List (Slot α) :=
  filled .expression m.decorators ++
    held (m.kind.isFunction || m.kind == .property) (keyPlace m.computed) m.key ++
    held m.kind.isFunction m.kind.valuePlace m.value ++
    held (m.kind == .staticBlock) .statement m.block

def ClassShape.slots (c : ClassShape α) : List (Slot α) :=
  filled .expression c.decorators ++ filled .expression c.superClass.toList ++
    c.members.flatMap (·.slots)

def Declarator.slots (d : Declarator α) : List (Slot α) :=
  filled .expression (d.target :: d.init.toList)

def SwitchCase.slots (c : SwitchCase α) : List (Slot α) :=
  filled .expression c.test.toList ++ filled .statement c.body

def TryShape.slots (t : TryShape α) : List (Slot α) :=
  filled .statement (t.block :: t.handler.toList ++ t.finalizer.toList) ++
    filled .expression t.param.toList

def DefaultExport.slots : DefaultExport α → List (Slot α)
  | .declaration node => filled .statement [node]
  | .expression node => filled .expression [node]

/-! ## Plain constructs -/

namespace Plain

def slots : Plain α → List (Slot α)
  | .identifier _ | .number _ _ | .string _ | .regex _ | .boolean _ | .null | .this | .super
  | .omitted | .jump _ _ | .empty | .debugger | .interface _ _ _ _ _ | .typeAlias _ _ _ _
  | .imports _ | .exportAll _ _ _ => []
  | .template _ holes => filled .expression holes
  | .taggedTemplate tag _ quasi => filled .expression [tag, quasi]
  | .array elements => filled .expression elements
  | .object properties => properties.flatMap (·.slots)
  | .function f => f.slots
  | .arrow f => f.slots
  | .unary _ operand _ => filled .expression [operand]
  | .await argument => filled .expression [argument]
  | .yield argument _ => filled .expression argument.toList
  | .binary _ left right => filled .expression [left, right]
  | .assignment _ target value => filled .expression [target, value]
  | .conditional test consequent alternate => filled .expression [test, consequent, alternate]
  | .call callee _ args _ => filled .expression (callee :: args)
  | .new callee _ args => filled .expression (callee :: args.getD [])
  | .member receiver key _ => filled .expression [receiver] ++ key.slots
  | .spread argument => filled .expression [argument]
  | .sequence parts => filled .expression parts
  | .paren inner => filled .expression [inner]
  | .cast inner _ _ => filled .expression [inner]
  | .nonNull inner => filled .expression [inner]
  | .assignmentPattern target initial => filled .expression [target, initial]
  | .block body => filled .statement body
  | .expressionStatement inner => filled .expression [inner]
  | .variableDeclaration _ declarators _ => declarators.flatMap (·.slots)
  | .ifElse test consequent alternate =>
    filled .expression [test] ++ filled .statement (consequent :: alternate.toList)
  | .switch discriminant cases => filled .expression [discriminant] ++ cases.flatMap (·.slots)
  | .forLoop init test update body =>
    filled .loopHead init.toList ++ filled .expression (test.toList ++ update.toList) ++
      filled .statement [body]
  | .forIn left right body _ _ =>
    filled .loopHead [left] ++ filled .expression [right] ++ filled .statement [body]
  | .whileLoop test body => filled .expression [test] ++ filled .statement [body]
  | .doWhile body test => filled .statement [body] ++ filled .expression [test]
  | .returnValue argument => filled .expression argument.toList
  | .throw argument => filled .expression [argument]
  | .tryCatch t => t.slots
  | .labeled _ body => filled .statement [body]
  | .functionDeclaration f _ => f.slots
  | .classDeclaration c => c.slots
  | .enum _ members _ _ => members.flatMap fun m ↦ filled .expression m.init.toList
  | .module _ _ body _ => filled .statement (body.getD [])
  | .exportNamed declaration _ _ _ => filled .statement declaration.toList
  | .exportDefault value => value.slots

def isExpression : Plain α → Bool
  | .identifier _ | .number _ _ | .string _ | .regex _ | .boolean _ | .null | .this | .super
  | .template _ _ | .taggedTemplate _ _ _ | .array _ | .object _ | .function _ | .arrow _
  | .unary _ _ _ | .await _ | .yield _ _ | .binary _ _ _ | .assignment _ _ _ | .conditional _ _ _
  | .call _ _ _ _ | .new _ _ _ | .member _ _ _ | .spread _ | .sequence _ | .paren _ | .cast _ _ _
  | .nonNull _ | .assignmentPattern _ _ | .omitted => true
  | _ => false

/-- Whether a construct can stand in a place. -/
def stands : Place → Plain α → Bool
  | .expression, form => form.isExpression
  | .statement, form => !form.isExpression
  | .loopHead, .variableDeclaration _ _ _ | .loopHead, .expressionStatement _ => true
  | .class_, .classDeclaration _ => true
  | .function, .function _ => true
  | .key, .identifier _ | .key, .number _ _ | .key, .string _ => true
  | .attributeValue, .string _ => true
  | _, _ => false

theorem eq_function_of_stands {form : Plain α} (h : form.stands .function) :
    ∃ f, form = .function f := by
  cases form with
  | function f => exact ⟨f, rfl⟩
  | _ => cases h

theorem eq_classDeclaration_of_stands {form : Plain α} (h : form.stands .class_) :
    ∃ c, form = .classDeclaration c := by
  cases form with
  | classDeclaration c => exact ⟨c, rfl⟩
  | _ => cases h

theorem eq_string_of_stands {form : Plain α} (h : form.stands .attributeValue) :
    ∃ value, form = .string value := by
  cases form with
  | string value => exact ⟨value, rfl⟩
  | _ => cases h

/-- A key that is not computed is a name, a number or a text. -/
theorem slots_of_stands_key {form : Plain α} (h : form.stands .key) : form.slots = [] := by
  cases form with
  | identifier | number | string => rfl
  | _ => cases h

theorem isExpression_of_stands_key {form : Plain α} (h : form.stands .key) :
    form.isExpression := by
  cases form with
  | identifier | number | string => rfl
  | _ => cases h

end Plain

/-! ## Constructs of the source -/

namespace Surface

def slots : Surface α → List (Slot α)
  | .program body => filled .statement body
  | .classExpression declaration => filled .class_ [declaration]
  | .component f => f.params.flatMap (·.slots) ++ held true .statement f.body
  | .element _ attributes children _ => filled .attribute attributes ++ filled .child children
  | .fragment children => filled .child children
  | .text _ _ => []
  | .container inner => held true .expression inner
  | .attr _ value isSpread =>
    held isSpread (if isSpread then .expression else .attributeValue) value

def stands : Place → Surface α → Bool
  | .expression, .classExpression _ => true
  | .statement, .component _ => true
  | .attribute, .attr _ _ _ => true
  | .attributeValue, .container _ | .child, .container _ | .child, .text _ _ => true
  | .expression, .element _ _ _ _ | .attributeValue, .element _ _ _ _ | .child, .element _ _ _ _ =>
    true
  | .expression, .fragment _ | .attributeValue, .fragment _ | .child, .fragment _ => true
  | _, _ => false

end Surface

/-! ## What a construct of the source keeps to -/

namespace Node

/-- The node is a name, or a name with a default. -/
def BindsPlainly (name : Bytes) (node : Node) : Prop :=
  node.name? = some name ∨
    ∃ range target initial, node = .plain range (.assignmentPattern target initial) ∧
      target.name? = some name

/-- The node is a function that has a body. -/
def HasBody (node : Node) : Prop :=
  ∃ range f, node = .plain range (.function f) ∧ f.body.isSome

end Node

/-- A shorthand names what it binds, methods and accessors have a body, and what is spread has no
key. -/
def Property.Regular (p : Property Node) : Prop :=
  match p.kind with
  | .init => True
  | .spread => p.key = none
  | .shorthand => p.computed = false ∧ ∃ name, p.key.bind Node.name? = some name ∧
      ∀ value ∈ p.value, value.BindsPlainly name
  | .method | .getter | .setter => ∀ value ∈ p.value, value.HasBody

/-- Only a static block has a block. It has neither key nor value, and no more has an index
signature. -/
def ClassMember.Regular (m : ClassMember α) : Prop :=
  match m.kind with
  | .staticBlock => m.key = none ∧ m.value = none
  | .indexSignature => m.key = none ∧ m.value = none ∧ m.block = none
  | _ => m.block = none

/-- A template has one chunk of text more than substitutions, a `switch` one default clause at most,
a `try` something behind its block, and a constant that is a statement of its own a value. -/
def Plain.Regular (place : Place) : Plain Node → Prop
  | .template quasis holes => quasis.length = holes.length + 1
  | .object properties => ∀ p ∈ properties, p.Regular
  | .switch _ cases => cases.countP (·.test.isNone) ≤ 1
  | .tryCatch t => t.handler.isSome ∨ t.finalizer.isSome
  | .classDeclaration c => ∀ m ∈ c.members, m.Regular
  | .variableDeclaration keyword declarators isDeclare =>
    place = .statement → keyword = bytes "const" → isDeclare = false →
      ∀ d ∈ declarators, d.init.isSome
  | _ => True

/-- An element has a tag of a kind, and text that folds to nothing is left out. -/
def Surface.Regular (Tag : Bytes → Prop) : Surface Node → Prop
  | .element tag _ _ _ => Tag tag
  | .text _ value => value ≠ []
  | _ => True

namespace Node

variable {Tag Tag' : Bytes → Prop} {place : Place} {range : Range}

/-- The node can stand in a place, and so can all of its parts in theirs; tags are of a kind. -/
inductive Fits (Tag : Bytes → Prop) : Place → Node → Prop
  | plain {place : Place} {range : Range} {form : Plain Node} (hstands : form.stands place)
    (hregular : form.Regular place) (hfilled : ∀ slot ∈ form.slots, slot.content.isSome)
    (hparts : ∀ place part, ⟨place, some part⟩ ∈ form.slots → Fits Tag place part) :
    Fits Tag place (.plain range form)
  | surface {place : Place} {range : Range} {form : Surface Node} (hstands : form.stands place)
    (hregular : form.Regular Tag) (hfilled : ∀ slot ∈ form.slots, slot.content.isSome)
    (hparts : ∀ place part, ⟨place, some part⟩ ∈ form.slots → Fits Tag place part) :
    Fits Tag place (.surface range form)

theorem fits_plain_iff {form : Plain Node} : (Node.plain range form).Fits Tag place ↔
    form.stands place ∧ form.Regular place ∧ AllHold (Fits Tag) form.slots := by
  rw [allHold_iff]
  constructor
  · rintro ⟨hstands, hregular, hfilled, hparts⟩
    exact ⟨hstands, hregular, hfilled, hparts⟩
  · rintro ⟨hstands, hregular, hfilled, hparts⟩
    exact .plain hstands hregular hfilled hparts

theorem fits_surface_iff {form : Surface Node} : (Node.surface range form).Fits Tag place ↔
    form.stands place ∧ form.Regular Tag ∧ AllHold (Fits Tag) form.slots := by
  rw [allHold_iff]
  constructor
  · rintro (_ | ⟨hstands, hregular, hfilled, hparts⟩)
    exact ⟨hstands, hregular, hfilled, hparts⟩
  · rintro ⟨hstands, hregular, hfilled, hparts⟩
    exact .surface hstands hregular hfilled hparts

theorem Fits.of_plain {form : Plain Node} (hstands : form.stands place)
    (hregular : form.Regular place) (hslots : AllHold (Fits Tag) form.slots) :
    (Node.plain range form).Fits Tag place :=
  fits_plain_iff.mpr ⟨hstands, hregular, hslots⟩

theorem Fits.of_surface {form : Surface Node} (hstands : form.stands place)
    (hregular : form.Regular Tag) (hslots : AllHold (Fits Tag) form.slots) :
    (Node.surface range form).Fits Tag place :=
  fits_surface_iff.mpr ⟨hstands, hregular, hslots⟩

theorem identifier_fits {name : Bytes} :
    (Node.plain range (.identifier name)).Fits Tag .expression :=
  .of_plain rfl trivial (by simp [Plain.slots])

/-- Elements and fragments stand between tags and behind an attribute's name as well. -/
theorem Fits.of_isMarkup {node : Node} {other : Place} (h : node.Fits Tag place)
    (hmarkup : node.isMarkup) (hother : other = .attributeValue ∨ other = .child) :
    node.Fits Tag other := by
  cases h with
  | plain => cases hmarkup
  | @surface _ _ form _ hregular hfilled hparts =>
    refine .surface ?_ hregular hfilled hparts
    cases form with
    | element | fragment => rcases hother with rfl | rfl <;> rfl
    | _ => exact absurd hmarkup Bool.false_ne_true

/-- Behind an attribute's name stands an expression, or one in braces. -/
theorem Fits.attributeValue_cases {node : Node} (h : node.Fits Tag .attributeValue) :
    node.Fits Tag .expression ∨
      ∃ range inner, node = .surface range (.container (some inner)) ∧
        inner.Fits Tag .expression := by
  cases h with
  | plain hstands =>
    obtain ⟨value, rfl⟩ := Plain.eq_string_of_stands hstands
    exact .inl (.of_plain rfl trivial (by simp [Plain.slots]))
  | @surface _ range form hstands hregular hfilled hparts =>
    cases form with
    | element | fragment => exact .inl (.surface rfl hregular hfilled hparts)
    | container inner =>
      obtain ⟨inner, rfl⟩ := Option.isSome_iff_exists.mp (hfilled _ List.mem_cons_self)
      exact .inr ⟨range, inner, rfl, hparts _ _ List.mem_cons_self⟩
    | _ => cases hstands

/-- Between tags stand text, expressions in braces, elements and fragments. -/
theorem Fits.child_cases {node : Node} (h : node.Fits Tag .child) :
    (node.Fits Tag .expression ∧ node.isMarkup) ∨
      (∃ range raw value, node = .surface range (.text raw value)) ∨
      ∃ range inner, node = .surface range (.container (some inner)) ∧
        inner.Fits Tag .expression := by
  cases h with
  | @plain _ _ form hstands => cases form <;> cases hstands
  | @surface _ range form hstands hregular hfilled hparts =>
    cases form with
    | element | fragment => exact .inl ⟨.surface rfl hregular hfilled hparts, rfl⟩
    | text raw value => exact .inr (.inl ⟨range, raw, value, rfl⟩)
    | container inner =>
      obtain ⟨inner, rfl⟩ := Option.isSome_iff_exists.mp (hfilled _ List.mem_cons_self)
      exact .inr (.inr ⟨range, inner, rfl, hparts _ _ List.mem_cons_self⟩)
    | _ => cases hstands

theorem Fits.attribute_cases {node : Node} (h : node.Fits Tag .attribute) :
    ∃ range name value isSpread, node = .surface range (.attr name value isSpread) ∧
      (isSpread = true → value.isSome) ∧
      ∀ part ∈ value, part.Fits Tag (if isSpread then .expression else .attributeValue) := by
  cases h with
  | @plain _ _ form hstands => cases form <;> cases hstands
  | @surface _ range form hstands hregular hfilled hparts =>
    cases form with
    | attr name value isSpread =>
      have hslots : AllHold (Fits Tag) (Surface.attr name value isSpread).slots :=
        allHold_iff.mpr ⟨hfilled, hparts⟩
      exact ⟨range, name, value, isSpread, rfl, allHold_held.mp hslots⟩
    | _ => cases hstands

theorem Fits.class_cases {node : Node} (h : node.Fits Tag .class_) :
    ∃ range c, node = .plain range (.classDeclaration c) ∧ AllHold (Fits Tag) c.slots ∧
      ∀ m ∈ c.members, m.Regular := by
  cases h with
  | @plain _ range _ hstands hregular hfilled hparts =>
    obtain ⟨c, rfl⟩ := Plain.eq_classDeclaration_of_stands hstands
    exact ⟨range, c, rfl, allHold_iff.mpr ⟨hfilled, hparts⟩, hregular⟩
  | @surface _ _ form hstands => cases form <;> cases hstands

theorem Fits.mono {node : Node} (h : node.Fits Tag place) (hmono : ∀ tag, Tag tag → Tag' tag) :
    node.Fits Tag' place := by
  induction h with
  | plain hstands hregular hfilled _ ih => exact .plain hstands hregular hfilled ih
  | @surface place range form hstands hregular hfilled _ ih =>
    refine .surface hstands ?_ hfilled ih
    cases form <;> first | exact hregular | exact hmono _ hregular

/-- Where a construct starts does not matter. -/
theorem Fits.startingAt {node : Node} (h : node.Fits Tag place) (start : Position) :
    (node.startingAt start).Fits Tag place := by
  cases h with
  | plain hstands hregular hfilled hparts => exact .plain hstands hregular hfilled hparts
  | surface hstands hregular hfilled hparts => exact .surface hstands hregular hfilled hparts

end Node

end SignalView
