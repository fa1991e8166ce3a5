import SignalView.Markup.Attribute
import SignalView.Proofs.View.Subviews

/-!
# What lowered constructs keep to

No property of an element is set twice, no name is bound twice by the parameters of a component, and
what is left out of the output is left out of the view as well.
-/

namespace SignalView

/-- The names that the pattern of a parameter binds. -/
def Param.boundNames {α : Type} (names : α → List Bytes) (p : Param α) : List Bytes :=
  p.pattern.toList.flatMap names

/-- The properties of an element that its attributes and its bindings set; what an attribute that is
spread sets is not known. -/
def ElementShape.properties {α : Type} (e : ElementShape α) : List Bytes :=
  ((e.attributes.filter (!·.isSpread)).map fun a ↦ Attribute.domProperty a.name) ++
    e.bindings.map (·.property)

/-- No property is set twice, and a static element has nothing that is added later on. -/
structure ElementShape.Sound (e : ElementShape View) : Prop where
  distinct : e.properties.Nodup
  static : e.isStatic → e.listeners = [] ∧ e.bindings = []

/-- No name is bound twice, only the last parameter takes the rest, and the body is a block or a
value. -/
structure Component.Sound (c : Component View) : Prop where
  distinct : (c.params.flatMap (·.boundNames View.boundNames)).Nodup
  rest : ∀ p ∈ c.params.dropLast, p.rest = false
  body : c.block.isSome → c.value = none

/-- What is spread has no key, and the key of a shorthand is a name. -/
def Property.Sound (p : Property View) : Prop :=
  match p.kind with
  | .spread => p.key = none
  | .shorthand => p.computed = false ∧ (p.key.bind View.name?).isSome
  | _ => True

/-- A template has one chunk of text more than substitutions, only a `catch` clause has a parameter,
and members have no more than their kind has room for. -/
def Plain.Sound : Plain View → Prop
  | .template quasis holes => quasis.length = holes.length + 1
  | .object properties => ∀ p ∈ properties, p.Sound
  | .classDeclaration c => ∀ m ∈ c.members, m.Regular
  | .tryCatch t => t.handler = none → t.param = none
  | _ => True

def Rendered.Sound : Rendered View → Prop
  | .component c => c.Sound
  | .classValue c => ∀ m ∈ c.members, m.Regular
  | .element e => e.Sound
  | _ => True

namespace View

def Sound : View → Prop
  | .plain _ _ form => form.Sound
  | .rendered _ _ form => form.Sound

/-- The component that a view is. -/
def component? : View → Option (Component View)
  | .rendered _ _ (.component c) => some c
  | _ => none

end View

end SignalView
