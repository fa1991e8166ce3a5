import SignalView.Reactive.Classification
import SignalView.Syntax.Shape

/-!
# Shapes of views

The parts of what markup and components are lowered to: attributes that are set once, bindings that
follow their signals, listeners, and the facts about a component.
-/

namespace SignalView

/-- An attribute that is set when its element is built, or a property of a component's call. A bare
attribute has no value, and a spread has no name. -/
structure ViewAttribute (α : Type) where
  name : Bytes := []
  isSpread : Bool := false
  classification : Classification := {}
  value : Option α := none

/-- A property that is wired to an expression; markup attributes have no property and are set by
their name. -/
structure PropertyBinding (α : Type) where
  property : Bytes
  isAttribute : Bool
  dependencies : List Bytes
  expression : α

structure Listener (α : Type) where
  event : Bytes
  handler : α

/-- An element; a static one can be built by a single call. -/
structure ElementShape (α : Type) where
  tag : Bytes
  attributes : List (ViewAttribute α) := []
  listeners : List (Listener α) := []
  bindings : List (PropertyBinding α) := []
  children : List α := []
  isStatic : Bool := true

/-! ## Components -/

/-- How a component is written in the source. -/
inductive ComponentForm where
  | keyword | functionDeclaration | functionExpression | arrow
  deriving DecidableEq, Repr

/-- What the body of a component does: the signals that its markup reads, and whether it uses
signals and listeners at all. -/
structure ComponentFacts where
  dependencies : List Bytes := []
  usesSignals : Bool := false
  hasListeners : Bool := false
  deriving DecidableEq, Repr

structure Component (α : Type) where
  name : Bytes
  typeParameters : Bytes := []
  params : List (Param α) := []
  returnType : Bytes := []
  block : Option α := none
  value : Option α := none
  facts : ComponentFacts := {}
  isAsync : Bool := false
  form : ComponentForm
  strategy : Bytes
  line : Nat := 0
  column : Nat := 0

/-- The key under which a component is registered at run time. -/
def Component.registryKey {α : Type} (component : Component α) : Bytes :=
  bytes "component:" ++ component.name

end SignalView
