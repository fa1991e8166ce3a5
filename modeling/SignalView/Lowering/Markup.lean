import SignalView.Lowering.Expression

/-!
# Lowering markup

An attribute of an element becomes a listener, a binding that follows its signals, or a value that
is set once. The children of an element are classified before they are lowered.
-/

namespace SignalView.Lowering

open Lower

variable (l : Lowering)

/-- What an attribute of an element is lowered to. -/
inductive AttributePart where
  | attr (a : ViewAttribute View)
  | listener (a : Listener View)
  | binding (a : PropertyBinding View)

namespace AttributePart

def attr? : AttributePart → Option (ViewAttribute View)
  | .attr a => some a
  | _ => none

def listener? : AttributePart → Option (Listener View)
  | .listener a => some a
  | _ => none

def binding? : AttributePart → Option (PropertyBinding View)
  | .binding a => some a
  | _ => none

end AttributePart

/-! ## Attributes -/

/-- The value of an attribute, without the braces around it. -/
def attributeValue : Node → Lower View
  | .surface _ (.container (some inner)) => l.expression inner
  | node => l.expression node

def isContainer : Node → Bool
  | .surface _ (.container _) => true
  | _ => false

def spreadAttribute (value : Option Node) : Lower (ViewAttribute View) :=
  return { isSpread := true, value := ← l.optionalExpression value }

/-- An attribute of an element, given its classification. -/
def elementAttribute (name : Bytes) (value : Option Node) (c : Classification) :
    Lower AttributePart := do
  match value with
  | none => return .attr { name := name, classification := c }
  | some value =>
    if c.category == .event && isContainer value then
      let handler ← l.attributeValue value
      noteListener
      return .listener { event := Attribute.eventName name, handler := handler }
    else if c.realization == .wired then
      let isAttribute := Attribute.isMarkup name
      noteDependencies c.dependencies
      let expression ← l.attributeValue value
      return .binding {
        property := if isAttribute then name else Attribute.domProperty name
        isAttribute := isAttribute, dependencies := c.dependencies, expression := expression }
    else
      return .attr { name := name, classification := c, value := some (← l.attributeValue value) }

/-- The attributes of an element; no property may be set twice. -/
def elementAttributes (tag : Bytes) (seen : List Bytes) : List Node → Lower (List AttributePart)
  | .surface range (.attr name value isSpread) :: rest => do
    if isSpread then
      let first ← l.spreadAttribute value
      return .attr first :: (← elementAttributes tag seen rest)
    else
      let key := Attribute.domProperty name
      if seen.contains key then
        failAt "PSR-A004"
          (bytes "Duplicate attribute '" ++ key ++ bytes "' on <" ++ tag ++ bytes ">")
          range.start.line range.start.column
      let classification := Classification.classifyAttribute (some (← state).symbols) name value
      let first ← l.elementAttribute name value classification
      return first :: (← elementAttributes tag (key :: seen) rest)
  | _ :: rest => elementAttributes tag seen rest
  | [] => return []

/-- A property of a component's call. -/
def callProp (name : Bytes) (value : Option Node) : Lower (ViewAttribute View) := do
  let classification := Classification.classifyAttribute (some (← state).symbols) name value
  if classification.category == .event then noteListener
  let value ← value.mapM l.attributeValue
  return { name := name, classification := classification, value := value }

def callProps : List Node → Lower (List (ViewAttribute View))
  | .surface _ (.attr name value isSpread) :: rest => do
    let first ← if isSpread then l.spreadAttribute value else l.callProp name value
    return first :: (← callProps rest)
  | _ :: rest => callProps rest
  | [] => return []

/-! ## Children -/

/-- A child; nothing for braces without an expression. -/
def markupChild : Node → Lower (Option View)
  | .surface range (.text _ value) =>
    return some (.rendered range.start.line range.start.column (.text value))
  | .surface range (.container inner) =>
    match inner with
    | none => return none
    | some inner => do
      let classification := Classification.classify (some (← state).symbols) inner
      noteDependencies classification.dependencies
      let expression ← l.expression inner
      return some (.rendered range.start.line range.start.column (.child classification expression))
  | node => return some (← l.expression node)

def markupChildren (nodes : List Node) : Lower (List View) :=
  return (← nodes.mapM l.markupChild).filterMap id

/-! ## Elements -/

/-- A call of the component that a tag names; a dotted tag uses the first name of its path. -/
def componentCall (tag : Bytes) (attributes children : List Node) : Lower (Rendered View) := do
  markUsed (tag.takeWhile (· != byte '.'))
  let props ← l.callProps attributes
  let children ← l.markupChildren children
  return .componentCall tag props children

def plainElement (tag : Bytes) (attributes children : List Node) : Lower (Rendered View) := do
  let parts ← l.elementAttributes tag [] attributes
  let listeners := parts.filterMap (·.listener?)
  let bindings := parts.filterMap (·.binding?)
  let children ← l.markupChildren children
  return .element {
    tag := tag, attributes := parts.filterMap (·.attr?), listeners := listeners
    bindings := bindings, children := children
    isStatic := listeners.isEmpty && bindings.isEmpty && children.all View.isStaticChild }

/-- An element or a fragment. -/
def elementStep (node : Node) : Lower View := do
  match node with
  | .surface _ (.element tag attributes children _) =>
    if tag.isEmpty then
      failAt "PSR-A002" (bytes "JSX element has no tag name") node.line node.column
    modify fun s ↦ { s with hasMarkup := true }
    let form ←
      if Node.isComponentTag tag then l.componentCall tag attributes children
      else l.plainElement tag attributes children
    return .rendered node.line node.column form
  | .surface _ (.fragment children) =>
    modify fun s ↦ { s with hasMarkup := true }
    return .rendered node.line node.column (.fragment (← l.markupChildren children))
  | node => misplaced node "expression"

end SignalView.Lowering
