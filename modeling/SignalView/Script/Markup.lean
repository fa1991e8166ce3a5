import SignalView.Script.Expression

/-!
# Writing views

A static element is built by one call. Any other is built by a function that creates it, wires its
bindings, adds its listeners and appends its children one by one. What may change over time is put
before an anchor and replaced whenever its signals change.
-/

namespace SignalView.Emission

open Emit

variable (e : Emission)

/-! ## Attributes -/

def attributeEntry (domNames : Bool) (a : ViewAttribute View) : Emit Bytes := do
  if a.isSpread then return bytes "..." ++ (← e.optionalExpression a.value)
  let key := Name.propertyKey (if domNames then Attribute.domProperty a.name else a.name)
  let value ← match a.value with
    | none => pure (bytes "true")
    | some value => e.expression value
  return key ++ bytes ": " ++ value

def elementCall (tag attributes children : Bytes) : Bytes :=
  bytes "t_element(" ++ Quoted.quoted tag ++ bytes ", " ++ attributes ++ bytes ", [" ++ children ++
    bytes "])"

def elementAttributes (element : ElementShape View) : Emit Bytes :=
  return bracedEntries (← element.attributes.mapM (e.attributeEntry true))

def staticElement (element : ElementShape View) : Emit Bytes := do
  let attributes ← e.elementAttributes element
  let children ← e.expressionList element.children
  return elementCall element.tag attributes children

/-- Sets an attribute and removes it when its value is null or false. -/
def attributeEffect (el : Bytes) (b : PropertyBinding View) : Emit Bytes := do
  e.useRuntime (bytes "createEffect")
  let v ← temporary "a"
  let name := Quoted.quoted b.property
  let body ← indented do
    let value ← e.expression b.expression
    let first ← e.line (bytes "const " ++ v ++ bytes " = " ++ value ++ bytes ";")
    let second ← e.line (bytes "if (" ++ v ++ bytes " == null || " ++ v ++ bytes " === false) " ++
      el ++ bytes ".removeAttribute(" ++ name ++ bytes ");")
    let third ← e.line (bytes "else " ++ el ++ bytes ".setAttribute(" ++ name ++
      bytes ", String(" ++ v ++ bytes "));")
    return first ++ second ++ third
  return (← e.line (bytes "createEffect(() => \x7b")) ++ body ++ (← e.line (bytes "\x7d);"))

def bindingLines (el : Bytes) (b : PropertyBinding View) : Emit Bytes := do
  if b.isAttribute then e.attributeEffect el b
  else
    e.useRuntime (bytes "$REGISTRY")
    let body ← e.arrowBody b.expression
    e.line (bytes "$REGISTRY.wire(" ++ el ++ bytes ", " ++ Quoted.quoted b.property ++
      bytes ", () => " ++ body ++ bytes ");")

def listenerLines (el : Bytes) (listener : Listener View) : Emit Bytes := do
  let handler ← e.expression listener.handler
  e.line (el ++ bytes ".addEventListener(" ++ Quoted.quoted listener.event ++ bytes ", " ++
    handler ++ bytes ");")

/-! ## Children -/

/-- Appends a value unless it is null or false. -/
def guardedLines (parent value : Bytes) : Emit Bytes := do
  let v ← temporary "v"
  return (← e.line (bytes "const " ++ v ++ bytes " = " ++ value ++ bytes ";")) ++
    (← e.line (bytes "if (" ++ v ++ bytes " != null && " ++ v ++ bytes " !== false) " ++ parent ++
      bytes ".append(" ++ v ++ bytes ");"))

/-- The head of a loop over a value that may be a list of lists or a single one. -/
def flatLoop (n v : Bytes) : Bytes :=
  bytes "for (const " ++ n ++ bytes " of Array.isArray(" ++ v ++ bytes ") ? " ++ v ++
    bytes ".flat(Infinity) : [" ++ v ++ bytes "]) \x7b"

/-- Appends each member of a list. -/
def listLines (parent : Bytes) (value : View) : Emit Bytes := do
  let v ← temporary "v"
  let n ← temporary "n"
  let text ← e.expression value
  let first ← e.line (bytes "const " ++ v ++ bytes " = " ++ text ++ bytes ";")
  let loop ← e.line (flatLoop n v)
  let body ← indented (e.line (bytes "if (" ++ n ++ bytes " != null && " ++ n ++
    bytes " !== false) " ++ parent ++ bytes ".append(" ++ n ++ bytes ");"))
  return first ++ loop ++ body ++ (← e.line (bytes "\x7d"))

/-- The names in the lines of a region that is rendered again and again. -/
structure RegionNames where
  anchor : Bytes
  nodes : Bytes
  value : Bytes
  member : Bytes
  node : Bytes

def regionNames : Emit RegionNames := do
  let anchor ← temporary "anchor"
  let nodes ← temporary "nodes"
  let value ← temporary "v"
  let member ← temporary "n"
  let node ← temporary "node"
  return { anchor := anchor, nodes := nodes, value := value, member := member, node := node }

/-- The lines that put each member of a region before its anchor. -/
def regionMembers (names : RegionNames) : Emit Bytes := do
  let n := names.member
  let skip ← e.line
    (bytes "if (" ++ n ++ bytes " == null || " ++ n ++ bytes " === false) continue;")
  let make ← e.line (bytes "const " ++ names.node ++ bytes " = " ++ n ++
    bytes " instanceof Node ? " ++ n ++ bytes " : document.createTextNode(String(" ++ n ++
    bytes "));")
  let insert ← e.line (names.anchor ++ bytes ".parentNode!.insertBefore(" ++ names.node ++
    bytes ", " ++ names.anchor ++ bytes ");")
  let keep ← e.line (names.nodes ++ bytes ".push(" ++ names.node ++ bytes ");")
  return skip ++ make ++ insert ++ keep

/-- The lines that run whenever the signals of a region change. -/
def regionBody (names : RegionNames) (value : View) : Emit Bytes := do
  let text ← e.expression value
  let n := names.member
  let first ← e.line (bytes "const " ++ names.value ++ bytes " = " ++ text ++ bytes ";")
  let clear ← e.line (bytes "for (const " ++ n ++ bytes " of " ++ names.nodes ++ bytes ") " ++ n ++
    bytes ".parentNode?.removeChild(" ++ n ++ bytes ");")
  let reset ← e.line (names.nodes ++ bytes " = [];")
  let loop ← e.line (flatLoop n names.value)
  let members ← indented (e.regionMembers names)
  return first ++ clear ++ reset ++ loop ++ members ++ (← e.line (bytes "\x7d"))

/-- A region for a value that may be nodes, lists or text: its nodes stand before a comment and are
replaced on every run of an effect. -/
def regionLines (parent : Bytes) (value : View) : Emit Bytes := do
  e.useRuntime (bytes "createEffect")
  let names ← regionNames
  let anchor ← e.line (bytes "const " ++ names.anchor ++ bytes " = document.createComment('');")
  let append ← e.line (parent ++ bytes ".appendChild(" ++ names.anchor ++ bytes ");")
  let nodes ← e.line (bytes "let " ++ names.nodes ++ bytes ": Node[] = [];")
  let effect ← e.line (bytes "createEffect(() => \x7b")
  let body ← indented (e.regionBody names value)
  return anchor ++ append ++ nodes ++ effect ++ body ++ (← e.line (bytes "\x7d);"))

/-- A text node whose content follows its signals. -/
def textLines (parent : Bytes) (isNullable : Bool) (value : View) : Emit Bytes := do
  e.useRuntime (bytes "$REGISTRY")
  let t ← temporary "t"
  let getter ←
    if isNullable then
      let v ← temporary "v"
      let text ← e.expression value
      pure (bytes "\x7b const " ++ v ++ bytes " = " ++ text ++ bytes "; return " ++ v ++
        bytes " == null || " ++ v ++ bytes " === false ? '' : String(" ++ v ++ bytes "); \x7d")
    else e.arrowBody value
  let make ← e.line (bytes "const " ++ t ++ bytes " = document.createTextNode('');")
  let wire ← e.line (bytes "$REGISTRY.wire(" ++ t ++ bytes ", 'textContent', () => " ++ getter ++
    bytes ");")
  return make ++ wire ++ (← e.line (parent ++ bytes ".appendChild(" ++ t ++ bytes ");"))

def isView : View → Bool
  | .rendered _ _ (.element _) | .rendered _ _ (.componentCall _ _ _)
  | .rendered _ _ (.fragment _) => true
  | _ => false

def nodeLines (parent : Bytes) (view : View) : Emit Bytes := do
  e.line (parent ++ bytes ".appendChild(" ++ (← e.expression view) ++ bytes ");")

/-- A value that is no view of its own, by its classification. A list that reads no signals is
rendered once. -/
def valueLines (parent : Bytes) (c : Classification) (isSpread : Bool) (value : View) :
    Emit Bytes := do
  let isList := isSpread || c.category == .loop || c.realization == .list
  let isReactive := c.category != .static && (!c.dependencies.isEmpty || c.category != .loop)
  if isReactive && c.isText && !isList then e.textLines parent c.isNullable value
  else if isReactive then e.regionLines parent value
  else if isList then e.listLines parent value
  else if c.realization == .guarded || c.isNullable then
    e.guardedLines parent (← e.expression value)
  else e.line (parent ++ bytes ".append(" ++ (← e.expression value) ++ bytes ");")

def childLines (parent : Bytes) (child : View) : Emit Bytes :=
  match child with
  | .rendered _ _ (.text value) =>
    e.line (parent ++ bytes ".appendChild(document.createTextNode(" ++ Quoted.quoted value ++
      bytes "));")
  | .rendered _ _ (.child classification value) =>
    if isView value then e.nodeLines parent value
    else
      match value with
      | .plain _ _ (.spread argument) => e.valueLines parent classification true argument
      | value => e.valueLines parent classification false value
  | child => e.nodeLines parent child

/-! ## Elements, fragments and calls -/

/-- A function that is called at once; its lines are written one level further in. -/
def immediate (lines : Emit Bytes) : Emit Bytes := do
  let lines ← indented lines
  return bytes "(() => \x7b\n" ++ lines ++ (← e.pad) ++ bytes "\x7d)()"

def elementText (element : ElementShape View) : Emit Bytes := do
  e.useRuntime (bytes "t_element")
  if element.isStatic then e.staticElement element
  else
    let el ← temporary "el"
    e.immediate do
      let attributes ← e.elementAttributes element
      let first ← e.line (bytes "const " ++ el ++ bytes " = " ++
        elementCall element.tag attributes [] ++ bytes ";")
      let bindings ← element.bindings.mapM (e.bindingLines el)
      let listeners ← element.listeners.mapM (e.listenerLines el)
      let children ← element.children.mapM (e.childLines el)
      let last ← e.line (bytes "return " ++ el ++ bytes ";")
      return first ++ bindings.flatten ++ listeners.flatten ++ children.flatten ++ last

def fragmentText (children : List View) : Emit Bytes := do
  let frag ← temporary "frag"
  e.immediate do
    let first ← e.line (bytes "const " ++ frag ++ bytes " = document.createDocumentFragment();")
    let children ← children.mapM (e.childLines frag)
    let last ← e.line (bytes "return " ++ frag ++ bytes ";")
    return first ++ children.flatten ++ last

def isSpreadChild : View → Bool
  | .rendered _ _ (.child _ (.plain _ _ (.spread _))) => true
  | _ => false

/-- The children of a component's call: one child by itself, several as a list. -/
def callChildren (children : List View) : Emit Bytes := do
  match children with
  | [child] =>
    if isSpreadChild child then return bytes "[" ++ (← e.expression child) ++ bytes "]"
    else e.expression child
  | children => return bytes "[" ++ (← e.expressionList children) ++ bytes "]"

def callText (name : Bytes) (props : List (ViewAttribute View)) (children : List View) :
    Emit Bytes := do
  let entries ← props.mapM (e.attributeEntry false)
  let childEntry ←
    if children.isEmpty then pure []
    else pure [bytes "children: " ++ (← e.callChildren children)]
  return name ++ bytes "(" ++ bracedEntries (entries ++ childEntry) ++ bytes ")"

end SignalView.Emission
