import SignalView.Component.Detection
import SignalView.Markup.Attribute
import SignalView.Scope.Table

/-!
# Classification of expressions

Whether the value of an expression in markup can change over time, which signals it reads, and how
it is put into its element. A call outside nested functions and nested markup makes a value change;
logical operators and conditionals are told apart by the markup in their branches.
-/

namespace SignalView

inductive Category where
  | static | dynamic | event | conditional | loop
  deriving DecidableEq, Repr

def Category.name : Category → Bytes
  | .static => bytes "static"
  | .dynamic => bytes "dynamic"
  | .event => bytes "event"
  | .conditional => bytes "conditional"
  | .loop => bytes "loop"

/-- How an expression is realised: evaluated once, wired to its signals, added as a listener,
appended unless it is empty, or flattened as a list. -/
inductive Realization where
  | direct | wired | listener | guarded | list
  deriving DecidableEq, Repr

def Realization.name : Realization → Bytes
  | .direct => bytes "direct"
  | .wired => bytes "registry-wire"
  | .listener => bytes "add-event-listener"
  | .guarded => bytes "guarded-append"
  | .list => bytes "list-reconcile"

/-- What is known about an expression; `isText` says that it is never a node, and complexity counts
the nodes of its tree. -/
structure Classification where
  category : Category := .static
  realization : Realization := .direct
  dependencies : List Bytes := []
  isNullable : Bool := false
  isText : Bool := false
  complexity : Nat := 0
  reason : Bytes := []
  deriving DecidableEq, Repr

/-! ## Types -/

namespace TypeText

def isUnknown (type : Bytes) : Bool := type == bytes "any" || type == bytes "unknown"

/-- Unknown types count as nullable. -/
def isNullable (type : Bytes) : Bool :=
  type.isEmpty || isUnknown type || (bytes "null").occursIn type ||
    (bytes "undefined").occursIn type

/-- The types whose values are rendered as text. -/
def primitives : List Bytes :=
  [bytes "string", bytes "number", bytes "boolean", bytes "bigint", bytes "null", bytes "undefined"]

def isPrimitive (type : Bytes) : Bool :=
  !type.isEmpty &&
    (Bytes.splitAt (byte '|') type).all fun part ↦ primitives.contains (Bytes.trim (· == 32) part)

/-- A type that is known and names no array. -/
def isNoArray (type : Bytes) : Bool :=
  !type.isEmpty && !(bytes "[]").occursIn type && !(bytes "Array").occursIn type && !isUnknown type

end TypeText

/-! ## Calls and markup -/

namespace Node

def isCall : Node → Bool
  | .plain _ (.call _ _ _ _) | .plain _ (.taggedTemplate _ _ _) => true
  | _ => false

/-- Whether there is a call among the parts of a node, outside nested functions and markup. -/
def containsCall (node : Node) : Bool :=
  (node.reach (fun part ↦ !part.isFunctionLike && !part.isMarkup) false).any (·.node.isCall)

/-- Whether the value of an expression changes over time. -/
def isDynamic (node : Node) : Bool :=
  node.isCall || (!node.isMarkup && !node.isFunctionLike && node.containsCall)

def holdsMarkup (node : Node) : Bool := node.isMarkup || node.ownDescendants.any isMarkup

/-- The name that a call calls. -/
def calledName? : Node → Option Bytes
  | .plain _ (.call callee _ _ _) => callee.name?
  | _ => none

end Node

/-! ## Questions that need the symbols -/

namespace Classification

section Symbols

variable (symbols : Option SymbolTable)

def lookup (name : Bytes) : Option Symbol := symbols.bind (·.lookup name)

/-- The signal that a call reads. -/
def getter? (callee : Node) : Option Symbol :=
  (callee.name?.bind (lookup symbols)).filter (·.kind == .signalGetter)

/-- Whether an expression may be null or false; what is not known counts as such. -/
def isNullableValue (node : Node) : Bool :=
  match node with
  | .plain _ (.paren inner) => isNullableValue inner
  | .plain _ (.conditional _ consequent alternate) =>
    isNullableValue consequent || isNullableValue alternate
  | .plain _ (.binary op _ right) =>
    op == bytes "&&" || (Node.isLogical op && isNullableValue right)
  | .plain _ (.identifier name) =>
    name == bytes "undefined" || (lookup symbols name).all fun s ↦ TypeText.isNullable s.type
  | .plain _ (.call callee _ _ _) =>
    (getter? symbols callee).all fun s ↦ TypeText.isNullable s.type
  | .plain _ (.cast _ type _) => TypeText.isNullable type
  | .plain _ (.string _) | .plain _ (.number _ _) | .plain _ (.template _ _)
  | .plain _ (.boolean _) | .plain _ (.regex _) | .plain _ (.array _) | .plain _ (.object _)
  | .plain _ (.unary _ _ _) | .plain _ (.nonNull _) | .plain _ (.new _ _ _) | .plain _ (.arrow _)
  | .plain _ (.function _) => false
  | .surface _ (.element _ _ _ _) | .surface _ (.fragment _) | .surface _ (.text _ _) => false
  | _ => true
termination_by structural node

/-- Whether an expression can only be rendered as text. -/
def isTextValue (node : Node) : Bool :=
  match node with
  | .plain _ (.paren inner) => isTextValue inner
  | .plain _ (.conditional _ consequent alternate) =>
    isTextValue consequent && isTextValue alternate
  | .plain _ (.binary op left right) =>
    !Node.isLogical op || (isTextValue right && (op == bytes "&&" || isTextValue left))
  | .plain _ (.identifier name) =>
    (lookup symbols name).any fun s ↦ s.kind != .signalGetter && TypeText.isPrimitive s.type
  | .plain _ (.call callee _ _ _) =>
    (getter? symbols callee).any fun s ↦ TypeText.isPrimitive s.type
  | .plain _ (.cast _ type _) => TypeText.isPrimitive type
  | .plain _ (.string _) | .plain _ (.number _ _) | .plain _ (.template _ _)
  | .plain _ (.boolean _) | .plain _ (.unary _ _ _) => true
  | _ => false
termination_by structural node

/-- The signals that an expression reads outside nested functions, sorted. -/
def dependenciesOf (node : Node) : List Bytes :=
  let names := (node :: node.ownDescendants).filterMap Node.calledName?
  sortedDistinct (names.filter fun name ↦ symbols.any (·.isSignalGetter name))

/-- The name whose value or whose getter's value a method is called on. -/
def receiverName? (receiver : Node) : Option Bytes :=
  match receiver with
  | .plain _ (.identifier name) => some name
  | .plain _ (.call callee _ _ _) => callee.name?
  | _ => none

/-- Whether an expression maps over a list. A receiver that is known to be no array is none. -/
def isLoop : Node → Bool
  | .plain _ (.call (.plain _ (.member receiver (.named method) _)) _ _ _) =>
    (method == bytes "map" || method == bytes "flatMap") &&
      !((receiverName? receiver).bind (lookup symbols)).any fun s ↦ TypeText.isNoArray s.type
  | _ => false

/-! ## Classifying -/

/-- The alternatives of a conditional or a logical operator: all operands, and those that may be
its value. -/
def alternatives? : Node → Option (List Node × List Node)
  | .plain _ (.conditional test consequent alternate) =>
    some ([test, consequent, alternate], [consequent, alternate])
  | .plain _ (.binary op left right) =>
    if Node.isLogical op then some ([left, right], [left, right]) else none
  | _ => none

/-- The classification of alternatives, given the facts about the whole expression. -/
def ofAlternatives (facts : Classification) (operands values : List Node) : Classification :=
  let hasMarkup := values.any Node.holdsMarkup
  if operands.any Node.isDynamic then
    { facts with
      category := .conditional
      realization := if hasMarkup then .guarded else .wired
      reason :=
        if hasMarkup then bytes "conditional rendering of JSX"
        else bytes "conditional value with a dynamic part" }
  else if hasMarkup then
    { facts with realization := .guarded, reason := bytes "conditional JSX over static values" }
  else { facts with reason := bytes "conditional over static values" }

/-- The classification of an expression in markup. -/
def classify (node : Node) : Classification :=
  let inner := node.unwrap
  let facts : Classification := {
    dependencies := dependenciesOf symbols node, isNullable := isNullableValue symbols inner
    isText := isTextValue symbols inner, complexity := node.count }
  if inner.isMarkup then
    { facts with isNullable := false, reason := bytes "JSX is lowered as its own element" }
  else if isLoop symbols inner then
    { facts with
      category := .loop, realization := .list, isNullable := false
      reason := bytes "list rendering through .map()" }
  else
    match alternatives? inner with
    | some (operands, values) => ofAlternatives facts operands values
    | none =>
      if inner.isDynamic then
        { facts with
          category := .dynamic
          realization := .wired
          reason :=
            match facts.dependencies with
            | [] => bytes "contains a call"
            | first :: _ => bytes "reads signal " ++ first }
      else { facts with reason := bytes "no calls" }

/-- The classification of an expression that may be missing. -/
def classify? : Option Node → Classification
  | none => { reason := bytes "empty expression" }
  | some node => classify symbols node

/-- The expression in a container. -/
def contained : Node → Option Node
  | .surface _ (.container expression) => expression
  | node => some node

/-- The classification of an attribute. Attributes are assigned and never appended, so what would
be a list or a conditional child is wired. -/
def classifyAttribute (name : Bytes) (value : Option Node) : Classification :=
  if Attribute.isEvent name then
    { category := .event, realization := .listener, reason := bytes "event handler attribute"
      complexity := (value.map Node.count).getD 0 }
  else
    match value.bind contained with
    | none => { reason := bytes "boolean attribute" }
    | some (.plain _ (.string _)) => { reason := bytes "string attribute", complexity := 1 }
    | some node =>
      let facts := classify symbols node
      match facts.category with
      | .loop => { facts with category := .dynamic, realization := .wired }
      | .conditional => { facts with realization := .wired }
      | _ => facts

end Symbols

end Classification

end SignalView
