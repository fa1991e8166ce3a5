import SignalView.Lowering.Symbols

/-!
# Lowering expressions

Parts are lowered in the order of the source. Functions open a scope for their parameters; plain
keys are names and are never resolved.
-/

namespace SignalView.Lowering

open Lower

variable (l : Lowering)

/-! ## Lists and blocks -/

def expressions (nodes : List Node) : Lower (List View) := nodes.mapM l.expression

def optionalExpression (node : Option Node) : Lower (Option View) := node.mapM l.expression

/-- A block, perhaps in a scope of its own; anything else is lowered as a statement. -/
def block (newScope : Bool) : Node → Lower View
  | .plain range (.block body) => do
    let statements := body.mapM l.statement
    let body ← if newScope then inScope .block statements else statements
    return .plain range.start.line range.start.column (.block body)
  | node => l.statement node

/-! ## Functions -/

def params (ps : List (Param Node)) : Lower (List (Param View)) :=
  ps.mapM fun p ↦ do
    let decorators ← l.expressions p.decorators
    let pattern ← l.optionalExpression p.pattern
    let initial ← l.optionalExpression p.initial
    return {
      pattern := pattern, type := p.type, initial := initial, optional := p.optional, rest := p.rest
      modifiers := p.modifiers, decorators := decorators }

/-- The parameters and the body of a function, in the scope that is open. -/
def callable (f : Callable Node) : Lower (Callable View) := do
  declareParams f.params
  let params ← l.params f.params
  let body ← f.body.mapM (l.block false)
  return {
    name := f.name, typeParameters := f.typeParameters, params := params
    returnType := f.returnType, body := body, isAsync := f.isAsync, isGenerator := f.isGenerator }

def functionExpression (line column : Nat) (f : Callable Node) : Lower (Callable View) :=
  inScope .function do
    declare [] f.name .function (bytes "Function") line column
    l.callable f

def arrowBody : ArrowBody Node → Lower (ArrowBody View)
  | .block body => return .block (← l.block false body)
  | .expression value => return .expression (← l.expression value)

def arrow (f : Arrow Node) : Lower (Arrow View) := inScope .function do
  declareParams f.params
  let params ← l.params f.params
  let body ← l.arrowBody f.body
  return {
    typeParameters := f.typeParameters, params := params, returnType := f.returnType, body := body
    isAsync := f.isAsync }

/-! ## Keys, objects and classes -/

def propertyKey (computed : Bool) (key : Node) : Lower View :=
  match key, computed with
  | .plain range (.identifier name), false =>
    return .plain range.start.line range.start.column (.identifier name)
  | key, _ => l.expression key

def property (p : Property Node) : Lower (Property View) := do
  let key ← p.key.mapM (l.propertyKey p.computed)
  let value ← l.optionalExpression p.value
  return { kind := p.kind, key := key, computed := p.computed, value := value }

def memberKey : MemberKey Node → Lower (MemberKey View)
  | .named name => return .named name
  | .computed index => return .computed (← l.expression index)

def classMember (m : ClassMember Node) : Lower (ClassMember View) := do
  let decorators ← l.expressions m.decorators
  let key ← m.key.mapM (l.propertyKey m.computed)
  let value ← l.optionalExpression m.value
  let block ← m.block.mapM (l.block true)
  return {
    kind := m.kind, modifiers := m.modifiers, decorators := decorators, key := key
    computed := m.computed, optional := m.optional, definite := m.definite, type := m.type
    value := value, block := block }

def classShape (c : ClassShape Node) : Lower (ClassShape View) := do
  let decorators ← l.expressions c.decorators
  let superClass ← l.optionalExpression c.superClass
  let members ← inScope .function (c.members.mapM l.classMember)
  return {
    name := c.name, typeParameters := c.typeParameters, superClass := superClass
    superTypeArguments := c.superTypeArguments, implemented := c.implemented, members := members
    decorators := decorators, isAbstract := c.isAbstract, isDeclare := c.isDeclare }

/-! ## All expressions -/

/-- The failure of a construct that stands where its kind cannot. -/
def misplaced {α : Type} (node : Node) (place : String) : Lower α :=
  failAt "PSR-A009" (bytes "Unexpected " ++ bytes node.kindName ++ bytes " in " ++ bytes place ++
    bytes " position") node.line node.column

/-- A plain expression with its parts lowered. -/
def plainExpression (node : Node) : Plain Node → Lower (Plain View)
  | .identifier name => return .identifier (← resolve name)
  | .number raw isBigint => return .number raw isBigint
  | .string value => return .string value
  | .regex raw => return .regex raw
  | .boolean value => return .boolean value
  | .null => return .null
  | .this => return .this
  | .super => return .super
  | .template quasis holes => return .template quasis (← l.expressions holes)
  | .taggedTemplate tag typeArguments quasi => do
    let tag ← l.expression tag
    return .taggedTemplate tag typeArguments (← l.expression quasi)
  | .array elements => return .array (← l.expressions elements)
  | .object properties => return .object (← properties.mapM l.property)
  | .function f => return .function (← l.functionExpression node.line node.column f)
  | .arrow f => return .arrow (← l.arrow f)
  | .unary op operand leading => return .unary op (← l.expression operand) leading
  | .await argument => return .await (← l.expression argument)
  | .yield argument delegate => return .yield (← l.optionalExpression argument) delegate
  | .binary op left right => do
    let left ← l.expression left
    return .binary op left (← l.expression right)
  | .assignment op target value => do
    let target ← l.expression target
    return .assignment op target (← l.expression value)
  | .conditional test consequent alternate => do
    let test ← l.expression test
    let consequent ← l.expression consequent
    return .conditional test consequent (← l.expression alternate)
  | .call callee typeArguments args optional => do
    let callee ← l.expression callee
    return .call callee typeArguments (← l.expressions args) optional
  | .new callee typeArguments args => do
    let callee ← l.expression callee
    return .new callee typeArguments (← args.mapM l.expressions)
  | .member receiver key optional => do
    let receiver ← l.expression receiver
    return .member receiver (← l.memberKey key) optional
  | .spread argument => return .spread (← l.expression argument)
  | .sequence parts => return .sequence (← l.expressions parts)
  | .paren inner => return .paren (← l.expression inner)
  | .cast inner type keyword => return .cast (← l.expression inner) type keyword
  | .nonNull inner => return .nonNull (← l.expression inner)
  | .assignmentPattern target initial => do
    let target ← l.expression target
    return .assignmentPattern target (← l.expression initial)
  | .omitted => return .omitted
  | _ => misplaced node "expression"

def expressionStep (node : Node) : Lower View :=
  match node with
  | .plain _ form => return .plain node.line node.column (← l.plainExpression node form)
  | .surface _ form =>
    match form with
    | .classExpression (.plain _ (.classDeclaration c)) =>
      return .rendered node.line node.column (.classValue (← l.classShape c))
    | .element _ _ _ _ | .fragment _ => l.element node
    | .text _ value => return .rendered node.line node.column (.text value)
    | .container (some inner) => l.expression inner
    | .container none => return .plain node.line node.column .omitted
    | _ => misplaced node "expression"

end SignalView.Lowering
