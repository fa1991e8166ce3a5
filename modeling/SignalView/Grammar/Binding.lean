import SignalView.Grammar.Operand

/-!
# Bindings, keys and parameters

Names and patterns that bind, the keys of properties, parameter lists, and the part of a function
from its type parameters to its body.
-/

namespace SignalView.Grammar

open Parse

variable (g : Grammar)

/-! ## Keys -/

/-- What a place accepts as a key, and what it says about one that is malformed. -/
structure KeyRules where
  isNumber : TokenKind → Bool
  unclosed : String
  missing : String

/-- A key, and whether it is computed. A string key takes its range before it is read, so it ends
with the token in front of it. -/
def propertyKey (rules : KeyRules) : Parse (Node × Bool) := do
  let start ← current
  if ← acceptMark .openBracket then
    let key ← g.assignment
    expectMark .closeBracket rules.unclosed
    return (key, true)
  else if start.kind == .string then
    let key ← node start (.string start.value)
    advance
    return (key, false)
  else if rules.isNumber start.kind then
    advance
    return (← node start (.number start.value false), false)
  else if start.kind.isPropertyName then
    advance
    return (← node start (.identifier start.value), false)
  else fail "PSR-P004" rules.missing

/-- A target with the default behind it, if there is one. -/
def withDefault (start : Token) (target : Node) : Parse Node := do
  if ← acceptMark .assign then
    let initial ← g.assignment
    node start (.assignmentPattern target initial)
  else return target

/-- The property that only names a binding. -/
def shorthandProperty (start : Token) (key : Node) (computed : Bool) (message : String) :
    Parse (Property Node) := do
  match key.name?, computed with
  | some name, false =>
    let target ← node start (.identifier name)
    let value ← g.withDefault start target
    return { kind := .shorthand, key := some key, value := some value }
  | _, _ => fail "PSR-P002" message

/-! ## Patterns -/

def bindingElement : Parse Node := do
  let start ← current
  let target ← g.bindingTarget
  g.withDefault start target

/-- The elements of an array or an array pattern; a comma without an element leaves one out. -/
def arrayElements (element : Parse Node) : Parse (List Node) :=
  looseList g.rounds (beforeMark .closeBracket) do
    let start ← current
    if ← acceptMark .comma then return (← node start .omitted, false)
    return (← element, true)

def patternProperty : Parse (Property Node) := do
  if ← acceptMark .ellipsis then
    return { kind := .spread, value := some (← g.bindingTarget) }
  let start ← current
  let (key, computed) ← g.propertyKey {
    isNumber := (· == .number)
    unclosed := "Expected ']' after computed key"
    missing := "Expected property name in object pattern" }
  if ← acceptMark .colon then
    return { key := some key, computed := computed, value := some (← g.bindingElement) }
  g.shorthandProperty start key computed "Expected ':' after property key in object pattern"

def bindingTargetStep : Parse Node := do
  let start ← current
  if ← acceptMark .openBracket then
    let elements ← g.arrayElements (spreadOr g.bindingTarget g.bindingElement)
    expectMark .closeBracket "Expected ']' to close array pattern"
    node start (.array elements)
  else if ← acceptMark .openBrace then
    let properties ← commaList g.rounds (beforeMark .closeBrace) g.patternProperty
    expectMark .closeBrace "Expected '\x7d' to close object pattern"
    node start (.object properties)
  else
    let name ← expectName "Expected binding name"
    node start (.identifier name)

/-! ## Functions -/

/-- A word that makes a constructor's parameter a property. -/
def atParamModifier : Parse Bool := do
  return ((← atWord .public_) || (← atWord .private_) || (← atWord .protected_) ||
      (← atWord .readonly) || (← atSpelling "override")) &&
    ((← nameAhead 1) || (← markAhead 1 .openBrace) || (← markAhead 1 .openBracket))

def param : Parse (Param Node) := do
  let decorators ← g.decorators
  let modifiers ← manyWhile g.rounds atParamModifier take
  let rest ← acceptMark .ellipsis
  let start ← current
  let pattern ←
    if ← acceptWord .this then node start (.identifier (bytes "this")) else g.bindingTarget
  let optional ← acceptMark .question
  let type ← g.annotation
  let initial ← optionally (acceptMark .assign) g.assignment
  return {
    pattern := some pattern, type := type, initial := initial, optional := optional, rest := rest
    modifiers := modifiers, decorators := decorators }

def params : Parse (List (Param Node)) := do
  expectMark .openParen "Expected '(' to open parameter list"
  let params ← commaList g.rounds (beforeMark .closeParen) g.param
  expectMark .closeParen "Expected ')' to close parameter list"
  return params

def block : Parse Node := do
  let start ← expect (.mark .openBrace) "Expected '\x7b'"
  let body ← manyWhile g.rounds (beforeMark .closeBrace) g.statement
  expectMark .closeBrace "Expected '\x7d' to close block"
  node start (.block body)

/-- The signature of a function from its type parameters to its return type. -/
def signature (f : Callable Node) : Parse (Callable Node) := do
  let typeParameters ← g.optionalTypeParameters
  let params ← g.params
  let returnType ← g.annotation
  return { f with typeParameters := typeParameters, params := params, returnType := returnType }

/-- The rest of a function behind its name. -/
def functionRest (bodyOptional : Bool) (f : Callable Node) : Parse (Callable Node) := do
  let f ← g.signature f
  if ← atMark .openBrace then return { f with body := some (← g.block) }
  else if bodyOptional then
    semicolon
    return f
  else fail "PSR-P002" "Expected '\x7b' to open function body"

/-- The function of a method, from its parameter list on. -/
def methodFunction (bodyOptional isAsync isGenerator : Bool) : Parse Node := do
  let start ← current
  let f ← g.functionRest bodyOptional { isAsync := isAsync, isGenerator := isGenerator }
  node start (.function f)

end SignalView.Grammar
