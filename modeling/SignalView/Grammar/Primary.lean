import SignalView.Grammar.Class

/-!
# Primary expressions
-/

namespace SignalView.Grammar

open Parse

variable (g : Grammar)

def arrayLiteral : Parse Node := do
  let start ← current
  expectMark .openBracket "Expected '['"
  let elements ← allowingIn (g.arrayElements (spreadOr g.assignment g.assignment))
  expectMark .closeBracket "Expected ']' to close array literal"
  node start (.array elements)

/-! ## Object literals -/

/-- Whether a key follows the next word, so that the word is a modifier and no key itself. -/
def propertyNameFollows : Parse Bool := do
  match (← peek 1).kind with
  | .mark .colon | .mark .openParen | .mark .comma | .mark .closeBrace | .mark .assign
  | .mark .typeOpen => return false
  | _ => return true

def accessorProperty : Parse PropertyKind := do
  let kind := (← current).kind
  if (kind == .word .get || kind == .word .set) && (← propertyNameFollows) then
    advance
    return if kind == .word .get then .getter else .setter
  else return .init

def keyedProperty : Parse (Property Node) := do
  let isAsync := (← atWord .async) && (← propertyNameFollows) && !(← peek 1).newlineBefore
  if isAsync then advance
  let isGenerator ← acceptMark .star
  let kind ← accessorProperty
  let start ← current
  let (key, computed) ← g.propertyKey {
    isNumber := fun kind ↦ kind == .number || kind == .bigint
    unclosed := "Expected ']' after computed key"
    missing := "Expected property name in object literal" }
  if ← atSignature then
    let value ← g.methodFunction false isAsync isGenerator
    return {
      kind := if kind == .init then .method else kind
      key := some key, computed := computed, value := some value }
  else if kind != .init || isAsync || isGenerator then
    fail "PSR-P002" "Expected '(' after method name"
  else if ← acceptMark .colon then
    return { key := some key, computed := computed, value := some (← g.assignment) }
  else g.shorthandProperty start key computed "Expected ':' after property key"

def literalProperty : Parse (Property Node) := do
  if ← acceptMark .ellipsis then return { kind := .spread, value := some (← g.assignment) }
  else g.keyedProperty

def objectLiteral : Parse Node := do
  let start ← current
  expectMark .openBrace "Expected '\x7b'"
  let properties ← allowingIn (commaList g.rounds (beforeMark .closeBrace) g.literalProperty)
  expectMark .closeBrace "Expected '\x7d' to close object literal"
  node start (.object properties)

/-! ## Functions, classes and the rest -/

def functionExpression : Parse Node := do
  let start ← current
  let isAsync ← acceptWord .async
  expectWord .function "Expected 'function'"
  let isGenerator ← acceptMark .star
  let name ← textIf (nameAhead 0) take
  let f ← g.functionRest false { name := name, isAsync := isAsync, isGenerator := isGenerator }
  node start (.function f)

def classExpression : Parse Node := do
  let start ← current
  let decorators ← g.decorators
  let declaration ← g.classDeclaration decorators false false
  surface start (.classExpression declaration)

def parenthesized : Parse Node := do
  let start ← current
  advance
  let inner ← allowingIn g.expression
  expectMark .closeParen "Expected ')' after expression"
  node start (.paren inner)

/-- A one-token expression. -/
def leaf (start : Token) (form : Plain Node) : Parse Node := do
  advance
  node start form

def nameExpression (start : Token) : Parse Node := do
  if start.kind.isName then leaf start (.identifier start.value)
  else fail "PSR-P001" "Unexpected token in expression"

def primaryStep : Parse Node := do
  let start ← current
  match start.kind with
  | .number => leaf start (.number start.value false)
  | .bigint => leaf start (.number start.value true)
  | .string => leaf start (.string start.value)
  | .template .whole | .template .head => g.templateLiteral
  | .regex => leaf start (.regex start.value)
  | .word .true_ => leaf start (.boolean true)
  | .word .false_ => leaf start (.boolean false)
  | .word .null => leaf start .null
  | .word .this => leaf start .this
  | .word .super => leaf start .super
  | .word .import_ => leaf start (.identifier (bytes "import"))
  | .mark .openParen => g.parenthesized
  | .mark .openBracket => g.arrayLiteral
  | .mark .openBrace => g.objectLiteral
  | .word .function => g.functionExpression
  | .word .async =>
    if (← wordAhead 1 .function) && !(← peek 1).newlineBefore then g.functionExpression
    else nameExpression start
  | .word .class_ | .mark .atSign => g.classExpression
  | .mark .tagOpen => g.element
  | _ => nameExpression start

end SignalView.Grammar
