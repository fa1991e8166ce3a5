import SignalView.Grammar.Primary

/-!
# Operators and arrow functions

Binary operators are read by climbing precedences; only exponentiation groups to the right. Casts
stand among the comparisons.
-/

namespace SignalView.Grammar

open Parse

variable (g : Grammar)

/-! ## Unary operators -/

/-- The tokens after which `await` is a plain name. -/
def awaitIsName : TokenKind → Bool
  | .mark .semicolon | .mark .closeParen | .mark .comma | .mark .assign | .mark .dot
  | .mark .arrow => true
  | _ => false

/-- An operand with an increment or decrement behind it on the same line. -/
def incremented : Parse Node := do
  let start ← current
  let operand ← g.leftHandSide
  if (← atMarks [.plusPlus, .minusMinus]) && !(← onNewLine) then
    let op ← take
    node start (.unary op operand false)
  else return operand

def unaryStep : Parse Node := do
  let start ← current
  match start.kind with
  | .mark .bang | .mark .tilde | .mark .plus | .mark .minus | .word .typeof | .word .void
  | .word .delete | .mark .plusPlus | .mark .minusMinus => nested do
    advance
    let operand ← g.unary
    node start (.unary start.value operand true)
  | .word .await =>
    if awaitIsName (← peek 1).kind then g.incremented
    else nested do
      advance
      let argument ← g.unary
      node start (.await argument)
  | _ => g.incremented

/-! ## Binary operators -/

/-- How strongly an operator binds; zero when the token is none. -/
def precedence : TokenKind → Nat
  | .mark .nullish | .mark .or => 1
  | .mark .and => 2
  | .mark .pipe => 3
  | .mark .caret => 4
  | .mark .ampersand => 5
  | .mark .eq | .mark .neq | .mark .strictEq | .mark .strictNeq => 6
  | .mark .lt | .mark .gt | .mark .le | .mark .ge | .word .instanceof | .word .in_ | .word .as
  | .word .satisfies => 7
  | .mark .shl | .mark .shr | .mark .ushr => 8
  | .mark .plus | .mark .minus => 9
  | .mark .star | .mark .slash | .mark .percent => 10
  | .mark .power => 11
  | _ => 0

/-- The next operator of at least some precedence with its right side, or a cast. -/
def binaryLink (least : Nat) (start : Token) (left : Node) : Parse (Option Node) := do
  let token ← current
  let strength := precedence token.kind
  if strength == 0 || strength < least then return none
  else if token.kind == .word .in_ && (← context).noIn then return none
  else if token.kind == .word .as || token.kind == .word .satisfies then
    if token.newlineBefore then return none
    advance
    let type ← g.type
    return some (← node start (.cast left type token.value))
  else
    advance
    let right ← g.binary (if token.kind == .mark .power then strength else strength + 1)
    return some (← node start (.binary token.value left right))

def binaryStep (least : Nat) : Parse Node := do
  let start ← current
  let first ← g.unary
  iterate (fun left ↦ do
    match ← g.binaryLink least start left with
    | some next => return (next, true)
    | none => return (left, false)) g.rounds first

def conditional : Parse Node := do
  let start ← current
  let test ← g.binary 1
  if ← acceptMark .question then
    let consequent ← allowingIn g.assignment
    expectMark .colon "Expected ':' in conditional expression"
    let alternate ← g.assignment
    node start (.conditional test consequent alternate)
  else return test

/-! ## Arrow functions -/

/-- Parameters in parentheses with a return type, or one bare name. -/
def arrowParams : Parse (List (Param Node) × Bytes) := do
  if ← atMark .openParen then
    let params ← g.params
    return (params, ← g.annotation)
  else
    let start ← current
    let name ← expectName "Expected arrow parameter"
    return ([{ pattern := some (← node start (.identifier name)) }], [])

def arrowFunction (isAsync : Bool) : Parse Node := do
  let start ← if isAsync then previous else current
  let typeParameters ← textIf (atMark .typeOpen) g.typeParameters
  let (params, returnType) ← g.arrowParams
  expectMark .arrow "Expected '=>'"
  let body ←
    if ← atMark .openBrace then pure (ArrowBody.block (← allowingIn g.block))
    else pure (ArrowBody.expression (← g.assignment))
  node start (.arrow {
    typeParameters := typeParameters, params := params, returnType := returnType, body := body
    isAsync := isAsync })

/-- Whether the word `async` is the start of an arrow function and not a name. -/
def atAsyncArrow : Parse Bool := do
  if (← atWord .async) && !(← peek 1).newlineBefore then
    if ← markAhead 1 .openParen then arrowAhead 1
    else return ((← nameAhead 1) && (← markAhead 2 .arrow)) || (← markAhead 1 .typeOpen)
  else return false

def atArrow : Parse Bool := do
  if ← atMark .openParen then arrowAhead 0
  else return ((← nameAhead 0) && (← markAhead 1 .arrow)) || (← atMark .typeOpen)

/-! ## Assignments -/

/-- The tokens that end a `yield` without a value. -/
def endsYield : TokenKind → Bool
  | .mark .closeParen | .mark .closeBracket | .mark .closeBrace | .mark .comma | .mark .semicolon
  | .mark .colon | .eof => true
  | _ => false

def yielding : Parse Node := do
  let start ← current
  advance
  let delegate ← acceptMark .star
  let next ← current
  let hasValue := !next.newlineBefore && !endsYield next.kind
  let argument ← optionally (return hasValue) g.assignment
  node start (.yield argument delegate)

def assignmentStep : Parse Node := nested do
  let start ← current
  if ← atAsyncArrow then
    advance
    g.arrowFunction true
  else if ← atArrow then g.arrowFunction false
  else if ← atWord .yield then g.yielding
  else
    let target ← g.conditional
    match (← current).kind with
    | .mark m =>
      if m.isAssignment then
        let op ← take
        let value ← g.assignment
        node start (.assignment op target value)
      else return target
    | _ => return target

end SignalView.Grammar
