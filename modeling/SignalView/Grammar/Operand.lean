import SignalView.Grammar.TypeText

/-!
# Operands and what follows them

Argument lists, template literals, and the chain of member accesses, calls and assertions behind an
operand.
-/

namespace SignalView.Grammar

open Parse

variable (g : Grammar)

/-- One or more expressions with commas between them. -/
def expression : Parse Node := do
  let start ← current
  let first ← g.assignment
  if ← atMark .comma then
    let rest ← manyWhile g.rounds (acceptMark .comma) g.assignment
    node start (.sequence (first :: rest))
  else return first

/-- A part behind three dots, or something else. -/
def spreadOr (part otherwise : Parse Node) : Parse Node := do
  let start ← current
  if ← acceptMark .ellipsis then
    let argument ← part
    node start (.spread argument)
  else otherwise

def arguments : Parse (List Node) := do
  expectMark .openParen "Expected '('"
  let args ← allowingIn <|
    commaList g.rounds (beforeMark .closeParen) (spreadOr g.assignment g.assignment)
  expectMark .closeParen "Expected ')' after arguments"
  return args

/-! ## Templates -/

/-- One substitution and the chunk of text behind it. -/
def templateStep (parts : List Bytes × List Node) : Parse ((List Bytes × List Node) × Bool) := do
  let hole ← g.expression
  let piece ← current
  if ← accept (.template .middle) then
    return ((parts.1 ++ [piece.value], parts.2 ++ [hole]), true)
  let tail ← expect (.template .tail) "Expected '\x7d' to close template substitution"
  return ((parts.1 ++ [tail.value], parts.2 ++ [hole]), false)

def templateLiteral : Parse Node := do
  let start ← current
  if ← accept (.template .whole) then node start (.template [start.value] [])
  else
    let head ← expect (.template .head) "Expected template literal"
    let (quasis, holes) ← allowingIn (iterate g.templateStep g.rounds ([head.value], []))
    node start (.template quasis holes)

/-! ## Chains -/

/-- The link behind `?.`: a call, a computed member or a named one. -/
def optionalLink (start : Token) (receiver : Node) : Parse Node := do
  if ← atMark .openParen then
    let args ← g.arguments
    node start (.call receiver [] args true)
  else if ← acceptMark .openBracket then
    let index ← g.expression
    expectMark .closeBracket "Expected ']' after computed property"
    node start (.member receiver (.computed index) true)
  else
    let name ← expectMemberName "PSR-P004" "Expected property name after '?.'"
    node start (.member receiver (.named name) true)

/-- A call or a tagged template with type arguments; anything else in angle brackets belongs to
what encloses the chain. -/
def genericLink (start : Token) (receiver : Node) : Parse (Option Node) := do
  match ← kindAfterClosing with
  | some (.mark .openParen) =>
    let typeArguments ← g.typeArguments
    let args ← g.arguments
    return some (← node start (.call receiver typeArguments args false))
  | some (.template .whole) | some (.template .head) =>
    let typeArguments ← g.typeArguments
    let quasi ← g.templateLiteral
    return some (← node start (.taggedTemplate receiver typeArguments quasi))
  | _ => return none

/-- The next link of a chain, if there is one. -/
def link (start : Token) (calls : Bool) (receiver : Node) : Parse (Option Node) := do
  match (← current).kind with
  | .mark .dot =>
    advance
    let name ← expectMemberName "PSR-P004" "Expected property name after '.'"
    return some (← node start (.member receiver (.named name) false))
  | .mark .questionDot =>
    advance
    return some (← g.optionalLink start receiver)
  | .mark .openBracket =>
    advance
    let index ← allowingIn g.expression
    expectMark .closeBracket "Expected ']' after computed property"
    return some (← node start (.member receiver (.computed index) false))
  | .mark .openParen =>
    if calls then
      let args ← g.arguments
      return some (← node start (.call receiver [] args false))
    else return none
  | .mark .typeOpen => if calls then g.genericLink start receiver else return none
  | .template .whole | .template .head =>
    let quasi ← g.templateLiteral
    return some (← node start (.taggedTemplate receiver [] quasi))
  | .mark .bang =>
    if ← touchesPrevious then
      advance
      return some (← node start (.nonNull receiver))
    else return none
  | _ => return none

/-- All links behind an operand that starts at a token. -/
def chain (start : Token) (calls : Bool) (receiver : Node) : Parse Node :=
  iterate (fun receiver ↦ do
    match ← g.link start calls receiver with
    | some next => return (next, true)
    | none => return (receiver, false)) g.rounds receiver

def operand : Parse Node := do if ← atWord .new then g.construction else g.primary

def leftHandSide : Parse Node := do
  let start ← current
  let first ← g.operand
  g.chain start true first

def decorators : Parse (List Node) := manyWhile g.rounds (acceptMark .atSign) g.leftHandSide

/-- An expression with `new`; without an argument list the arguments are missing, not empty. -/
def constructionStep : Parse Node := do
  let start ← current
  expectWord .new "Expected 'new'"
  if ← acceptMark .dot then
    let keyword ← node start (.identifier (bytes "new"))
    let name ← expectName "Expected 'target' after 'new.'"
    node start (.member keyword (.named name) false)
  else
    let calleeStart ← current
    let first ← g.operand
    let callee ← g.chain calleeStart false first
    let typeArguments ← if ← atMark .typeOpen then g.typeArguments else pure []
    let args ← optionally (atMark .openParen) g.arguments
    node start (.new callee typeArguments args)

end SignalView.Grammar
