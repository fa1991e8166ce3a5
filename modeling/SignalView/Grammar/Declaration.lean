import SignalView.Grammar.Expression

/-!
# Declarations

Variables, functions, components, interfaces, type aliases, enumerations, namespaces and what
stands behind `declare`.
-/

namespace SignalView.Grammar

open Parse

variable (g : Grammar)

/-! ## Variables -/

/-- Whether variables are declared here; `let` is a name unless a binding follows it. -/
def atVariables : Parse Bool := do
  match (← current).kind with
  | .word .var | .word .const => return true
  | .word .let_ =>
    return (← markAhead 1 .openBracket) || (← markAhead 1 .openBrace) || (← nameAhead 1)
  | _ => return false

/-- Where variables are declared: as a statement, after `declare`, or in the head of a loop. -/
inductive VariablePlace where
  | statement | ambient | loopHead
  deriving DecidableEq

/-- A declarator, and whether another one may follow it. In the head of a loop nothing follows the
variable that runs through a collection. -/
def declarator (place : VariablePlace) (keyword : Bytes) : Parse (Declarator Node × Bool) := do
  let target ← g.bindingTarget
  let definite := (← atMark .bang) && (← touchesPrevious)
  if definite then advance
  let type ← g.annotation
  let bare : Declarator Node := { target := target, type := type, definite := definite }
  if place == .loopHead && ((← atWord .of) || (← atWord .in_)) then return (bare, false)
  else if ← acceptMark .assign then return ({ bare with init := some (← g.assignment) }, true)
  else if keyword == bytes "const" && place == .statement then
    fail "PSR-P005" "Missing initializer in const declaration"
  else return (bare, true)

def declarators (place : VariablePlace) (keyword : Bytes) :
    Parse (List (Declarator Node) × Bool) :=
  iterate (fun state ↦ do
    let (next, mayContinue) ← g.declarator place keyword
    let more ← if mayContinue then acceptMark .comma else pure false
    return ((state.1 ++ [next], mayContinue), more)) g.rounds ([], true)

def variableDeclaration (place : VariablePlace) : Parse Node := do
  let start ← current
  advance
  let (declarators, _) ← g.declarators place start.value
  if place != .loopHead then semicolon
  node start (.variableDeclaration start.value declarators (place == .ambient))

/-! ## Functions and components -/

/-- A function declaration that starts at a token; only behind `default` it may have no name. -/
def functionDeclaration (start : Token) (mayBeAnonymous isAsync isDeclare : Bool) : Parse Node := do
  expectWord .function "Expected 'function'"
  let isGenerator ← acceptMark .star
  let isNamed ← nameAhead 0
  if !isNamed && !mayBeAnonymous then fail "PSR-P004" "Expected function name"
  let name ← textIf (return isNamed) take
  let f ← g.signature { name := name, isAsync := isAsync, isGenerator := isGenerator }
  let hasBody := (← atMark .openBrace) && !isDeclare
  let body ← optionally (return hasBody) g.block
  if !hasBody then semicolon
  node start (.functionDeclaration { f with body := body } isDeclare)

/-- Whether the token before the cursor is `default`. -/
def afterDefault : Parse Bool := do
  return (← cursor).before.head?.any (·.kind == .word .default)

def plainFunction (isDeclare : Bool) : Parse Node := do
  let mayBeAnonymous ← afterDefault
  g.functionDeclaration (← current) mayBeAnonymous false isDeclare

def asyncFunction (isDeclare : Bool) : Parse Node := do
  let mayBeAnonymous ← afterDefault
  let start ← current
  advance
  g.functionDeclaration start mayBeAnonymous true isDeclare

/-- Whether `async` starts a function here. -/
def atAsyncFunction : Parse Bool := do
  return (← wordAhead 1 .function) && !(← peek 1).newlineBefore

/-- Whether `component` starts a declaration here and is no name. -/
def atComponent : Parse Bool := do
  return (← nameAhead 1) && ((← markAhead 2 .openParen) || (← markAhead 2 .typeOpen))

def componentDeclaration : Parse Node := do
  let start ← current
  expectWord .component "Expected 'component'"
  let name ← expectName "Expected component name"
  let f ← g.signature { name := name }
  if !(← atMark .openBrace) then fail "PSR-P002" "Expected '\x7b' to open component body"
  let body ← g.block
  surface start (.component { f with body := some body })

/-! ## Types -/

def interface (isDeclare : Bool) : Parse Node := do
  let start ← current
  expectWord .interface "Expected 'interface'"
  let name ← expectName "Expected interface name"
  let typeParameters ← g.optionalTypeParameters
  let extended ← if ← acceptWord .extends_ then separated g.rounds .comma g.type else pure []
  expectMark .openBrace "Expected '\x7b' to open interface body"
  let members ← g.typeMembers
  expectMark .closeBrace "Expected '\x7d' to close interface body"
  node start (.interface name typeParameters extended members isDeclare)

def typeAlias (isDeclare : Bool) : Parse Node := do
  let start ← current
  expectWord .type "Expected 'type'"
  let name ← expectName "Expected type alias name"
  let typeParameters ← g.optionalTypeParameters
  expectMark .assign "Expected '=' in type alias"
  let type ← g.type
  semicolon
  node start (.typeAlias name typeParameters type isDeclare)

def enumMember : Parse (EnumMember Node) := do
  let token ← current
  if !token.kind.isPropertyName then fail "PSR-P004" "Expected enum member name"
  advance
  let name := if token.kind == .string then Quoted.quoted token.value else token.value
  return { name := name, init := ← optionally (acceptMark .assign) g.assignment }

/-- An enumeration; a constant one starts at the word `const`, which has been read. -/
def enumeration (isConst isDeclare : Bool) : Parse Node := do
  let start ← if isConst then previous else current
  expectWord .enum "Expected 'enum'"
  let name ← expectName "Expected enum name"
  expectMark .openBrace "Expected '\x7b' to open enum body"
  let members ← commaList g.rounds (beforeMark .closeBrace) g.enumMember
  expectMark .closeBrace "Expected '\x7d' to close enum body"
  node start (.enum name members isConst isDeclare)

/-! ## Namespaces -/

def namespaceName : Parse Bytes := do
  let token ← current
  if ← accept .string then return Quoted.quoted token.value
  else
    let name ← expectName "Expected namespace name"
    let path ← dottedNames g.rounds (expectName "Expected namespace name after '.'")
    return name ++ path

/-- A namespace, a module, or the global scope, whose keyword is also its name. -/
def namespaceDeclaration (isDeclare : Bool) : Parse Node := do
  let start ← current
  let isGlobal ← atSpelling "global"
  advance
  let name ← if isGlobal then pure (bytes "global") else g.namespaceName
  if ← acceptMark .openBrace then
    let body ← manyWhile g.rounds (beforeMark .closeBrace) g.statement
    expectMark .closeBrace "Expected '\x7d' to close namespace body"
    node start (.module start.value name (some body) isDeclare)
  else
    semicolon
    node start (.module start.value name none isDeclare)

/-! ## Ambient declarations and decorators -/

def ambient : Parse Node := do
  match (← current).kind with
  | .word .var | .word .let_ => g.variableDeclaration .ambient
  | .word .const =>
    if ← wordAhead 1 .enum then
      advance
      g.enumeration true true
    else g.variableDeclaration .ambient
  | .word .function => g.plainFunction true
  | .word .async => g.asyncFunction true
  | .word .class_ => g.classDeclaration [] false true
  | .word .abstract =>
    advance
    g.classDeclaration [] true true
  | .word .interface => g.interface true
  | .word .type => g.typeAlias true
  | .word .enum => g.enumeration false true
  | .word .namespace_ | .word .module_ => g.namespaceDeclaration true
  | _ =>
    if ← atSpelling "global" then g.namespaceDeclaration true
    else fail "PSR-P001" "Unexpected token after 'declare'"

/-- What stands behind `declare`, with a range that starts at that word. -/
def ambientDeclaration : Parse Node := do
  let start ← current
  advance
  return (← g.ambient).startingAt start.start

def maybeAbstractClass (decorators : List Node) : Parse Node := do
  let isAbstract ← acceptWord .abstract
  g.classDeclaration decorators isAbstract false

/-- A class behind decorators, which may stand in front of its export. -/
def decorated : Parse Node := do
  let decorators ← g.decorators
  let start ← current
  if ← acceptWord .export_ then
    let isDefault ← acceptWord .default
    let declaration ← g.maybeAbstractClass decorators
    if isDefault then node start (.exportDefault (.declaration declaration))
    else node start (.exportNamed (some declaration) [] [] false)
  else g.maybeAbstractClass decorators

end SignalView.Grammar
