import SignalView.Grammar.Module

/-!
# Statements

Most statements are told by their first token. Contextual words start a declaration only when what
follows them fits, and are names otherwise.
-/

namespace SignalView.Grammar

open Parse

variable (g : Grammar)

/-! ## Conditions -/

/-- An expression in parentheses behind a keyword. -/
def condition (keyword closing : String) : Parse Node := do
  expectMark .openParen ("Expected '(' after '" ++ keyword ++ "'")
  let test ← g.expression
  expectMark .closeParen ("Expected ')' after " ++ closing)
  return test

def ifStatement : Parse Node := do
  let start ← current
  advance
  let test ← g.condition "if" "if condition"
  let consequent ← g.statement
  let alternate ← optionally (acceptWord .else_) g.statement
  node start (.ifElse test consequent alternate)

def beforeCase : Parse Bool := do
  return !(← atWord .case) && !(← atWord .default) && (← beforeMark .closeBrace)

/-- One clause, given whether there has been a default clause. -/
def switchCase (hasDefault : Bool) : Parse (SwitchCase Node × Bool) := do
  let isDefault ← atWord .default
  let test ← optionally (acceptWord .case) g.expression
  if test.isNone then
    if !isDefault then fail "PSR-P001" "Expected 'case' or 'default'"
    if hasDefault then fail "PSR-P006" "Multiple default clauses in switch"
    advance
  expectMark .colon "Expected ':' after case label"
  let body ← manyWhile g.rounds beforeCase g.statement
  return ({ test := test, body := body }, hasDefault || isDefault)

def switchCases : Parse (List (SwitchCase Node) × Bool) :=
  iterate (fun state ↦ do
    if ← beforeMark .closeBrace then
      let (next, hasDefault) ← g.switchCase state.2
      return ((state.1 ++ [next], hasDefault), true)
    return (state, false)) g.rounds ([], false)

def switchStatement : Parse Node := do
  let start ← current
  advance
  let discriminant ← g.condition "switch" "switch discriminant"
  expectMark .openBrace "Expected '\x7b' to open switch body"
  let (cases, _) ← g.switchCases
  expectMark .closeBrace "Expected '\x7d' to close switch body"
  node start (.switch discriminant cases)

/-! ## Loops -/

/-- What stands before the first semicolon of a loop's head or before `of` and `in`. -/
def loopInit : Parse Node := withoutIn do
  if ← atVariables then g.variableDeclaration .loopHead
  else
    let start ← current
    let expression ← g.expression
    node start (.expressionStatement expression)

/-- The rest of a loop with two semicolons in its head. -/
def countedLoop (start : Token) (init : Option Node) : Parse Node := do
  expectMark .semicolon "Expected ';' after for-loop initializer"
  let test ← optionally (return !(← atMark .semicolon)) g.expression
  expectMark .semicolon "Expected ';' after for-loop condition"
  let update ← optionally (return !(← atMark .closeParen)) g.expression
  expectMark .closeParen "Expected ')' after for-loop header"
  let body ← g.statement
  node start (.forLoop init test update body)

/-- The rest of a loop over the elements or the keys of something. -/
def collectionLoop (start : Token) (left : Node) (isAwait : Bool) : Parse Node := do
  let isOf ← atWord .of
  advance
  let right ← if isOf then g.assignment else g.expression
  expectMark .closeParen "Expected ')' after for-of/in header"
  let body ← g.statement
  node start (.forIn left right body isOf isAwait)

def forStatement : Parse Node := do
  let start ← current
  advance
  let isAwait ← acceptWord .await
  expectMark .openParen "Expected '(' after 'for'"
  if ← atMark .semicolon then g.countedLoop start none
  else
    let init ← g.loopInit
    if (← atWord .of) || (← atWord .in_) then g.collectionLoop start init isAwait
    else g.countedLoop start (some init)

def whileStatement : Parse Node := do
  let start ← current
  advance
  let test ← g.condition "while" "while condition"
  let body ← g.statement
  node start (.whileLoop test body)

def doWhileStatement : Parse Node := do
  let start ← current
  advance
  let body ← g.statement
  expectWord .while_ "Expected 'while' after do body"
  let test ← g.condition "while" "do-while condition"
  discard (acceptMark .semicolon)
  node start (.doWhile body test)

/-! ## Jumps -/

/-- `break` and `continue` with a label on the same line, if there is one. -/
def jump (isBreak : Bool) : Parse Node := do
  let start ← current
  advance
  let hasLabel := (← nameAhead 0) && !(← onNewLine)
  let label ← textIf (return hasLabel) take
  semicolon
  node start (.jump isBreak label)

def returnStatement : Parse Node := do
  let start ← current
  advance
  let hasValue := !(← atMarks [.semicolon, .closeBrace]) && !(← atEnd) && !(← onNewLine)
  let argument ← optionally (return hasValue) g.expression
  semicolon
  node start (.returnValue argument)

def throwStatement : Parse Node := do
  let start ← current
  advance
  if ← onNewLine then fail "PSR-P001" "Line break is not allowed after 'throw'"
  let argument ← g.expression
  semicolon
  node start (.throw argument)

/-- The parameter of a `catch` clause and its type, both possibly missing. -/
def catchParam : Parse (Option Node × Bytes) := do
  if ← acceptMark .openParen then
    let param ← g.bindingTarget
    let type ← g.annotation
    expectMark .closeParen "Expected ')' after catch parameter"
    return (some param, type)
  else return (none, [])

def tryStatement : Parse Node := do
  let start ← current
  advance
  let block ← g.block
  let clause ← optionally (acceptWord .catch_) do
    let param ← g.catchParam
    return (param, ← g.block)
  let finalizer ← optionally (acceptWord .finally_) g.block
  if clause.isNone && finalizer.isNone then
    fail "PSR-P002" "Expected 'catch' or 'finally' after try block"
  node start (.tryCatch {
    block := block, param := clause.bind (·.1.1), paramType := (clause.map (·.1.2)).getD []
    handler := clause.map (·.2), finalizer := finalizer })

/-! ## All statements -/

def expressionStatement : Parse Node := do
  let start ← current
  let expression ← g.expression
  semicolon
  node start (.expressionStatement expression)

def labeledStatement : Parse Node := do
  let start ← current
  advance
  advance
  let body ← g.statement
  node start (.labeled start.value body)

/-- Whether `type` starts an alias. -/
def atTypeAlias : Parse Bool := do
  return (← nameAhead 1) &&
    ((← markAhead 2 .assign) || (← markAhead 2 .typeOpen) || (← markAhead 2 .lt))

def atNamespace : Parse Bool := do
  let next ← peek 1
  return !next.newlineBefore && (next.kind.isName || next.kind == .string)

/-- Whether `declare` starts a declaration. -/
def atAmbient : Parse Bool := do
  let next ← peek 1
  let isName := match next.kind with
    | .mark .assign | .mark .openParen | .mark .dot | .mark .semicolon => true
    | _ => false
  return !next.newlineBefore && !isName

/-- A statement that starts with a contextual word when what follows fits. -/
def contextual (fits : Parse Bool) (declaration : Parse Node) : Parse Node := do
  if ← fits then declaration else g.expressionStatement

def statementStep : Parse Node := nested do
  let start ← current
  match start.kind with
  | .mark .openBrace => g.block
  | .mark .semicolon =>
    advance
    node start .empty
  | .word .const =>
    if ← wordAhead 1 .enum then
      advance
      g.enumeration true false
    else g.variableDeclaration .statement
  | .word .var => g.variableDeclaration .statement
  | .word .let_ => g.contextual atVariables (g.variableDeclaration .statement)
  | .word .function => g.plainFunction false
  | .word .async => g.contextual atAsyncFunction (g.asyncFunction false)
  | .word .class_ => g.classDeclaration [] false false
  | .word .abstract => g.contextual (wordAhead 1 .class_) (g.maybeAbstractClass [])
  | .mark .atSign => g.decorated
  | .word .interface => g.contextual (nameAhead 1) (g.interface false)
  | .word .type => g.contextual atTypeAlias (g.typeAlias false)
  | .word .enum => g.enumeration false false
  | .word .namespace_ | .word .module_ => g.contextual atNamespace (g.namespaceDeclaration false)
  | .word .declare => g.contextual atAmbient g.ambientDeclaration
  | .word .component => g.contextual atComponent g.componentDeclaration
  | .word .import_ =>
    if (← markAhead 1 .openParen) || (← markAhead 1 .dot) then g.expressionStatement
    else g.importDeclaration
  | .word .export_ => g.exportDeclaration
  | .word .if_ => g.ifStatement
  | .word .switch => g.switchStatement
  | .word .for_ => g.forStatement
  | .word .while_ => g.whileStatement
  | .word .do_ => g.doWhileStatement
  | .word .break_ => jump true
  | .word .continue_ => jump false
  | .word .return_ => g.returnStatement
  | .word .throw => g.throwStatement
  | .word .try_ => g.tryStatement
  | .word .debugger =>
    advance
    semicolon
    node start .debugger
  | .identifier => g.contextual (markAhead 1 .colon) g.labeledStatement
  | _ => g.expressionStatement

end SignalView.Grammar
