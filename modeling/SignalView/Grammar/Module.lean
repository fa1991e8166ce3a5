import SignalView.Grammar.Declaration

/-!
# Imports and exports
-/

namespace SignalView.Grammar

open Parse

variable (g : Grammar)

/-- A name in an import or export list: any word, or a string. -/
def exchangedName : Parse Bytes := do
  let token ← current
  if ← accept .string then return Quoted.quoted token.value
  else expectMemberName "PSR-P004" "Expected name in import/export list"

/-- Whether the word `type` marks the name behind it and is no name itself. -/
def acceptTypeMark : Parse Bool := do
  let next := (← peek 1).kind
  let isName := next == .mark .comma || next == .mark .closeBrace || next == .word .as
  if (← atWord .type) && !isName then
    advance
    return true
  else return false

def modulePath : Parse Bytes := return (← expect .string "Expected module path string").value

/-! ## Imports -/

def importSpecifier : Parse ImportSpecifier := do
  let isType ← acceptTypeMark
  let imported ← exchangedName
  let localName ←
    if ← acceptWord .as then expectName "Expected local name after 'as'" else pure imported
  return { imported := imported, localName := localName, isType := isType }

/-- Whether `import` is followed by the mark of a type import and not by a default name. -/
def acceptTypeOnly : Parse Bool := do
  let next := (← peek 1).kind
  let marks := next == .mark .openBrace || next == .mark .star ||
    (next.isName && next != .word .from_) || (next == .word .from_ && (← wordAhead 2 .from_))
  if (← atWord .type) && marks then
    advance
    return true
  else return false

/-- The default name of an import, empty when there is none, and whether a list or a namespace has
to follow. -/
def importDefault : Parse (Bytes × Bool) := do
  if (← nameAhead 0) && !(← atWord .from_) then
    let name ← take
    return (name, ← acceptMark .comma)
  else if (← atWord .from_) && (← wordAhead 1 .from_) then
    return (← take, false)
  else return ([], true)

/-- The namespace or the list of an import. -/
def importNames : Parse (Bytes × List ImportSpecifier) := do
  if ← acceptMark .star then
    expectWord .as "Expected 'as' after '*' in import"
    return (← expectName "Expected namespace import name", [])
  else if ← acceptMark .openBrace then
    let specifiers ← commaList g.rounds (beforeMark .closeBrace) importSpecifier
    expectMark .closeBrace "Expected '\x7d' to close import list"
    return ([], specifiers)
  else fail "PSR-P003" "Expected import clause"

/-- Import attributes, which are read and dropped. -/
def importAttributes : Parse Unit := do
  if ((← atSpelling "with") || (← atSpelling "assert")) && (← markAhead 1 .openBrace) &&
      !(← onNewLine) then
    advance
    discard balanced

def importDeclaration : Parse Node := do
  let start ← current
  expectWord .import_ "Expected 'import'"
  let first ← current
  if ← accept .string then
    semicolon
    node start (.imports { source := first.value })
  else
    let typeOnly ← acceptTypeOnly
    let (defaultName, more) ← importDefault
    let (namespaceName, specifiers) ← if more then g.importNames else pure ([], [])
    if !(← acceptWord .from_) then fail "PSR-P003" "Expected 'from' in import declaration"
    let source ← modulePath
    importAttributes
    semicolon
    node start (.imports {
      source := source, defaultName := defaultName, namespaceName := namespaceName
      specifiers := specifiers, typeOnly := typeOnly })

/-! ## Exports -/

def defaultExpression : Parse (DefaultExport Node) := do
  let value ← g.assignment
  semicolon
  return .expression value

def exportedDefault : Parse (DefaultExport Node) := do
  match (← current).kind with
  | .word .function => return .declaration (← g.plainFunction false)
  | .word .async =>
    if ← atAsyncFunction then return .declaration (← g.asyncFunction false)
    else g.defaultExpression
  | .word .class_ => return .declaration (← g.classDeclaration [] false false)
  | .word .abstract =>
    advance
    return .declaration (← g.classDeclaration [] true false)
  | .mark .atSign =>
    let decorators ← g.decorators
    return .declaration (← g.maybeAbstractClass decorators)
  | .word .interface => return .declaration (← g.interface false)
  | .word .component =>
    if ← atComponent then return .declaration (← g.componentDeclaration)
    else g.defaultExpression
  | _ => g.defaultExpression

def exportAll (start : Token) : Parse Node := do
  let typeOnly ← acceptWord .type
  advance
  let name ← textIf (acceptWord .as) exchangedName
  if !(← acceptWord .from_) then fail "PSR-P003" "Expected 'from' after 'export *'"
  let source ← modulePath
  semicolon
  node start (.exportAll source name typeOnly)

def exportSpecifier : Parse ExportSpecifier := do
  let isType ← acceptTypeMark
  let localName ← exchangedName
  let exported ← if ← acceptWord .as then exchangedName else pure localName
  return { localName := localName, exported := exported, isType := isType }

def exportList (start : Token) : Parse Node := do
  let typeOnly ← acceptWord .type
  advance
  let specifiers ← commaList g.rounds (beforeMark .closeBrace) exportSpecifier
  expectMark .closeBrace "Expected '\x7d' to close export list"
  let source ← textIf (acceptWord .from_) modulePath
  semicolon
  node start (.exportNamed none specifiers source typeOnly)

/-- The words and marks that start a declaration that can be exported. -/
def startsExported : TokenKind → Bool
  | .word .const | .word .let_ | .word .var | .word .function | .word .async | .word .class_
  | .word .abstract | .mark .atSign | .word .component | .word .interface | .word .type
  | .word .enum | .word .namespace_ | .word .module_ | .word .declare => true
  | _ => false

def exportedDeclaration (start : Token) : Parse Node := do
  let message := "Expected declaration after 'export'"
  if !startsExported (← current).kind then fail "PSR-P001" message
  match ← g.statement with
  | .plain _ (.expressionStatement _) => failAt start "PSR-P001" (bytes message)
  | declaration => node start (.exportNamed (some declaration) [] [] false)

def exportDeclaration : Parse Node := do
  let start ← current
  expectWord .export_ "Expected 'export'"
  let ofTypes ← atWord .type
  if ← acceptWord .default then
    let value ← g.exportedDefault
    node start (.exportDefault value)
  else if (← atMark .star) || (ofTypes && (← markAhead 1 .star)) then exportAll start
  else if (← atMark .openBrace) || (ofTypes && (← markAhead 1 .openBrace)) then
    g.exportList start
  else g.exportedDeclaration start

end SignalView.Grammar
