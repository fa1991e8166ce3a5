import SignalView.Lowering.Component

/-!
# Lowering statements

Functions at the level of the module, exported ones included, are taken for components when
detection says so; all others stay functions.
-/

namespace SignalView.Lowering

open Lower

variable (l : Lowering)

/-! ## Variables -/

/-- A declarator whose value may be a component. The name is declared before the value is lowered,
and the target is lowered last. -/
def componentDeclarator? (keyword : Bytes) (d : Declarator Node) :
    Lower (Option (Declarator View)) := do
  match d.target.name?, d.init with
  | some name, some init =>
    if !(init matches .plain _ (.arrow _) | .plain _ (.function _)) then return none
    match ← acceptDetected name init with
    | none => return none
    | some detection =>
      declare keyword name .component [] d.target.line d.target.column
      let value ← l.boundComponent name detection init
      let target ← l.expression d.target
      return some { target := target, type := d.type, init := some value, definite := d.definite }
  | _, _ => return none

def plainDeclarator (keyword : Bytes) (d : Declarator Node) : Lower (Declarator View) := do
  if !(← declareSignals keyword d) then
    let kind := if keyword == bytes "const" then SymbolKind.constant else .variable_
    let guess := (d.init.map (·.guessType)).getD []
    declarePattern keyword kind (if d.type.isEmpty then guess else d.type) d.target
  let target ← l.expression d.target
  let init ← l.optionalExpression d.init
  return { target := target, type := d.type, init := init, definite := d.definite }

def declarator (atModule : Bool) (keyword : Bytes) (d : Declarator Node) :
    Lower (Declarator View) := do
  let component ← if atModule then l.componentDeclarator? keyword d else pure none
  match component with
  | some declarator => return declarator
  | none => l.plainDeclarator keyword d

def variableDeclaration (atModule : Bool) (keyword : Bytes) (declarators : List (Declarator Node))
    (isDeclare : Bool) : Lower (Plain View) :=
  return .variableDeclaration keyword (← declarators.mapM (l.declarator atModule keyword)) isDeclare

/-! ## Functions -/

def plainFunction (line column : Nat) (f : Callable Node) (isDeclare : Bool) : Lower View := do
  declare [] f.name .function (bytes "function") line column
  let f ← inScope .function (l.callable f)
  return .plain line column (.functionDeclaration f isDeclare)

def functionDeclaration (atModule : Bool) (node : Node) (f : Callable Node) (isDeclare : Bool) :
    Lower View := do
  let mayBeComponent := atModule && !f.name.isEmpty && f.body.isSome && !f.isGenerator
  let detected ← if mayBeComponent then acceptDetected [] node else pure none
  match detected with
  | some detection => l.declaredComponent node.line node.column f detection
  | none => l.plainFunction node.line node.column f isDeclare

/-! ## Imports -/

/-- An imported name. A primitive of the runtime goes by the name of its export, and so does its
local name when it has none of its own. -/
def importSpecifier (clause : ImportClause) (line column : Nat) (spec : ImportSpecifier) :
    Lower ImportSpecifier := do
  let isType := spec.isType || clause.typeOnly
  declare [] spec.localName (if isType then .type else .import_) [] line column
  let isPrimitive := clause.source == l.runtimeModule && !isType &&
    (Primitive.ofName? spec.imported).isSome
  if isPrimitive then
    let canonical := Primitive.canonicalName spec.imported
    modify fun s ↦ { s with runtimeNames := (spec.localName, canonical) :: s.runtimeNames }
    return { spec with
      imported := canonical
      localName := if spec.localName == spec.imported then canonical else spec.localName }
  else return spec

def importClause (line column : Nat) (clause : ImportClause) : Lower ImportClause := do
  let specifiers ← clause.specifiers.mapM (l.importSpecifier clause line column)
  declare [] clause.defaultName .import_ [] line column
  declare [] clause.namespaceName .import_ [] line column
  return { clause with specifiers := specifiers }

/-! ## Module items -/

/-- A statement at the level of the module. What is exported is at that level too. -/
def moduleItem (node : Node) : Lower View := do
  match node with
  | .plain range (.imports clause) =>
    let line := range.start.line
    let column := range.start.column
    return .plain line column (.imports (← l.importClause line column clause))
  | .plain range (.exportNamed declaration specifiers source typeOnly) =>
    let lowered ← match declaration with
      | some declaration => pure (some (← moduleItem declaration))
      | none => pure none
    specifiers.forM fun spec ↦ markUsed spec.localName
    return .plain range.start.line range.start.column
      (.exportNamed lowered specifiers source typeOnly)
  | .plain range (.exportDefault value) =>
    let lowered ← match value with
      | .declaration declaration => pure (DefaultExport.declaration (← moduleItem declaration))
      | .expression expression => pure (DefaultExport.expression (← l.expression expression))
    return .plain range.start.line range.start.column (.exportDefault lowered)
  | .plain range (.functionDeclaration f isDeclare) =>
    l.functionDeclaration true (.plain range (.functionDeclaration f isDeclare)) f isDeclare
  | .plain range (.variableDeclaration keyword declarators isDeclare) =>
    return .plain range.start.line range.start.column
      (← l.variableDeclaration true keyword declarators isDeclare)
  | .plain range (.expressionStatement expression) =>
    noteCallbacks (.plain range (.expressionStatement expression))
    l.statement (.plain range (.expressionStatement expression))
  | node => l.statement node
termination_by structural node

/-! ## All statements -/

def switchCase (c : SwitchCase Node) : Lower (SwitchCase View) := do
  let test ← l.optionalExpression c.test
  return { test := test, body := ← c.body.mapM l.statement }

/-- The parameter and the block of a `catch` clause, in one scope. -/
def catchClause (t : TryShape Node) (handler : Node) : Lower (Option View × View) :=
  inScope .block do
    t.param.forM (declarePattern [] .variable_ t.paramType)
    let param ← l.optionalExpression t.param
    return (param, ← l.block false handler)

def tryShape (t : TryShape Node) : Lower (TryShape View) := do
  let block ← l.block true t.block
  let clause ← t.handler.mapM (l.catchClause t)
  let finalizer ← t.finalizer.mapM (l.block true)
  return {
    block := block, param := clause.bind (·.1), paramType := t.paramType
    handler := clause.map (·.2), finalizer := finalizer }

def enumMember (m : EnumMember Node) : Lower (EnumMember View) :=
  return { name := m.name, init := ← l.optionalExpression m.init }

/-- A plain statement with its parts lowered, apart from the ones that are blocks, functions and
module items. -/
def plainStatement (node : Node) : Plain Node → Lower (Plain View)
  | .expressionStatement expression => return .expressionStatement (← l.expression expression)
  | .variableDeclaration keyword declarators isDeclare =>
    l.variableDeclaration false keyword declarators isDeclare
  | .ifElse test consequent alternate => do
    let test ← l.expression test
    let consequent ← l.statement consequent
    return .ifElse test consequent (← alternate.mapM l.statement)
  | .switch discriminant cases => do
    let discriminant ← l.expression discriminant
    return .switch discriminant (← inScope .block (cases.mapM l.switchCase))
  | .forLoop init test update body => inScope .block do
    let init ← init.mapM l.statement
    let test ← l.optionalExpression test
    let update ← l.optionalExpression update
    return .forLoop init test update (← l.statement body)
  | .forIn left right body isOf isAwait => do
    let right ← l.expression right
    inScope .block do
      let left ← l.statement left
      return .forIn left right (← l.statement body) isOf isAwait
  | .whileLoop test body => do
    let test ← l.expression test
    return .whileLoop test (← l.statement body)
  | .doWhile body test => do
    let body ← l.statement body
    return .doWhile body (← l.expression test)
  | .jump isBreak label => return .jump isBreak label
  | .returnValue argument => return .returnValue (← l.optionalExpression argument)
  | .throw argument => return .throw (← l.expression argument)
  | .tryCatch t => return .tryCatch (← l.tryShape t)
  | .labeled label body => return .labeled label (← l.statement body)
  | .empty => return .empty
  | .debugger => return .debugger
  | .classDeclaration c => do
    declare [] c.name .class_ c.name node.line node.column
    return .classDeclaration (← l.classShape c)
  | .interface name typeParameters extended members isDeclare => do
    declare [] name .type name node.line node.column
    return .interface name typeParameters extended members isDeclare
  | .typeAlias name typeParameters type isDeclare => do
    declare [] name .type type node.line node.column
    return .typeAlias name typeParameters type isDeclare
  | .enum name members isConst isDeclare => do
    declare [] name .enum name node.line node.column
    return .enum name (← members.mapM l.enumMember) isConst isDeclare
  | .module keyword name body isDeclare => inScope .block do
    return .module keyword name (← body.mapM fun items ↦ items.mapM l.statement) isDeclare
  | .exportAll source name typeOnly => return .exportAll source name typeOnly
  | _ => misplaced node "statement"

def statementStep (node : Node) : Lower View :=
  match node with
  | .plain _ (.block _) => l.block true node
  | .plain _ (.functionDeclaration f isDeclare) => l.functionDeclaration false node f isDeclare
  | .plain _ (.imports _) | .plain _ (.exportNamed _ _ _ _) | .plain _ (.exportDefault _) =>
    l.moduleItem node
  | .plain _ form => return .plain node.line node.column (← l.plainStatement node form)
  | .surface _ (.component f) => l.keywordComponent node.line node.column f
  | node => misplaced node "statement"

end SignalView.Lowering
