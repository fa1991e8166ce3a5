import SignalView.Script.Markup

/-!
# Writing statements and declarations
-/

namespace SignalView.Emission

open Emit

variable (e : Emission)

/-! ## Components -/

/-- The text in front of a component's body. -/
def componentHead (c : Component View) (signature : Bytes) : Bytes :=
  let lead := when c.isAsync "async "
  match c.form with
  | .keyword => bytes "const " ++ c.name ++ bytes " = " ++ lead ++ signature ++ bytes " => "
  | .functionDeclaration => lead ++ bytes "function " ++ c.name ++ signature ++ bytes " "
  | .functionExpression => lead ++ bytes "function " ++ signature ++ bytes " "
  | .arrow => lead ++ signature ++ bytes " => "

def componentBody (c : Component View) : Emit Bytes :=
  match c.block, c.value with
  | some block, _ => e.braced block
  | none, some value => e.arrowBody value
  | none, none => return bytes "\x7b\x7d"

/-- A component runs its body under its registry key. -/
def componentText (c : Component View) : Emit Bytes := do
  e.useRuntime (bytes "$REGISTRY")
  let signature ← e.signature c.typeParameters c.params c.returnType
  let body ← indented do
    let inner ← e.componentBody c
    e.line (bytes "return $REGISTRY.execute(" ++ Quoted.quoted c.registryKey ++ bytes ", " ++
      when c.isAsync "async " ++ bytes "() => " ++ inner ++ bytes ");")
  return componentHead c signature ++ bytes "\x7b\n" ++ body ++ (← e.pad) ++ bytes "\x7d" ++
    when (c.form == .keyword) ";"

/-! ## Variables and types -/

def declaratorText (d : Declarator View) : Emit Bytes := do
  let target ← e.expression d.target
  let initial ← e.initial d.init
  return target ++ when d.definite "!" ++ annotation d.type ++ initial

def variablesText (keyword : Bytes) (declarators : List (Declarator View)) (isDeclare : Bool) :
    Emit Bytes := do
  let texts ← declarators.mapM e.declaratorText
  return when isDeclare "declare " ++ keyword ++ bytes " " ++ Bytes.join (bytes ", ") texts

def interfaceText (name typeParameters : Bytes) (extended members : List Bytes)
    (isDeclare : Bool) : Emit Bytes := do
  let head := when isDeclare "declare " ++ bytes "interface " ++ name ++ typeParameters ++
    typeList " extends " extended
  if members.isEmpty then return head ++ bytes " \x7b\x7d"
  let lines ← indented (members.mapM fun member ↦ e.line (member ++ bytes ";"))
  return head ++ bytes " \x7b\n" ++ lines.flatten ++ (← e.pad) ++ bytes "\x7d"

def enumText (name : Bytes) (members : List (EnumMember View)) (isConst isDeclare : Bool) :
    Emit Bytes := do
  let head := when isDeclare "declare " ++ when isConst "const " ++ bytes "enum " ++ name ++
    bytes " \x7b"
  if members.isEmpty then return head ++ bytes "\x7d"
  let lines ← indented (members.mapM fun m ↦ do
    e.line (m.name ++ (← e.initial m.init) ++ bytes ","))
  return head ++ bytes "\n" ++ lines.flatten ++ (← e.pad) ++ bytes "\x7d"

def namespaceText (keyword name : Bytes) (body : Option (List View)) (isDeclare : Bool) :
    Emit Bytes := do
  let head := when isDeclare "declare " ++
    if keyword == bytes "global" then bytes "global" else keyword ++ bytes " " ++ name
  match body with
  | none => return head ++ bytes ";"
  | some body =>
    let lines ← indented (e.statementLines body)
    return head ++ bytes " \x7b\n" ++ lines ++ (← e.pad) ++ bytes "\x7d"

/-! ## Control flow -/

/-- A condition; parentheses around the whole of it are dropped. -/
def condition (test : View) : Emit Bytes := return Quoted.stripParens (← e.expression test)

/-- A chain of conditionals is one statement; whatever ends it is put in braces. -/
def ifText (view : View) : Emit Bytes := do
  match view with
  | .plain _ _ (.ifElse test consequent alternate) =>
    let condition ← e.condition test
    let body ← e.braced consequent
    let rest ← match alternate with
      | none => pure []
      | some alternate => pure (bytes " else " ++ (← ifText alternate))
    return bytes "if (" ++ condition ++ bytes ") " ++ body ++ rest
  | view => e.braced view
termination_by structural view

def caseText (c : SwitchCase View) : Emit Bytes := do
  let label ← match c.test with
    | none => pure (bytes "default:")
    | some test => pure (bytes "case " ++ (← e.expression test) ++ bytes ":")
  let label ← e.line label
  return label ++ (← indented (e.statementLines c.body))

def switchText (discriminant : View) (cases : List (SwitchCase View)) : Emit Bytes := do
  let discriminant ← e.condition discriminant
  let cases ← indented (cases.mapM e.caseText)
  return bytes "switch (" ++ discriminant ++ bytes ") \x7b\n" ++ cases.flatten ++ (← e.pad) ++
    bytes "\x7d"

/-- What stands in front of a loop's first semicolon or of `of` and `in`. -/
def loopInit : Option View → Emit Bytes
  | some (.plain _ _ (.variableDeclaration keyword declarators isDeclare)) =>
    e.variablesText keyword declarators isDeclare
  | some (.plain _ _ (.expressionStatement inner)) => e.expression inner
  | _ => return []

def loopPart : Option View → Emit Bytes
  | none => return []
  | some part => return bytes " " ++ (← e.expression part)

def forText (init test update : Option View) (body : View) : Emit Bytes := do
  let init ← e.loopInit init
  let test ← e.loopPart test
  let update ← e.loopPart update
  let body ← e.braced body
  return bytes "for (" ++ init ++ bytes ";" ++ test ++ bytes ";" ++ update ++ bytes ") " ++ body

def forInText (left right body : View) (isOf isAwait : Bool) : Emit Bytes := do
  let left ← e.loopInit (some left)
  let right ← e.expression right
  let body ← e.braced body
  return bytes "for " ++ when isAwait "await " ++ bytes "(" ++ left ++
    (if isOf then bytes " of " else bytes " in ") ++ right ++ bytes ") " ++ body

def tryText (t : TryShape View) : Emit Bytes := do
  let block ← e.braced t.block
  let handler ← match t.handler with
    | none => pure []
    | some handler =>
      let param ← match t.param with
        | none => pure []
        | some param =>
          pure (bytes "(" ++ (← e.expression param) ++ annotation t.paramType ++ bytes ") ")
      pure (bytes " catch " ++ param ++ (← e.braced handler))
  let finalizer ← match t.finalizer with
    | none => pure []
    | some finalizer => pure (bytes " finally " ++ (← e.braced finalizer))
  return bytes "try " ++ block ++ handler ++ finalizer

/-- An expression as a statement; what would start a block or a declaration is put in
parentheses. -/
def guardStatement (text : Bytes) : Bytes :=
  let isAmbiguous := text.head? == some Quoted.openBrace ||
    (bytes "function ").isPrefixOf text || (bytes "function(").isPrefixOf text
  if isAmbiguous then bytes "(" ++ text ++ bytes ");" else text ++ bytes ";"

/-! ## Exports -/

/-- The names that a declaration gives a value. -/
def valueNames : View → List Bytes
  | .plain _ _ (.variableDeclaration _ declarators isDeclare) =>
    if isDeclare then [] else declarators.flatMap (·.target.boundNames)
  | .plain _ _ (.functionDeclaration f isDeclare) =>
    if isDeclare || f.body.isNone then [] else [f.name]
  | .plain _ _ (.classDeclaration c) => if c.isDeclare then [] else [c.name]
  | .rendered _ _ (.component c) => [c.name]
  | .plain _ _ (.enum name _ isConst isDeclare) => if isDeclare || isConst then [] else [name]
  | .plain _ _ (.module keyword name body isDeclare) =>
    if !isDeclare && body.isSome && keyword == bytes "namespace" && !name.contains (byte '.') then
      [name]
    else []
  | _ => []

/-- Where an exported value is stored; names that are strings already have their quotes. -/
def exportTarget (name : Bytes) : Bytes :=
  if Name.isIdentifier name then bytes "exports." ++ name
  else bytes "exports[" ++ name ++ bytes "]"

def exportDeclaration (declaration : View) : Emit Bytes := do
  let text ← e.statement declaration
  let names := if e.options.format == .commonjs then valueNames declaration else []
  if names.isEmpty then return bytes "export " ++ text
  let margin ← e.pad
  return text ++ names.flatMap fun name ↦
    bytes "\n" ++ margin ++ exportTarget name ++ bytes " = " ++ name ++ bytes ";"

/-- A list of exports as assignments. -/
def exportAssignments (specifiers : List ExportSpecifier) (source : Bytes) : Emit Bytes := do
  let origin :=
    if source.isEmpty then [] else bytes "require(" ++ Quoted.quoted source ++ bytes ")."
  let lines := (specifiers.filter (!·.isType)).map fun s ↦
    exportTarget s.exported ++ bytes " = " ++ origin ++ s.localName ++ bytes ";"
  if lines.isEmpty then return bytes ";"
  return Bytes.join (bytes "\n" ++ (← e.pad)) lines

def exportList (specifiers : List ExportSpecifier) (source : Bytes) (typeOnly : Bool) : Bytes :=
  let entries := specifiers.map fun s ↦ when s.isType "type " ++ s.localName ++
    if s.exported == s.localName then [] else bytes " as " ++ s.exported
  let origin := if source.isEmpty then [] else bytes " from " ++ Quoted.quoted source
  bytes "export " ++ when typeOnly "type " ++ bracedEntries entries ++ origin ++ bytes ";"

/-- The name that a declaration goes by as a default export. -/
def declaredName : View → Bytes
  | .plain _ _ (.functionDeclaration f _) => f.name
  | .plain _ _ (.classDeclaration c) => c.name
  | .rendered _ _ (.component c) => c.name
  | _ => []

/-- A component that is written as a constant, which cannot be exported where it is declared. -/
def isConstant : View → Bool
  | .rendered _ _ (.component c) => c.form == .keyword
  | _ => false

def defaultTarget (format : ModuleFormat) : Bytes :=
  match format with
  | .esm => bytes "export default "
  | .commonjs => bytes "exports.default = "

def exportDefault (value : DefaultExport View) : Emit Bytes := do
  let format := e.options.format
  match value with
  | .expression value => return defaultTarget format ++ (← e.expression value) ++ bytes ";"
  | .declaration declaration =>
    let name := declaredName declaration
    let text ← e.statement declaration
    if !isConstant declaration && format != .commonjs then return bytes "export default " ++ text
    else if name.isEmpty then return defaultTarget .commonjs ++ text ++ bytes ";"
    else
      return text ++ bytes "\n" ++ (← e.pad) ++ defaultTarget format ++ name ++ bytes ";"

def exportAll (source name : Bytes) (typeOnly : Bool) : Bytes :=
  if e.options.format == .commonjs && !typeOnly then
    let origin := bytes "require(" ++ Quoted.quoted source ++ bytes ")"
    if name.isEmpty then bytes "Object.assign(exports, " ++ origin ++ bytes ");"
    else exportTarget name ++ bytes " = " ++ origin ++ bytes ";"
  else
    bytes "export " ++ when typeOnly "type " ++ bytes "*" ++
      (if name.isEmpty then [] else bytes " as " ++ name) ++ bytes " from " ++
      Quoted.quoted source ++ bytes ";"

/-- An import that is not at the top of the module. -/
def importText (clause : ImportClause) : Bytes :=
  let text := (ImportTable.add {} clause).generate .esm
  if text.getLast? == some 10 then text.dropLast else text

/-! ## All statements -/

def plainStatement (view : View) : Plain View → Emit Bytes
  | .imports clause => return importText clause
  | .exportNamed (some declaration) _ _ _ => e.exportDeclaration declaration
  | .exportNamed none specifiers source typeOnly =>
    if e.options.format == .commonjs && !typeOnly then e.exportAssignments specifiers source
    else return exportList specifiers source typeOnly
  | .exportDefault value => e.exportDefault value
  | .exportAll source name typeOnly => return e.exportAll source name typeOnly
  | .functionDeclaration f isDeclare => do
    return (← e.callableText f isDeclare) ++ when f.body.isNone ";"
  | .classDeclaration c => e.classText false c
  | .enum name members isConst isDeclare => e.enumText name members isConst isDeclare
  | .module keyword name body isDeclare => e.namespaceText keyword name body isDeclare
  | .interface name typeParameters extended members isDeclare =>
    e.interfaceText name typeParameters extended members isDeclare
  | .typeAlias name typeParameters type isDeclare =>
    return when isDeclare "declare " ++ bytes "type " ++ name ++ typeParameters ++ bytes " = " ++
      type ++ bytes ";"
  | .variableDeclaration keyword declarators isDeclare =>
    return (← e.variablesText keyword declarators isDeclare) ++ bytes ";"
  | .block body => e.braced (.plain view.line view.column (.block body))
  | .expressionStatement inner => return guardStatement (← e.expression inner)
  | .ifElse _ _ _ => e.ifText view
  | .switch discriminant cases => e.switchText discriminant cases
  | .forLoop init test update body => e.forText init test update body
  | .forIn left right body isOf isAwait => e.forInText left right body isOf isAwait
  | .whileLoop test body => do
    let test ← e.condition test
    return bytes "while (" ++ test ++ bytes ") " ++ (← e.braced body)
  | .doWhile body test => do
    let body ← e.braced body
    return bytes "do " ++ body ++ bytes " while (" ++ (← e.condition test) ++ bytes ");"
  | .jump isBreak label =>
    return (if isBreak then bytes "break" else bytes "continue") ++
      (if label.isEmpty then [] else bytes " " ++ label) ++ bytes ";"
  | .returnValue none => return bytes "return;"
  | .returnValue (some argument) => return bytes "return " ++ (← e.expression argument) ++ bytes ";"
  | .throw argument => return bytes "throw " ++ (← e.expression argument) ++ bytes ";"
  | .tryCatch t => e.tryText t
  | .labeled label body => return label ++ bytes ": " ++ (← e.statement body)
  | .empty => return bytes ";"
  | .debugger => return bytes "debugger;"
  | _ => misplaced view "statement"

def statementStep (view : View) : Emit Bytes :=
  match view with
  | .plain _ _ form => e.plainStatement view form
  | .rendered _ _ (.component c) => e.componentText c
  | .rendered _ _ (.classValue c) => e.classText true c
  | view => misplaced view "statement"

def expressionStep (view : View) : Emit Bytes :=
  match view with
  | .plain _ _ form => e.plainExpression view form
  | .rendered _ _ form =>
    match form with
    | .component c => e.componentText c
    | .classValue c => e.classText true c
    | .element element => e.elementText element
    | .componentCall name props children => e.callText name props children
    | .fragment children => e.fragmentText children
    | .text value => return Quoted.quoted value
    | .child _ inner => e.expression inner

end SignalView.Emission
