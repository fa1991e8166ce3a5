import SignalView.Script.ModuleFormat
import SignalView.Syntax.Shape
import SignalView.Text.Quoted

/-!
# The import table

The imports of the output, gathered per module without repetition. Modules are kept sorted by their
source, and the bindings of a module are sorted too, so the generated block depends only on what
was added. Modules that are imported for their effects alone come first.
-/

namespace SignalView

structure ImportBinding where
  imported : Bytes
  localName : Bytes
  deriving DecidableEq, Repr

/-- Bindings are ordered by the export, then by the local name. -/
def ImportBinding.before (a b : ImportBinding) : Bool :=
  Bytes.before a.imported b.imported ||
    (a.imported == b.imported && Bytes.before a.localName b.localName)

/-- What is imported from one module. -/
structure ModuleImports where
  source : Bytes
  defaultName : Bytes := []
  namespaces : List Bytes := []
  values : List ImportBinding := []
  types : List ImportBinding := []
  typeDefault : Bytes := []
  deriving DecidableEq, Repr

namespace ModuleImports

def isSideEffectOnly (m : ModuleImports) : Bool :=
  m.defaultName.isEmpty && m.namespaces.isEmpty && m.values.isEmpty && m.types.isEmpty &&
    m.typeDefault.isEmpty

/-- Adds a named binding. A value import already brings its name into type position, so it takes
the place of a type import of the same binding. -/
def addNamed (m : ModuleImports) (binding : ImportBinding) (isType : Bool) : ModuleImports :=
  if isType then
    if m.values.contains binding then m
    else { m with types := insertSorted ImportBinding.before binding m.types }
  else
    { m with
      types := m.types.filter (· != binding)
      values := insertSorted ImportBinding.before binding m.values }

/-- A binding, with a separator between its export and a local name that differs. -/
def bindingText (separator : Bytes) (b : ImportBinding) : Bytes :=
  if b.imported == b.localName then b.imported else b.imported ++ separator ++ b.localName

/-- A list of bindings; one that has no text leaves no trace. -/
def bindingsText (separator : Bytes) (bindings : List ImportBinding) : Bytes :=
  Bytes.join (bytes ", ") ((bindings.map (bindingText separator)).filter (!·.isEmpty))

def inBraces (text : Bytes) : Bytes := bytes "\x7b " ++ text ++ bytes " \x7d"

def typeImports (m : ModuleImports) (origin : Bytes) : Bytes :=
  (if m.typeDefault.isEmpty then [] else bytes "import type " ++ m.typeDefault ++ origin) ++
    if m.types.isEmpty then []
    else bytes "import type " ++ inBraces (bindingsText (bytes " as ") m.types) ++ origin

def esmText (m : ModuleImports) : Bytes :=
  let origin := bytes " from " ++ Quoted.quoted m.source ++ bytes ";\n"
  let named :=
    if m.values.isEmpty then [] else [inBraces (bindingsText (bytes " as ") m.values)]
  let clause := (if m.defaultName.isEmpty then [] else [m.defaultName]) ++ named
  (if clause.isEmpty then [] else bytes "import " ++ Bytes.join (bytes ", ") clause ++ origin) ++
    m.namespaces.flatMap (fun name ↦ bytes "import * as " ++ name ++ origin) ++
    m.typeImports origin

def commonjsText (m : ModuleImports) : Bytes :=
  let origin := bytes " from " ++ Quoted.quoted m.source ++ bytes ";\n"
  let require := bytes "require(" ++ Quoted.quoted m.source ++ bytes ")"
  (if m.defaultName.isEmpty then []
    else bytes "const " ++ m.defaultName ++ bytes " = " ++ require ++ bytes ".default;\n") ++
    (if m.values.isEmpty then []
    else
      bytes "const " ++ inBraces (bindingsText (bytes ": ") m.values) ++ bytes " = " ++ require ++
      bytes ";\n") ++
    m.namespaces.flatMap
      (fun name ↦ bytes "const " ++ name ++ bytes " = " ++ require ++ bytes ";\n") ++
    m.typeImports origin

end ModuleImports

structure ImportTable where
  modules : List ModuleImports := []
  deriving DecidableEq, Repr

namespace ImportTable

/-- Changes the entry of a module, which is added at its place in the order when it is new. -/
def updateIn (source : Bytes) (change : ModuleImports → ModuleImports) :
    List ModuleImports → List ModuleImports
  | [] => [change { source := source }]
  | m :: rest =>
    if m.source == source then change m :: rest
    else if Bytes.before source m.source then change { source := source } :: m :: rest
    else m :: updateIn source change rest

def update (table : ImportTable) (source : Bytes) (change : ModuleImports → ModuleImports) :
    ImportTable :=
  { modules := updateIn source change table.modules }

def find? (table : ImportTable) (source : Bytes) : Option ModuleImports :=
  table.modules.find? (·.source == source)

/-- An empty local name stands for the exported name. -/
def addNamed (table : ImportTable) (source imported localName : Bytes) (isType : Bool) :
    ImportTable :=
  let binding := { imported, localName := if localName.isEmpty then imported else localName }
  table.update source (·.addNamed binding isType)

def addDefault (table : ImportTable) (source name : Bytes) : ImportTable :=
  table.update source fun m ↦ { m with defaultName := name }

def addTypeDefault (table : ImportTable) (source name : Bytes) : ImportTable :=
  table.update source fun m ↦ { m with typeDefault := name }

def addNamespace (table : ImportTable) (source name : Bytes) : ImportTable :=
  table.update source fun m ↦
    { m with namespaces := insertSorted Bytes.before name m.namespaces }

def addSideEffect (table : ImportTable) (source : Bytes) : ImportTable := table.update source id

/-- Merges an import declaration. -/
def add (table : ImportTable) (clause : ImportClause) : ImportTable :=
  if clause.isSideEffect then table.addSideEffect clause.source
  else
    let table :=
      if clause.defaultName.isEmpty then table
      else if clause.typeOnly then table.addTypeDefault clause.source clause.defaultName
      else table.addDefault clause.source clause.defaultName
    let table :=
      if clause.namespaceName.isEmpty then table
      else table.addNamespace clause.source clause.namespaceName
    clause.specifiers.foldl (fun table s ↦
      table.addNamed clause.source s.imported s.localName (clause.typeOnly || s.isType)) table

/-- Whether a module's export is imported as a value; the name of a default import counts. -/
def has (table : ImportTable) (source imported : Bytes) : Bool :=
  (table.find? source).any fun m ↦
    m.values.any (·.imported == imported) || m.defaultName == imported

def sideEffectText (format : ModuleFormat) (source : Bytes) : Bytes :=
  match format with
  | .esm => bytes "import " ++ Quoted.quoted source ++ bytes ";\n"
  | .commonjs => bytes "require(" ++ Quoted.quoted source ++ bytes ");\n"

def moduleText (format : ModuleFormat) (m : ModuleImports) : Bytes :=
  match format with
  | .esm => m.esmText
  | .commonjs => m.commonjsText

/-- The import block, one line for each statement. -/
def generate (table : ImportTable) (format : ModuleFormat) : Bytes :=
  (table.modules.filter (·.isSideEffectOnly)).flatMap (fun m ↦ sideEffectText format m.source) ++
    (table.modules.filter (!·.isSideEffectOnly)).flatMap (moduleText format)

end ImportTable

end SignalView
