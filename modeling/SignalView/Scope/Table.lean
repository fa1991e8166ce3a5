import SignalView.Text.Bytes

/-!
# The symbol table

A stack of scopes, the innermost in front. A name means its declaration in the innermost open scope
that has one. Leaving a scope closes it for good; its symbols stay on record, so that the table can
always list the latest declaration of every name.
-/

namespace SignalView

inductive SymbolKind where
  | variable_ | constant | parameter | function | class_ | component | import_ | type | enum
  | signalGetter | signalSetter
  deriving DecidableEq, Repr

def SymbolKind.name : SymbolKind → Bytes
  | .variable_ => bytes "variable"
  | .constant => bytes "constant"
  | .parameter => bytes "parameter"
  | .function => bytes "function"
  | .class_ => bytes "class"
  | .component => bytes "component"
  | .import_ => bytes "import"
  | .type => bytes "type"
  | .enum => bytes "enum"
  | .signalGetter => bytes "signal getter"
  | .signalSetter => bytes "signal setter"

def SymbolKind.all : List SymbolKind :=
  [.variable_, .constant, .parameter, .function, .class_, .component, .import_, .type, .enum,
    .signalGetter, .signalSetter]

inductive ScopeKind where
  | global | function | block | component
  deriving DecidableEq, Repr

def ScopeKind.name : ScopeKind → Bytes
  | .global => bytes "global"
  | .function => bytes "function"
  | .block => bytes "block"
  | .component => bytes "component"

/-- A declared name. The type is an annotation or a guess, empty when nothing is known; `serial`
counts the declarations before this one. -/
structure Symbol where
  name : Bytes
  kind : SymbolKind
  type : Bytes := []
  isUsed : Bool := false
  line : Int := 0
  column : Int := 0
  serial : Nat := 0
  deriving DecidableEq, Repr

structure Scope where
  kind : ScopeKind
  symbols : List Symbol := []
  deriving DecidableEq, Repr

namespace Scope

def find? (scope : Scope) (name : Bytes) : Option Symbol := scope.symbols.find? (·.name == name)

def declares (scope : Scope) (name : Bytes) : Bool := (scope.find? name).isSome

def markUsed (scope : Scope) (name : Bytes) : Scope :=
  { scope with
    symbols := scope.symbols.map fun s ↦ if s.name == name then { s with isUsed := true } else s }

end Scope

structure SymbolTable where
  current : Scope := { kind := .global }
  enclosing : List Scope := []
  closed : List Symbol := []
  declarations : Nat := 0
  deriving DecidableEq, Repr

namespace SymbolTable

/-- The open scopes, the innermost first. -/
def scopes (table : SymbolTable) : List Scope := table.current :: table.enclosing

def depth (table : SymbolTable) : Nat := table.enclosing.length

def globalScope (table : SymbolTable) : Scope := table.enclosing.getLast?.getD table.current

def enter (table : SymbolTable) (kind : ScopeKind) : SymbolTable :=
  { table with current := { kind := kind }, enclosing := table.current :: table.enclosing }

/-- Closes the current scope; the global scope is never left. -/
def exit (table : SymbolTable) : SymbolTable :=
  match table.enclosing with
  | [] => table
  | outer :: rest =>
    { table with
      current := outer, enclosing := rest, closed := table.closed ++ table.current.symbols }

/-- Declares a name in the current scope; `none` when the scope already has it. -/
def declare? (table : SymbolTable) (symbol : Symbol) : Option SymbolTable :=
  if table.current.declares symbol.name then none
  else
    some { table with
      current.symbols := table.current.symbols ++ [{ symbol with serial := table.declarations }]
      declarations := table.declarations + 1 }

def lookup (table : SymbolTable) (name : Bytes) : Option Symbol :=
  table.scopes.findSome? (·.find? name)

/-- Marks a name in the first of the scopes that declares it. -/
def markUsedIn (name : Bytes) : List Scope → List Scope
  | [] => []
  | scope :: rest =>
    if scope.declares name then scope.markUsed name :: rest else scope :: markUsedIn name rest

def markUsed (table : SymbolTable) (name : Bytes) : SymbolTable :=
  if table.current.declares name then { table with current := table.current.markUsed name }
  else { table with enclosing := markUsedIn name table.enclosing }

def isSignalGetter (table : SymbolTable) (name : Bytes) : Bool :=
  (table.lookup name).any (·.kind == .signalGetter)

/-- Every symbol ever declared. -/
def allSymbols (table : SymbolTable) : List Symbol :=
  table.closed ++ table.scopes.flatMap (·.symbols)

/-- The symbols that no later declaration of the same name replaces, sorted by name. -/
def latest (table : SymbolTable) : List Symbol :=
  let symbols := table.allSymbols
  let latest := symbols.filter fun s ↦ symbols.all fun t ↦ t.name != s.name || t.serial ≤ s.serial
  latest.foldl (fun sorted s ↦ insertSorted (fun a b ↦ Bytes.before a.name b.name) s sorted) []

end SymbolTable

end SignalView
