import SignalView.Text.Bytes

/-!
# Shapes of constructs

The parts of a program that are no nodes of their own: parameters, properties, members, clauses.
They are stated over any type of node, because the tree of the source and the tree of the output
share them. Types are carried as text; an empty text means that there is none.
-/

namespace SignalView

/-! ## Functions -/

/-- A parameter; modifiers and decorators occur on the parameters of constructors. -/
structure Param (α : Type) where
  pattern : Option α
  type : Bytes := []
  initial : Option α := none
  optional : Bool := false
  rest : Bool := false
  modifiers : List Bytes := []
  decorators : List α := []

def Param.children {α : Type} (p : Param α) : List α :=
  p.decorators ++ p.pattern.toList ++ p.initial.toList

/-- A function with a name; a signature has no body. -/
structure Callable (α : Type) where
  name : Bytes := []
  typeParameters : Bytes := []
  params : List (Param α) := []
  returnType : Bytes := []
  body : Option α := none
  isAsync : Bool := false
  isGenerator : Bool := false

def Callable.children {α : Type} (f : Callable α) : List α :=
  f.params.flatMap (·.children) ++ f.body.toList

inductive ArrowBody (α : Type) where
  | block (body : α)
  | expression (value : α)

def ArrowBody.node {α : Type} : ArrowBody α → α
  | .block body => body
  | .expression value => value

structure Arrow (α : Type) where
  typeParameters : Bytes := []
  params : List (Param α) := []
  returnType : Bytes := []
  body : ArrowBody α
  isAsync : Bool := false

def Arrow.children {α : Type} (f : Arrow α) : List α :=
  f.params.flatMap (·.children) ++ [f.body.node]

/-! ## Objects and classes -/

/-- A shorthand property names a binding, possibly with a default; methods and accessors hold a
function. -/
inductive PropertyKind where
  | init | shorthand | method | getter | setter | spread
  deriving DecidableEq, Repr

structure Property (α : Type) where
  kind : PropertyKind := .init
  key : Option α := none
  computed : Bool := false
  value : Option α := none

/-- A key counts as a part of the program only when it is computed. -/
def Property.children {α : Type} (p : Property α) : List α :=
  (if p.computed then p.key.toList else []) ++ p.value.toList

inductive MemberKey (α : Type) where
  | named (name : Bytes)
  | computed (index : α)

def MemberKey.name {α : Type} : MemberKey α → Bytes
  | .named name => name
  | .computed _ => []

def MemberKey.children {α : Type} : MemberKey α → List α
  | .named _ => []
  | .computed index => [index]

inductive MemberKind where
  | constructor | method | getter | setter | property | indexSignature | staticBlock
  deriving DecidableEq, Repr

/-- A class member. The type of an index signature is its whole text. -/
structure ClassMember (α : Type) where
  kind : MemberKind := .property
  modifiers : List Bytes := []
  decorators : List α := []
  key : Option α := none
  computed : Bool := false
  optional : Bool := false
  definite : Bool := false
  type : Bytes := []
  value : Option α := none
  block : Option α := none

def ClassMember.children {α : Type} (m : ClassMember α) : List α :=
  m.decorators ++ (if m.computed then m.key.toList else []) ++ m.value.toList ++ m.block.toList

structure ClassShape (α : Type) where
  name : Bytes := []
  typeParameters : Bytes := []
  superClass : Option α := none
  superTypeArguments : List Bytes := []
  implemented : List Bytes := []
  members : List (ClassMember α) := []
  decorators : List α := []
  isAbstract : Bool := false
  isDeclare : Bool := false

def ClassShape.children {α : Type} (c : ClassShape α) : List α :=
  c.decorators ++ c.superClass.toList ++ c.members.flatMap (·.children)

/-! ## Statements -/

structure Declarator (α : Type) where
  target : α
  type : Bytes := []
  init : Option α := none
  definite : Bool := false

def Declarator.children {α : Type} (d : Declarator α) : List α := d.target :: d.init.toList

/-- A clause of a switch; the default clause has no test. -/
structure SwitchCase (α : Type) where
  test : Option α := none
  body : List α := []

def SwitchCase.children {α : Type} (c : SwitchCase α) : List α := c.test.toList ++ c.body

structure TryShape (α : Type) where
  block : α
  param : Option α := none
  paramType : Bytes := []
  handler : Option α := none
  finalizer : Option α := none

def TryShape.children {α : Type} (t : TryShape α) : List α :=
  t.block :: t.param.toList ++ t.handler.toList ++ t.finalizer.toList

structure EnumMember (α : Type) where
  name : Bytes
  init : Option α := none

/-! ## Imports and exports -/

/-- One name of an import list: the export and the local name it is bound to. -/
structure ImportSpecifier where
  imported : Bytes
  localName : Bytes
  isType : Bool := false
  deriving DecidableEq, Repr

/-- An import declaration: everything that it binds from one module. -/
structure ImportClause where
  source : Bytes
  defaultName : Bytes := []
  namespaceName : Bytes := []
  specifiers : List ImportSpecifier := []
  typeOnly : Bool := false
  deriving DecidableEq, Repr

/-- An import that binds no name runs its module for the effects alone. -/
def ImportClause.isSideEffect (clause : ImportClause) : Bool :=
  clause.defaultName.isEmpty && clause.namespaceName.isEmpty && clause.specifiers.isEmpty

structure ExportSpecifier where
  localName : Bytes
  exported : Bytes
  isType : Bool := false
  deriving DecidableEq, Repr

/-- What a module exports by default. -/
inductive DefaultExport (α : Type) where
  | declaration (node : α)
  | expression (node : α)

def DefaultExport.node {α : Type} : DefaultExport α → α
  | .declaration node => node
  | .expression node => node

end SignalView
