import SignalView.Lowering.Program
import SignalView.Proofs.Binding.Scoping

/-!
# The events of a program

The events of a construct are those of its parts, in the order in which they are lowered. A scope is
opened for the parameters and the body of a function, for the members of a class, for blocks and for
loops with a head; the names of a declaration are declared in front of its parts. Nothing here
depends on what is in scope.
-/

namespace SignalView

/-- The events of the entry points, which are mutually recursive, and the module whose exports are
the primitives. -/
structure Tracing where
  runtimeModule : Bytes
  statement : Node → List Event
  expression : Node → List Event
  element : Node → List Event

namespace Tracing

/-- Events in a scope of their own. -/
def inScope (trace : List Event) : List Event := .opens :: (trace ++ [.closes])

def declares (names : List Bytes) : List Event := names.map fun name ↦ .declares name false


variable (t : Tracing)

/-! ## Expressions -/

def expressions (nodes : List Node) : List Event := nodes.flatMap t.expression

def optional (node : Option Node) : List Event := t.expressions node.toList

def block (newScope : Bool) : Node → List Event
  | .plain _ (.block body) =>
    if newScope then inScope (body.flatMap t.statement) else body.flatMap t.statement
  | node => t.statement node

/-- The names that the parameters of a function bind. -/
def paramNames (ps : List (Param Node)) : List Bytes :=
  ps.flatMap fun p ↦ p.pattern.toList.flatMap (·.boundNames)

def params (ps : List (Param Node)) : List Event :=
  declares (paramNames ps) ++
    ps.flatMap fun p ↦ t.expressions p.decorators ++ (t.optional p.pattern ++ t.optional p.initial)

def callable (f : Callable Node) : List Event :=
  t.params f.params ++ f.body.toList.flatMap (t.block false)

def functionExpression (f : Callable Node) : List Event :=
  inScope (.declares f.name true :: t.callable f)

def arrowBody : ArrowBody Node → List Event
  | .block body => t.block false body
  | .expression value => t.expression value

def arrow (f : Arrow Node) : List Event := inScope (t.params f.params ++ t.arrowBody f.body)

/-- A key that is not computed is no reference when it is a name. -/
def propertyKey (computed : Bool) (key : Node) : List Event :=
  match key, computed with
  | .plain range (.identifier name), false =>
    [.keeps (.name range.start.line range.start.column name)]
  | key, _ => t.expression key

def property (p : Property Node) : List Event :=
  p.key.toList.flatMap (t.propertyKey p.computed) ++ t.optional p.value

def memberKey : MemberKey Node → List Event
  | .named _ => []
  | .computed index => t.expression index

def classMember (m : ClassMember Node) : List Event :=
  t.expressions m.decorators ++ (m.key.toList.flatMap (t.propertyKey m.computed) ++
    (t.optional m.value ++ m.block.toList.flatMap (t.block true)))

def classShape (c : ClassShape Node) : List Event :=
  t.expressions c.decorators ++
    (t.optional c.superClass ++ inScope (c.members.flatMap t.classMember))

def plainExpression (node : Node) : Plain Node → List Event
  | .identifier name => [.refers node.line node.column name]
  | .template _ holes => t.expressions holes
  | .taggedTemplate tag _ quasi => t.expression tag ++ t.expression quasi
  | .array elements => t.expressions elements
  | .object properties => properties.flatMap t.property
  | .function f => t.functionExpression f
  | .arrow f => t.arrow f
  | .unary _ operand _ => t.expression operand
  | .await argument => t.expression argument
  | .yield argument _ => t.optional argument
  | .binary _ left right => t.expression left ++ t.expression right
  | .assignment _ target value => t.expression target ++ t.expression value
  | .conditional test consequent alternate =>
    t.expression test ++ (t.expression consequent ++ t.expression alternate)
  | .call callee _ args _ => t.expression callee ++ t.expressions args
  | .new callee _ args => t.expression callee ++ args.toList.flatMap t.expressions
  | .member receiver key _ => t.expression receiver ++ t.memberKey key
  | .spread argument => t.expression argument
  | .sequence parts => t.expressions parts
  | .paren inner => t.expression inner
  | .cast inner _ _ => t.expression inner
  | .nonNull inner => t.expression inner
  | .assignmentPattern target initial => t.expression target ++ t.expression initial
  | _ => []

def expressionStep (node : Node) : List Event :=
  match node with
  | .plain _ form => t.plainExpression node form
  | .surface _ form =>
    match form with
    | .classExpression (.plain _ (.classDeclaration c)) => t.classShape c
    | .element _ _ _ _ | .fragment _ => t.element node
    | .container inner => t.optional inner
    | _ => []

/-! ## Markup -/

def attributeValue : Node → List Event
  | .surface _ (.container (some inner)) => t.expression inner
  | node => t.expression node

def markupAttribute : Node → List Event
  | .surface _ (.attr _ value isSpread) =>
    if isSpread then t.optional value else value.toList.flatMap t.attributeValue
  | _ => []

theorem markupAttribute_attr (range : Range) (name : Bytes) (value : Option Node)
    (isSpread : Bool) : t.markupAttribute (.surface range (.attr name value isSpread)) =
      if isSpread then t.optional value else value.toList.flatMap t.attributeValue :=
  rfl

def markupChild : Node → List Event
  | .surface _ (.text _ _) => []
  | .surface _ (.container inner) => t.optional inner
  | node => t.expression node

def elementStep (node : Node) : List Event :=
  match node with
  | .surface _ (.element _ attributes children _) =>
    attributes.flatMap t.markupAttribute ++ children.flatMap t.markupChild
  | .surface _ (.fragment children) => children.flatMap t.markupChild
  | _ => []

/-! ## Declarations -/

/-- What detection says about a function that is taken for a component. -/
def detected? (binding : Bytes) (node : Node) : Option Detection :=
  let detection := detect { binding := binding } node
  if detection.isComponent && !detection.name.isEmpty then some detection else none

/-- Whether an expression is a function. -/
def isFunction : Node → Bool
  | .plain _ (.arrow _) | .plain _ (.function _) => true
  | _ => false

/-- The function of a declarator that is taken for a component. It comes in front of the name that
it is bound to. -/
def boundComponent? (d : Declarator Node) : Option Node :=
  match d.target.name?, d.init with
  | some name, some init =>
    if isFunction init && (detected? name init).isSome then some init else none
  | _, _ => none

/-- The own name of a function expression is not declared in a component. -/
def boundComponent : Node → List Event
  | .plain _ (.arrow f) => t.arrow f
  | .plain _ (.function f) => inScope (t.callable f)
  | node => t.expression node

def declarator (atModule : Bool) (d : Declarator Node) : List Event :=
  declares d.target.boundNames ++
    match if atModule then boundComponent? d else none with
    | some init => t.boundComponent init ++ t.expression d.target
    | none => t.expression d.target ++ t.optional d.init

/-- The parameters and the body of a component. -/
def componentParts (c : Component Node) : List Event :=
  t.params c.params ++ (c.block.toList.flatMap (t.block false) ++
    if c.block.isSome then [] else t.optional c.value)

/-- A function declaration or a component. -/
def function (f : Callable Node) : List Event :=
  .declares f.name true :: inScope (t.callable f)

def moduleItem (node : Node) : List Event :=
  match node with
  | .plain range (.imports clause) =>
    [.imports range.start.line range.start.column clause (clause.source == t.runtimeModule)]
  | .plain range (.exportNamed declaration specifiers source _) =>
    (match declaration with
      | some declaration => moduleItem declaration
      | none => []) ++
      [.keeps (.exports range.start.line range.start.column specifiers source)]
  | .plain _ (.exportDefault value) =>
    match value with
    | .declaration declaration => moduleItem declaration
    | .expression expression => t.expression expression
  | .plain _ (.functionDeclaration f _) => t.function f
  | .plain _ (.variableDeclaration _ declarators _) => declarators.flatMap (t.declarator true)
  | node => t.statement node
termination_by structural node

/-! ## Statements -/

def switchCase (c : SwitchCase Node) : List Event :=
  t.optional c.test ++ c.body.flatMap t.statement

def catchClause (param : Option Node) (handler : Node) : List Event :=
  inScope (declares (param.toList.flatMap (·.boundNames)) ++
    (t.optional param ++ t.block false handler))

def tryShape (shape : TryShape Node) : List Event :=
  t.block true shape.block ++
    (shape.handler.toList.flatMap (t.catchClause shape.param) ++
      shape.finalizer.toList.flatMap (t.block true))

def plainStatement : Plain Node → List Event
  | .expressionStatement expression => t.expression expression
  | .variableDeclaration _ declarators _ => declarators.flatMap (t.declarator false)
  | .ifElse test consequent alternate =>
    t.expression test ++ (t.statement consequent ++ alternate.toList.flatMap t.statement)
  | .switch discriminant cases =>
    t.expression discriminant ++ inScope (cases.flatMap t.switchCase)
  | .forLoop init test update body =>
    inScope (init.toList.flatMap t.statement ++
      (t.optional test ++ (t.optional update ++ t.statement body)))
  | .forIn left right body _ _ =>
    t.expression right ++ inScope (t.statement left ++ t.statement body)
  | .whileLoop test body => t.expression test ++ t.statement body
  | .doWhile body test => t.statement body ++ t.expression test
  | .returnValue argument => t.optional argument
  | .throw argument => t.expression argument
  | .tryCatch shape => t.tryShape shape
  | .labeled _ body => t.statement body
  | .classDeclaration c => .declares c.name false :: t.classShape c
  | .interface name _ _ _ _ | .typeAlias name _ _ _ => [.declares name false]
  | .enum name members _ _ =>
    .declares name false :: members.flatMap fun m ↦ t.optional m.init
  | .module _ _ body _ => inScope (body.toList.flatMap fun items ↦ items.flatMap t.statement)
  | _ => []

def statementStep (node : Node) : List Event :=
  match node with
  | .plain _ (.block _) => t.block true node
  | .plain _ (.functionDeclaration f _) => t.function f
  | .plain _ (.imports _) | .plain _ (.exportNamed _ _ _ _) | .plain _ (.exportDefault _) =>
    t.moduleItem node
  | .plain _ form => t.plainStatement form
  | .surface _ (.component f) => t.function f
  | _ => []

end Tracing

/-- Nothing is written for declarations. -/
theorem Scoping.output_declares (here : Scoping) (names : List Bytes) :
    here.output (Tracing.declares names) = 0 := by
  induction names generalizing here with
  | nil => rfl
  | cons name names ih => exact (zero_add _).trans (ih _)

/-! ## Programs -/

/-- The events down to a number of levels; there are none below. -/
def tracing (runtimeModule : Bytes) : Nat → Tracing
  | 0 => {
      runtimeModule := runtimeModule
      statement := fun _ ↦ []
      expression := fun _ ↦ []
      element := fun _ ↦ [] }
  | level + 1 => {
      runtimeModule := runtimeModule
      statement := fun node ↦ (tracing runtimeModule level).statementStep node
      expression := fun node ↦ (tracing runtimeModule level).expressionStep node
      element := fun node ↦ (tracing runtimeModule level).elementStep node }

namespace ViewProgram

/-- The events of a program, as deep as it can be nested. -/
def trace (options : Options) (root : Node) : List Event :=
  root.children.flatMap (tracing options.runtimeModule options.maxDepth.toNat).moduleItem

/-- The names that are written in a program. -/
def names (program : ViewProgram) : Multiset Written := (program.body.map View.names).sum

end ViewProgram

end SignalView
