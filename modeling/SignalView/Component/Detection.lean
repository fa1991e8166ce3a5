import SignalView.Component.ElementType
import SignalView.Report.Failure
import SignalView.Syntax.Reach
import SignalView.Text.Name

/-!
# Detecting components

Rules decide in the order of their priorities whether a function is a component; the first one that
fits has the last word. The rule on callbacks is negative: what it fits is no component. A function
that returns a variable holding markup gets its return type filled in, or a warning when it is
annotated as something else.
-/

namespace SignalView

inductive Confidence where
  | low | medium | high
  deriving DecidableEq, Repr

def Confidence.name : Confidence → Bytes
  | .low => bytes "low"
  | .medium => bytes "medium"
  | .high => bytes "high"

/-! ## Rules -/

inductive DetectionRule where
  | anonymousCallback | returnType | directReturn | variableReturn | conditionalReturn | pascalCase
  | markupInBody
  deriving DecidableEq, Repr

namespace DetectionRule

/-- The rules in the order in which they are tried. -/
def all : List DetectionRule :=
  [.anonymousCallback, .returnType, .directReturn, .variableReturn, .conditionalReturn, .pascalCase,
    .markupInBody]

def name : DetectionRule → Bytes
  | .anonymousCallback => bytes "AnonymousCallback"
  | .returnType => bytes "ReturnType"
  | .directReturn => bytes "DirectJsxReturn"
  | .variableReturn => bytes "VariableJsxReturn"
  | .conditionalReturn => bytes "ConditionalJsxReturn"
  | .pascalCase => bytes "PascalCase"
  | .markupInBody => bytes "HasJsxInBody"

def priority : DetectionRule → Nat
  | .anonymousCallback => 0
  | .returnType => 1
  | .directReturn | .variableReturn | .conditionalReturn => 2
  | .pascalCase => 3
  | .markupInBody => 6

def confidence : DetectionRule → Confidence
  | .pascalCase => .medium
  | .markupInBody => .low
  | _ => .high

def rationale : DetectionRule → Bytes
  | .anonymousCallback =>
    bytes "anonymous function passed as a callback, array element or property value"
  | .returnType => bytes "explicit element return type annotation"
  | .directReturn => bytes "returns a JSX expression directly"
  | .variableReturn => bytes "returns a variable initialized with JSX"
  | .conditionalReturn => bytes "returns JSX from a conditional expression or branch"
  | .pascalCase => bytes "PascalCase function name"
  | .markupInBody => bytes "JSX appears somewhere in the body"

def isNegative (rule : DetectionRule) : Bool := rule == .anonymousCallback

end DetectionRule

/-! ## Functions as detection sees them -/

/-- A function with the name it goes by. -/
structure FunctionView where
  name : Bytes
  returnType : Bytes
  block : Option Node := none
  value : Option Node := none
  isExpression : Bool
  line : Nat
  column : Nat

namespace FunctionView

/-- The view of a function that is bound to a name, which may be empty. Declarations go by their
own name first, expressions by the name they are bound to. -/
def ofNode? (binding : Bytes) (node : Node) : Option FunctionView :=
  match node with
  | .plain _ (.functionDeclaration f _) =>
    some {
      name := if f.name.isEmpty then binding else f.name
      returnType := f.returnType
      block := f.body
      isExpression := false, line := node.line, column := node.column }
  | .plain _ (.function f) =>
    some {
      name := if binding.isEmpty then f.name else binding, returnType := f.returnType
      block := f.body, isExpression := true, line := node.line, column := node.column }
  | .plain _ (.arrow f) =>
    let view : FunctionView := {
      name := binding, returnType := f.returnType, isExpression := true, line := node.line
      column := node.column }
    match f.body with
    | .block body => some { view with block := some body }
    | .expression value => some { view with value := some value }
  | _ => none

/-- The statements of a function's block. -/
def statements (f : FunctionView) : List Node :=
  match f.block with
  | some (.plain _ (.block body)) => body
  | _ => []

/-- The values of a function's own `return` statements, at any depth of branches and loops. -/
def returned (f : FunctionView) : List Node :=
  f.block.toList.flatMap fun block ↦ block.ownDescendants.filterMap fun
    | .plain _ (.returnValue argument) => argument
    | _ => none

end FunctionView

/-! ## What the rules ask -/

namespace Node

/-- Markup, perhaps in parentheses. -/
def isMarkupValue (node : Node) : Bool := node.unwrap.isMarkup

/-- The operators that hand on one of their operands. -/
def isLogical (op : Bytes) : Bool := [bytes "&&", bytes "||", bytes "??"].contains op

/-- Whether a conditional or a logical operator may yield markup. -/
def mayYieldMarkup (node : Node) : Bool :=
  match node with
  | .plain _ (.paren inner) => inner.mayYieldMarkup
  | .plain _ (.conditional _ consequent alternate) =>
    consequent.isMarkupValue || alternate.isMarkupValue || consequent.mayYieldMarkup ||
      alternate.mayYieldMarkup
  | .plain _ (.binary op left right) =>
    isLogical op && (left.isMarkupValue || right.isMarkupValue || left.mayYieldMarkup ||
      right.mayYieldMarkup)
  | _ => false
termination_by structural node

/-- The names of the constants that a statement declares with markup as their value. -/
def markupConstants : Node → List Bytes
  | .plain _ (.variableDeclaration keyword declarators _) =>
    if keyword == bytes "const" then
      declarators.filterMap fun d ↦ if d.init.any isMarkupValue then d.target.name? else none
    else []
  | _ => []

end Node

namespace FunctionView

def returnsDirectly (f : FunctionView) : Bool :=
  match f.value with
  | some value => value.isMarkupValue
  | none => f.statements.any fun
    | .plain _ (.returnValue argument) => argument.any Node.isMarkupValue
    | _ => false

def returnsVariable (f : FunctionView) : Bool :=
  let constants := f.statements.flatMap Node.markupConstants
  f.returned.any fun argument ↦ argument.unwrap.name?.any constants.contains

def returnsConditionally (f : FunctionView) : Bool :=
  match f.value with
  | some value => value.mayYieldMarkup
  | none => f.returned.any fun argument ↦ argument.isMarkupValue || argument.mayYieldMarkup

def hasMarkup (f : FunctionView) : Bool :=
  match f.value with
  | some value => value.isMarkup || value.descendants.any Node.isMarkup
  | none => f.block.any fun block ↦ block.descendants.any Node.isMarkup

end FunctionView

/-! ## Detection -/

/-- What is known about a function besides its text: the name it is bound to, whether it stands
where a callback does, and whether a missing return type is to be filled in. -/
structure DetectionPlace where
  binding : Bytes := []
  isCallback : Bool := false
  autoAnnotate : Bool := true

structure Detection where
  isComponent : Bool := false
  confidence : Confidence := .low
  strategy : Bytes := bytes "None"
  rationale : Bytes
  name : Bytes := []
  returnType : Option Bytes := none
  diagnostics : List Diagnostic := []

namespace Detection

def fits (place : DetectionPlace) (f : FunctionView) : DetectionRule → Bool
  | .anonymousCallback => place.binding.isEmpty && f.isExpression && place.isCallback
  | .returnType => ElementType.isElementType f.returnType
  | .directReturn => f.returnsDirectly
  | .variableReturn => f.returnsVariable
  | .conditionalReturn => f.returnsConditionally
  | .pascalCase => Name.isPascalCase f.name
  | .markupInBody => f.hasMarkup

/-- The type that is filled in for a function that returns a variable holding markup. -/
def filledType : Bytes := bytes "HTMLElement"

/-- The warning about a return type that does not name an element. -/
def misannotated (f : FunctionView) : Diagnostic where
  severity := .warning
  phase := .detector
  code := bytes "PSR-D001"
  message := bytes "'" ++ (if f.name.isEmpty then bytes "function" else f.name) ++
    bytes "' returns JSX but is annotated as '" ++ f.returnType ++ bytes "'"
  line := f.line
  column := f.column

/-- What the rule that fits says about a function. -/
def ofRule (place : DetectionPlace) (f : FunctionView) (rule : DetectionRule) : Detection :=
  let annotates := rule == .variableReturn && f.returnType.isEmpty && place.autoAnnotate
  let warns := rule == .variableReturn && !f.returnType.isEmpty &&
    !ElementType.isElementType f.returnType
  { isComponent := !rule.isNegative
    confidence := rule.confidence
    strategy := rule.name
    rationale := rule.rationale
    name := f.name
    returnType := some (if annotates then filledType else f.returnType)
    diagnostics := if warns then [misannotated f] else [] }

end Detection

/-- Decides whether a node is a component. -/
def detect (place : DetectionPlace) (node : Node) : Detection :=
  match FunctionView.ofNode? place.binding node with
  | none => { rationale := bytes "not a function: " ++ bytes node.kindName }
  | some f =>
    match DetectionRule.all.find? (Detection.fits place f) with
    | some rule => .ofRule place f rule
    | none =>
      { rationale := bytes "no strategy matched", name := f.name, returnType := some f.returnType }

/-- The same function with another return type. -/
def Node.withReturnType (type : Bytes) : Node → Node
  | .plain range (.functionDeclaration f isDeclare) =>
    .plain range (.functionDeclaration { f with returnType := type } isDeclare)
  | .plain range (.function f) => .plain range (.function { f with returnType := type })
  | .plain range (.arrow f) => .plain range (.arrow { f with returnType := type })
  | node => node

end SignalView
