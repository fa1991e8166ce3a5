import SignalView.Syntax.Plain
import SignalView.Text.Position

/-!
# The syntax tree

A node is a plain construct, or one that only the source knows: component declarations, class
expressions and markup. Every node carries its range in the source. The parts of a node are
smaller than the node, so its descendants can be listed.
-/

namespace SignalView

/-- The constructs that lowering replaces. A markup element holds its attributes as nodes; an
attribute that is spread has no name, and an empty container has no expression. -/
inductive Surface (α : Type) where
  | program (body : List α)
  | classExpression (declaration : α)
  | component (f : Callable α)
  | element (tag : Bytes) (attributes children : List α) (selfClosing : Bool)
  | fragment (children : List α)
  | text (raw value : Bytes)
  | container (expression : Option α)
  | attr (name : Bytes) (value : Option α) (isSpread : Bool)

def Surface.children {α : Type} : Surface α → List α
  | .program body => body
  | .classExpression declaration => [declaration]
  | .component f => f.children
  | .element _ attributes children _ => attributes ++ children
  | .fragment children => children
  | .text _ _ => []
  | .container expression => expression.toList
  | .attr _ value _ => value.toList

inductive Node where
  | plain (range : Range) (form : Plain Node)
  | surface (range : Range) (form : Surface Node)

namespace Node

instance : Inhabited Node := ⟨.plain {} .omitted⟩

def range : Node → Range
  | .plain range _ => range
  | .surface range _ => range

def line (node : Node) : Nat := node.range.start.line

def column (node : Node) : Nat := node.range.start.column

/-- The same construct with another start. -/
def startingAt (start : Position) : Node → Node
  | .plain range form => .plain { range with start := start } form
  | .surface range form => .surface { range with start := start } form

/-- The parts of a node in the order of the source. -/
def children : Node → List Node
  | .plain _ form => form.children
  | .surface _ form => form.children

/-! ## Kinds -/

/-- The name of a node's kind in reports. -/
def kindName : Node → String
  | .plain _ form =>
    match form with
    | .identifier _ => "IDENTIFIER"
    | .number _ _ => "NUMBER_LITERAL"
    | .string _ => "STRING_LITERAL"
    | .regex _ => "REGEX_LITERAL"
    | .boolean _ => "BOOLEAN_LITERAL"
    | .null => "NULL_LITERAL"
    | .this => "THIS_EXPRESSION"
    | .super => "SUPER_EXPRESSION"
    | .template _ _ => "TEMPLATE_LITERAL"
    | .taggedTemplate _ _ _ => "TAGGED_TEMPLATE"
    | .array _ => "ARRAY_LITERAL"
    | .object _ => "OBJECT_LITERAL"
    | .function _ => "FUNCTION_EXPRESSION"
    | .arrow _ => "ARROW_FUNCTION"
    | .unary _ _ _ => "UNARY_EXPRESSION"
    | .await _ => "AWAIT_EXPRESSION"
    | .yield _ _ => "YIELD_EXPRESSION"
    | .binary _ _ _ => "BINARY_EXPRESSION"
    | .assignment _ _ _ => "ASSIGNMENT_EXPRESSION"
    | .conditional _ _ _ => "CONDITIONAL_EXPRESSION"
    | .call _ _ _ _ => "CALL_EXPRESSION"
    | .new _ _ _ => "NEW_EXPRESSION"
    | .member _ _ _ => "MEMBER_EXPRESSION"
    | .spread _ => "SPREAD_ELEMENT"
    | .sequence _ => "SEQUENCE_EXPRESSION"
    | .paren _ => "PARENTHESIZED_EXPRESSION"
    | .cast _ _ _ => "AS_EXPRESSION"
    | .nonNull _ => "NON_NULL_EXPRESSION"
    | .assignmentPattern _ _ => "ASSIGNMENT_PATTERN"
    | .omitted => "OMITTED_EXPRESSION"
    | .block _ => "BLOCK_STATEMENT"
    | .expressionStatement _ => "EXPRESSION_STATEMENT"
    | .variableDeclaration _ _ _ => "VARIABLE_DECLARATION"
    | .ifElse _ _ _ => "IF_STATEMENT"
    | .switch _ _ => "SWITCH_STATEMENT"
    | .forLoop _ _ _ _ => "FOR_STATEMENT"
    | .forIn _ _ _ _ _ => "FOR_IN_STATEMENT"
    | .whileLoop _ _ => "WHILE_STATEMENT"
    | .doWhile _ _ => "DO_WHILE_STATEMENT"
    | .jump isBreak _ => if isBreak then "BREAK_STATEMENT" else "CONTINUE_STATEMENT"
    | .returnValue _ => "RETURN_STATEMENT"
    | .throw _ => "THROW_STATEMENT"
    | .tryCatch _ => "TRY_STATEMENT"
    | .labeled _ _ => "LABELED_STATEMENT"
    | .empty => "EMPTY_STATEMENT"
    | .debugger => "DEBUGGER_STATEMENT"
    | .functionDeclaration _ _ => "FUNCTION_DECLARATION"
    | .classDeclaration _ => "CLASS_DECLARATION"
    | .interface _ _ _ _ _ => "INTERFACE_DECLARATION"
    | .typeAlias _ _ _ _ => "TYPE_ALIAS_DECLARATION"
    | .enum _ _ _ _ => "ENUM_DECLARATION"
    | .module _ _ _ _ => "NAMESPACE_DECLARATION"
    | .imports _ => "IMPORT_DECLARATION"
    | .exportNamed _ _ _ _ => "EXPORT_NAMED_DECLARATION"
    | .exportDefault _ => "EXPORT_DEFAULT_DECLARATION"
    | .exportAll _ _ _ => "EXPORT_ALL_DECLARATION"
  | .surface _ form =>
    match form with
    | .program _ => "PROGRAM"
    | .classExpression _ => "CLASS_EXPRESSION"
    | .component _ => "COMPONENT_DECLARATION"
    | .element _ _ _ _ => "JSX_ELEMENT"
    | .fragment _ => "JSX_FRAGMENT"
    | .text _ _ => "JSX_TEXT"
    | .container _ => "JSX_EXPRESSION_CONTAINER"
    | .attr _ _ _ => "JSX_ATTRIBUTE"

def isFunctionLike : Node → Bool
  | .plain _ (.function _) | .plain _ (.arrow _) | .plain _ (.functionDeclaration _ _) => true
  | .surface _ (.component _) => true
  | _ => false

/-- Elements and fragments. -/
def isMarkup : Node → Bool
  | .surface _ (.element _ _ _ _) | .surface _ (.fragment _) => true
  | _ => false

def isComponent : Node → Bool
  | .surface _ (.component _) => true
  | _ => false

/-- The name of an identifier. -/
def name? : Node → Option Bytes
  | .plain _ (.identifier name) => some name
  | _ => none

/-- The expression inside any number of parentheses. -/
def unwrap (node : Node) : Node :=
  match node with
  | .plain _ (.paren expression) => expression.unwrap
  | node => node
termination_by structural node

/-- Capitalised and dotted tags call a component instead of building an element. -/
def isComponentTag (tag : Bytes) : Bool :=
  tag.contains (byte '.') || tag.head?.any Byte.isUpper

end Node

end SignalView
