import SignalView.Syntax.Pattern
import SignalView.View.Shape

/-!
# The view tree

What a program is lowered to: plain constructs, and the constructs that build views. Every node
remembers the line and the column it comes from.
-/

namespace SignalView

/-- The constructs that take the place of components, class expressions and markup. -/
inductive Rendered (α : Type) where
  | component (c : Component α)
  | classValue (c : ClassShape α)
  | element (e : ElementShape α)
  | componentCall (name : Bytes) (props : List (ViewAttribute α)) (children : List α)
  | fragment (children : List α)
  | text (value : Bytes)
  | child (classification : Classification) (expression : α)

inductive View where
  | plain (line column : Nat) (form : Plain View)
  | rendered (line column : Nat) (form : Rendered View)

namespace View

instance : Inhabited View := ⟨.plain 0 0 .omitted⟩

def line : View → Nat
  | .plain line _ _ => line
  | .rendered line _ _ => line

def column : View → Nat
  | .plain _ column _ => column
  | .rendered _ column _ => column

/-- The name of a node's kind in reports. -/
def kindName : View → String
  | .plain _ _ form =>
    match form with
    | .identifier _ => "identifier"
    | .number _ _ | .string _ | .regex _ | .boolean _ | .null | .this | .super => "literal"
    | .template _ _ => "template"
    | .taggedTemplate _ _ _ => "tagged_template"
    | .array _ => "array"
    | .object _ => "object"
    | .function _ | .arrow _ | .functionDeclaration _ _ => "function"
    | .unary _ _ _ => "unary"
    | .await _ => "await"
    | .yield _ _ => "yield"
    | .binary _ _ _ => "binary"
    | .assignment _ _ _ => "assignment"
    | .conditional _ _ _ => "conditional"
    | .call _ _ _ _ => "call"
    | .new _ _ _ => "new"
    | .member _ _ _ => "member"
    | .spread _ => "spread"
    | .sequence _ => "sequence"
    | .paren _ => "paren"
    | .cast _ _ _ => "as"
    | .nonNull _ => "non_null"
    | .assignmentPattern _ _ => "assignment_pattern"
    | .omitted => "omitted"
    | .block _ => "block"
    | .expressionStatement _ => "expression_statement"
    | .variableDeclaration _ _ _ => "variable"
    | .ifElse _ _ _ => "if"
    | .switch _ _ => "switch"
    | .forLoop _ _ _ _ => "for"
    | .forIn _ _ _ _ _ => "for_in"
    | .whileLoop _ _ => "while"
    | .doWhile _ _ => "do_while"
    | .jump _ _ => "jump"
    | .returnValue _ => "return"
    | .throw _ => "throw"
    | .tryCatch _ => "try"
    | .labeled _ _ => "labeled"
    | .empty => "empty"
    | .debugger => "debugger"
    | .classDeclaration _ => "class"
    | .interface _ _ _ _ _ | .typeAlias _ _ _ _ => "type_declaration"
    | .enum _ _ _ _ => "enum"
    | .module _ _ _ _ => "namespace"
    | .imports _ => "import"
    | .exportNamed _ _ _ _ => "export_named"
    | .exportDefault _ => "export_default"
    | .exportAll _ _ _ => "export_all"
  | .rendered _ _ form =>
    match form with
    | .component _ => "component"
    | .classValue _ => "class"
    | .element _ => "element"
    | .componentCall _ _ _ => "component_call"
    | .fragment _ => "fragment"
    | .text _ => "jsx_text"
    | .child _ _ => "jsx_child"

/-- The name of an identifier. -/
def name? : View → Option Bytes
  | .plain _ _ (.identifier name) => some name
  | _ => none

/-- Whether a child can be handed to the call that builds its parent. -/
def isStaticChild : View → Bool
  | .rendered _ _ (.text _) | .rendered _ _ (.componentCall _ _ _) | .rendered _ _ (.fragment _) =>
    true
  | .rendered _ _ (.element e) => e.isStatic
  | .rendered _ _ (.child _ (.rendered _ _ (.element e))) => e.isStatic
  | .rendered _ _ (.child classification _) =>
    classification.category == .static && !classification.isNullable
  | _ => false

/-- The names that a pattern gives values to, in the order of the source. -/
def boundNames (pattern : View) : List Bytes :=
  match pattern with
  | .plain _ _ (.identifier name) => [name]
  | .plain _ _ form =>
    (form.subpatterns (·.assignedPart)).attach.flatMap fun ⟨part, _⟩ ↦ part.boundNames
  | .rendered _ _ _ => []
termination_by sizeOf pattern
decreasing_by
  have := Plain.sizeOf_lt_of_mem_subpatterns Property.eq_or_eq_of_assignedPart ‹_›
  simp
  omega

end View

/-- The value that a component renders: its expression, or what the last `return` among the
statements of its block returns. -/
def Component.rendering (component : Component View) : Option View :=
  match component.block with
  | some (.plain _ _ (.block body)) =>
    (body.reverse.findSome? fun
      | .plain _ _ (.returnValue argument) => some argument
      | _ => none).join
  | some _ => none
  | none => component.value

end SignalView
