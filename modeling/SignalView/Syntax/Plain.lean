import SignalView.Syntax.Shape

/-!
# Plain constructs

The expressions, statements and declarations that mean the same in the source and in the output.
The type of the parts is left open, so that the two trees share these forms.
-/

namespace SignalView

inductive Plain (α : Type) where
  -- Expressions
  | identifier (name : Bytes)
  | number (raw : Bytes) (isBigint : Bool)
  | string (value : Bytes)
  | regex (raw : Bytes)
  | boolean (value : Bool)
  | null
  | this
  | super
  | template (quasis : List Bytes) (holes : List α)
  | taggedTemplate (tag : α) (typeArguments : List Bytes) (quasi : α)
  | array (elements : List α)
  | object (properties : List (Property α))
  | function (f : Callable α)
  | arrow (f : Arrow α)
  | unary (op : Bytes) (operand : α) (leading : Bool)
  | await (argument : α)
  | yield (argument : Option α) (delegate : Bool)
  | binary (op : Bytes) (left right : α)
  | assignment (op : Bytes) (target value : α)
  | conditional (test consequent alternate : α)
  | call (callee : α) (typeArguments : List Bytes) (args : List α) (optional : Bool)
  | new (callee : α) (typeArguments : List Bytes) (args : Option (List α))
  | member (receiver : α) (key : MemberKey α) (optional : Bool)
  | spread (argument : α)
  | sequence (expressions : List α)
  | paren (expression : α)
  | cast (expression : α) (type keyword : Bytes)
  | nonNull (expression : α)
  | assignmentPattern (target initial : α)
  | omitted
  -- Statements
  | block (body : List α)
  | expressionStatement (expression : α)
  | variableDeclaration (keyword : Bytes) (declarators : List (Declarator α)) (isDeclare : Bool)
  | ifElse (test consequent : α) (alternate : Option α)
  | switch (discriminant : α) (cases : List (SwitchCase α))
  | forLoop (init test update : Option α) (body : α)
  | forIn (left right body : α) (isOf isAwait : Bool)
  | whileLoop (test body : α)
  | doWhile (body test : α)
  | jump (isBreak : Bool) (label : Bytes)
  | returnValue (argument : Option α)
  | throw (argument : α)
  | tryCatch (t : TryShape α)
  | labeled (label : Bytes) (body : α)
  | empty
  | debugger
  -- Declarations
  | functionDeclaration (f : Callable α) (isDeclare : Bool)
  | classDeclaration (c : ClassShape α)
  | interface (name typeParameters : Bytes) (extended members : List Bytes) (isDeclare : Bool)
  | typeAlias (name typeParameters type : Bytes) (isDeclare : Bool)
  | enum (name : Bytes) (members : List (EnumMember α)) (isConst isDeclare : Bool)
  | module (keyword name : Bytes) (body : Option (List α)) (isDeclare : Bool)
  | imports (clause : ImportClause)
  | exportNamed (declaration : Option α) (specifiers : List ExportSpecifier) (source : Bytes)
    (typeOnly : Bool)
  | exportDefault (value : DefaultExport α)
  | exportAll (source name : Bytes) (typeOnly : Bool)

namespace Plain

/-- The parts of a construct in the order of the source. -/
def children {α : Type} : Plain α → List α
  | .identifier _ | .number _ _ | .string _ | .regex _ | .boolean _ | .null | .this | .super
  | .omitted | .jump _ _ | .empty | .debugger | .interface _ _ _ _ _ | .typeAlias _ _ _ _
  | .imports _ | .exportAll _ _ _ => []
  | .template _ holes => holes
  | .taggedTemplate tag _ quasi => [tag, quasi]
  | .array elements => elements
  | .object properties => properties.flatMap (·.children)
  | .function f => f.children
  | .arrow f => f.children
  | .unary _ operand _ => [operand]
  | .await argument => [argument]
  | .yield argument _ => argument.toList
  | .binary _ left right => [left, right]
  | .assignment _ target value => [target, value]
  | .conditional test consequent alternate => [test, consequent, alternate]
  | .call callee _ args _ => callee :: args
  | .new callee _ args => callee :: args.getD []
  | .member receiver key _ => receiver :: key.children
  | .spread argument => [argument]
  | .sequence expressions => expressions
  | .paren expression => [expression]
  | .cast expression _ _ => [expression]
  | .nonNull expression => [expression]
  | .assignmentPattern target initial => [target, initial]
  | .block body => body
  | .expressionStatement expression => [expression]
  | .variableDeclaration _ declarators _ => declarators.flatMap (·.children)
  | .ifElse test consequent alternate => test :: consequent :: alternate.toList
  | .switch discriminant cases => discriminant :: cases.flatMap (·.children)
  | .forLoop init test update body => init.toList ++ test.toList ++ update.toList ++ [body]
  | .forIn left right body _ _ => [left, right, body]
  | .whileLoop test body => [test, body]
  | .doWhile body test => [body, test]
  | .returnValue argument => argument.toList
  | .throw argument => [argument]
  | .tryCatch t => t.children
  | .labeled _ body => [body]
  | .functionDeclaration f _ => f.children
  | .classDeclaration c => c.children
  | .enum _ members _ _ => members.flatMap (·.init.toList)
  | .module _ _ body _ => body.getD []
  | .exportNamed declaration _ _ _ => declaration.toList
  | .exportDefault value => [value.node]

end Plain

end SignalView
