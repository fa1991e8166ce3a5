import SignalView.Script.Action

/-!
# Writing expressions
-/

namespace SignalView.Emission

open Emit

variable (e : Emission)

/-! ## Small parts -/

def typeArguments (args : List Bytes) : Bytes :=
  if args.isEmpty then [] else bytes "<" ++ Bytes.join (bytes ", ") args ++ bytes ">"

def annotation (type : Bytes) : Bytes := if type.isEmpty then [] else bytes ": " ++ type

/-- A text behind a condition, for the words and marks that may be missing. -/
def when (present : Bool) (text : String) : Bytes := if present then bytes text else []

def decorators (separator : Bytes) (views : List View) : Emit Bytes :=
  return (← views.mapM fun view ↦ do
    return bytes "@" ++ (← e.expression view) ++ separator).flatten

def words (modifiers : List Bytes) : Bytes := modifiers.flatMap (· ++ bytes " ")

def initial (value : Option View) : Emit Bytes :=
  match value with
  | none => return []
  | some value => return bytes " = " ++ (← e.expression value)

/-! ## Functions -/

def param (p : Param View) : Emit Bytes := do
  let decorators ← e.decorators (bytes " ") p.decorators
  let pattern ← e.optionalExpression p.pattern
  let initial ← e.initial p.initial
  return decorators ++ words p.modifiers ++ when p.rest "..." ++ pattern ++ when p.optional "?" ++
    annotation p.type ++ initial

/-- Type parameters, parameters and return type. -/
def signature (typeParameters : Bytes) (params : List (Param View)) (returnType : Bytes) :
    Emit Bytes := do
  let params ← params.mapM e.param
  return typeParameters ++ bytes "(" ++ Bytes.join (bytes ", ") params ++ bytes ")" ++
    annotation returnType

def bodyText (missing : String) (body : Option View) : Emit Bytes :=
  match body with
  | none => return bytes missing
  | some body => return bytes " " ++ (← e.braced body)

def callableText (f : Callable View) (isDeclare : Bool) : Emit Bytes := do
  let name :=
    if f.name.isEmpty then when (!f.isGenerator) " " else bytes " " ++ f.name
  let signature ← e.signature f.typeParameters f.params f.returnType
  let body ← e.bodyText "" f.body
  return when isDeclare "declare " ++ when f.isAsync "async " ++ bytes "function" ++
    when f.isGenerator "*" ++ name ++ signature ++ body

def arrowText (f : Arrow View) : Emit Bytes := do
  let signature ← e.signature f.typeParameters f.params f.returnType
  let body ← match f.body with
    | .block body => e.braced body
    | .expression value => e.arrowBody value
  return when f.isAsync "async " ++ signature ++ bytes " => " ++ body

/-! ## Objects -/

def keyText (computed : Bool) (key : Option View) : Emit Bytes := do
  if computed then return bytes "[" ++ (← e.optionalExpression key) ++ bytes "]"
  else
    match key.bind View.name? with
    | some name => return name
    | none => e.optionalExpression key

/-- The function that a method or an accessor holds. -/
def heldFunction? : Option View → Option (Callable View)
  | some (.plain _ _ (.function f)) => some f
  | _ => none

def methodMarks (f : Option (Callable View)) : Bytes :=
  when (f.any (·.isAsync)) "async " ++ when (f.any (·.isGenerator)) "*"

/-- The default of a pattern that binds a name. -/
def defaultOf? (key : Bytes) : View → Option View
  | .plain _ _ (.assignmentPattern target initial) =>
    if target.name? == some key then some initial else none
  | _ => none

/-- A shorthand is written out when its value goes by another name than its key. -/
def shorthandText (key : Bytes) (value : Option View) : Emit Bytes := do
  match value with
  | none => return key
  | some value =>
    if value.name? == some key then return key
    else
      match defaultOf? key value with
      | some initial => return key ++ bytes " = " ++ (← e.expression initial)
      | none => return key ++ bytes ": " ++ (← e.expression value)

def methodText (lead : String) (p : Property View) : Emit Bytes := do
  let f := heldFunction? p.value
  let key ← e.keyText p.computed p.key
  let rest ← match f with
    | none => pure []
    | some f =>
      let signature ← e.signature f.typeParameters f.params f.returnType
      pure (signature ++ (← e.bodyText " \x7b\x7d" f.body))
  return bytes lead ++ methodMarks f ++ key ++ rest

def propertyText (p : Property View) : Emit Bytes := do
  match p.kind with
  | .spread => return bytes "..." ++ (← e.optionalExpression p.value)
  | .shorthand => e.shorthandText (← e.keyText p.computed p.key) p.value
  | .method => e.methodText "" p
  | .getter => e.methodText "get " p
  | .setter => e.methodText "set " p
  | .init =>
    let key ← e.keyText p.computed p.key
    return key ++ bytes ": " ++ (← e.optionalExpression p.value)

/-- Entries in braces with spaces inside, unless there are none. -/
def bracedEntries (entries : List Bytes) : Bytes :=
  if entries.isEmpty then bytes "\x7b\x7d"
  else bytes "\x7b " ++ Bytes.join (bytes ", ") entries ++ bytes " \x7d"

/-! ## Classes -/

def fieldText (m : ClassMember View) : Emit Bytes := do
  let key ← e.keyText m.computed m.key
  let initial ← e.initial m.value
  return key ++ when m.optional "?" ++ when m.definite "!" ++ annotation m.type ++ initial ++
    bytes ";"

def memberFunctionText (lead : String) (m : ClassMember View) : Emit Bytes := do
  let f := heldFunction? m.value
  let key ← if m.key.isSome then e.keyText m.computed m.key else pure (bytes "constructor")
  let head := bytes lead ++ methodMarks f ++ key ++ when m.optional "?"
  match f with
  | none => return head ++ bytes "();"
  | some f =>
    let signature ← e.signature f.typeParameters f.params f.returnType
    return head ++ signature ++ (← e.bodyText ";" f.body)

def memberText (m : ClassMember View) : Emit Bytes := do
  let decorators ← e.decorators (bytes " ") m.decorators
  let lead := decorators ++ words m.modifiers
  match m.kind with
  | .staticBlock =>
    let block ← match m.block with
      | some block => e.braced block
      | none => pure []
    return lead ++ bytes "static " ++ block
  | .indexSignature => return lead ++ m.type ++ bytes ";"
  | .property => return lead ++ (← e.fieldText m)
  | .getter => return lead ++ (← e.memberFunctionText "get " m)
  | .setter => return lead ++ (← e.memberFunctionText "set " m)
  | .constructor | .method => return lead ++ (← e.memberFunctionText "" m)

/-- A list of types behind a word, where there are any. -/
def typeList (word : String) (types : List Bytes) : Bytes :=
  if types.isEmpty then [] else bytes word ++ Bytes.join (bytes ", ") types

def classText (isValue : Bool) (c : ClassShape View) : Emit Bytes := do
  let separator ← if isValue then pure (bytes " ") else pure (bytes "\n" ++ (← e.pad))
  let decorators ← e.decorators separator c.decorators
  let parent ← match c.superClass with
    | none => pure []
    | some parent =>
      pure (bytes " extends " ++ (← e.expression parent) ++ typeArguments c.superTypeArguments)
  let head := decorators ++ when c.isDeclare "declare " ++ when c.isAbstract "abstract " ++
    bytes "class" ++ (if c.name.isEmpty then [] else bytes " " ++ c.name) ++ c.typeParameters ++
    parent ++ typeList " implements " c.implemented
  if c.members.isEmpty then return head ++ bytes " \x7b\x7d"
  let lines ← indented (c.members.mapM fun m ↦ do e.line (← e.memberText m))
  return head ++ bytes " \x7b\n" ++ lines.flatten ++ (← e.pad) ++ bytes "\x7d"

/-! ## Templates and operators -/

/-- Chunks of text with substitutions between them. -/
def templateParts : List Bytes → List View → Emit Bytes
  | [], _ => return []
  | quasi :: quasis, [] => return quasi ++ (← templateParts quasis [])
  | quasi :: quasis, hole :: holes => do
    let hole ← e.expression hole
    return quasi ++ bytes "$\x7b" ++ hole ++ bytes "\x7d" ++ (← templateParts quasis holes)

/-- An operator in front of its operand. A word needs a space, and so do two signs that would run
together. -/
def leadingText (op operand : Bytes) : Bytes :=
  let isWord := [bytes "typeof", bytes "void", bytes "delete"].contains op
  let runsTogether := match operand.head? with
    | some b => (b == byte '-' || b == byte '+') && op.getLast? == some b
    | none => false
  if isWord || runsTogether then op ++ bytes " " ++ operand else op ++ operand

def isOmitted : View → Bool
  | .plain _ _ .omitted => true
  | _ => false

def memberAccess (receiver : Bytes) (key : MemberKey View) (optional : Bool) : Emit Bytes := do
  match key with
  | .named name => return receiver ++ (if optional then bytes "?." else bytes ".") ++ name
  | .computed index =>
    let index ← e.expression index
    return receiver ++ (if optional then bytes "?.[" else bytes "[") ++ index ++ bytes "]"

/-! ## All plain expressions -/

/-- Two operands with a text between them. -/
def infixed (left : View) (op : Bytes) (right : View) : Emit Bytes := do
  let left ← e.expression left
  let right ← e.expression right
  return left ++ bytes " " ++ op ++ bytes " " ++ right

def plainExpression (view : View) : Plain View → Emit Bytes
  | .identifier name => return name
  | .number raw _ => return raw
  | .string value => return Quoted.quoted value
  | .regex raw => return raw
  | .boolean value => return if value then bytes "true" else bytes "false"
  | .null => return bytes "null"
  | .this => return bytes "this"
  | .super => return bytes "super"
  | .template quasis holes => return bytes "`" ++ (← e.templateParts quasis holes) ++ bytes "`"
  | .taggedTemplate tag args quasi => do
    let tag ← e.expression tag
    return tag ++ typeArguments args ++ (← e.expression quasi)
  | .array elements => do
    let text ← e.expressionList elements
    return bytes "[" ++ text ++ when (elements.getLast?.any isOmitted) "," ++ bytes "]"
  | .object properties => return bracedEntries (← properties.mapM e.propertyText)
  | .function f => e.callableText f false
  | .functionDeclaration f isDeclare => e.callableText f isDeclare
  | .arrow f => e.arrowText f
  | .classDeclaration c => e.classText false c
  | .unary op operand leading => do
    let operand ← e.expression operand
    return if leading then leadingText op operand else operand ++ op
  | .await argument => return bytes "await " ++ (← e.expression argument)
  | .yield argument delegate => do
    let value ← match argument with
      | none => pure []
      | some argument => pure (bytes " " ++ (← e.expression argument))
    return bytes "yield" ++ when delegate "*" ++ value
  | .binary op left right => e.infixed left op right
  | .assignment op target value => e.infixed target op value
  | .conditional test consequent alternate => do
    let test ← e.expression test
    let consequent ← e.expression consequent
    let alternate ← e.expression alternate
    return test ++ bytes " ? " ++ consequent ++ bytes " : " ++ alternate
  | .call callee args values optional => do
    let callee ← e.expression callee
    let values ← e.expressionList values
    return callee ++ when optional "?." ++ typeArguments args ++ bytes "(" ++ values ++ bytes ")"
  | .new callee args values => do
    let callee ← e.expression callee
    let values ← match values with
      | none => pure []
      | some values => pure (bytes "(" ++ (← e.expressionList values) ++ bytes ")")
    return bytes "new " ++ callee ++ typeArguments args ++ values
  | .member receiver key optional => do
    let receiver ← e.expression receiver
    e.memberAccess receiver key optional
  | .spread argument => return bytes "..." ++ (← e.expression argument)
  | .sequence parts => e.expressionList parts
  | .paren inner => return bytes "(" ++ (← e.expression inner) ++ bytes ")"
  | .cast inner type keyword =>
    return (← e.expression inner) ++ bytes " " ++ keyword ++ bytes " " ++ type
  | .nonNull inner => return (← e.expression inner) ++ bytes "!"
  | .assignmentPattern target value => e.infixed target (bytes "=") value
  | .omitted => return []
  | _ => misplaced view "expression"

end SignalView.Emission
