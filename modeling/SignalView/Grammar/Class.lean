import SignalView.Grammar.Binding

/-!
# Classes
-/

namespace SignalView.Grammar

open Parse

variable (g : Grammar)

/-- The tokens after which a word is the name of a member and no modifier. -/
def endsMemberName : TokenKind → Bool
  | .mark .openParen | .mark .assign | .mark .semicolon | .mark .colon | .mark .question
  | .mark .bang | .mark .closeBrace | .mark .typeOpen | .mark .lt => true
  | _ => false

/-- Whether the next token leaves the word in front free to be a modifier. -/
def memberNameFollows : Parse Bool := do
  let next ← peek 1
  return !endsMemberName next.kind && !next.newlineBefore

def atMemberModifier : Parse Bool := do
  let isModifier := match (← current).kind with
    | .word .public_ | .word .private_ | .word .protected_ | .word .static | .word .readonly
    | .word .abstract | .word .declare => true
    | _ => false
  return (isModifier || (← atSpelling "override") || (← atSpelling "accessor")) &&
    (← memberNameFollows)

/-- The word `get` or `set` in front of an accessor's name. -/
def accessorKind : Parse MemberKind := do
  let kind := (← current).kind
  if (kind == .word .get || kind == .word .set) && (← memberNameFollows) then
    advance
    return if kind == .word .get then .getter else .setter
  else return .property

/-- The marks behind a member's name: whether it is optional, and whether it is definite. -/
def memberMarks : Parse (Bool × Bool) := do
  if ← acceptMark .question then return (true, false)
  else if (← atMark .bang) && (← touchesPrevious) then
    advance
    return (false, true)
  else return (false, false)

/-- A member that has a name: a property, a method, an accessor or the constructor. -/
def namedMember (member : ClassMember Node) : Parse (ClassMember Node) := do
  let isAsync := (← atWord .async) && (← memberNameFollows)
  if isAsync then advance
  let isGenerator ← acceptMark .star
  let accessor ← accessorKind
  let start ← current
  let (key, computed) ← g.propertyKey {
    isNumber := fun _ ↦ false
    unclosed := "Expected ']' after computed member name"
    missing := "Expected class member name" }
  let isConstructor := accessor == .property && start.kind.isPropertyName &&
    start.kind != .string && start.value == bytes "constructor"
  let kind := if isConstructor then .constructor else accessor
  let (optional, definite) ← memberMarks
  let member := { member with
    key := some key, computed := computed, optional := optional, definite := definite }
  if ← atSignature then
    let value ← g.methodFunction true isAsync isGenerator
    return { member with
      kind := if kind == .property then .method else kind
      value := some value }
  else if kind != .property then fail "PSR-P002" "Expected '(' after accessor name"
  else
    let type ← g.annotation
    let value ← optionally (acceptMark .assign) g.assignment
    semicolon
    return { member with kind := .property, type := type, value := value }

def classMember : Parse (ClassMember Node) := do
  let decorators ← g.decorators
  let modifiers ← manyWhile g.rounds atMemberModifier take
  if (← atMark .openBrace) && modifiers.getLast? == some (bytes "static") then
    return {
      kind := .staticBlock, modifiers := modifiers.dropLast, decorators := decorators
      block := some (← g.block) }
  else if (← atMark .openBracket) && (← nameAhead 1) && (← markAhead 2 .colon) then
    let type ← g.typeMember
    semicolon
    return {
      kind := .indexSignature, modifiers := modifiers, decorators := decorators, type := type }
  else g.namedMember { modifiers := modifiers, decorators := decorators }

/-- The members up to the closing brace; stray semicolons are passed over. -/
def classBody : Parse (List (ClassMember Node)) := iterate (fun members ↦ do
  if ← beforeMark .closeBrace then
    if ← acceptMark .semicolon then return (members, true)
    let member ← g.classMember
    return (members ++ [member], true)
  return (members, false)) g.rounds []

def superClass : Parse (Option Node × List Bytes) := do
  if ← acceptWord .extends_ then
    let start ← current
    let first ← g.primary
    let parent ← g.chain start true first
    let typeArguments ← if ← atMark .typeOpen then g.typeArguments else pure []
    return (some parent, typeArguments)
  else return (none, [])

def classDeclaration (decorators : List Node) (isAbstract isDeclare : Bool) : Parse Node := do
  let start ← current
  expectWord .class_ "Expected 'class'"
  let isNamed := (← nameAhead 0) && !(← atWord .implements)
  let name ← textIf (return isNamed) take
  let typeParameters ← g.optionalTypeParameters
  let (parent, superTypeArguments) ← g.superClass
  let implemented ←
    if ← acceptWord .implements then separated g.rounds .comma g.type else pure []
  expectMark .openBrace "Expected '\x7b' to open class body"
  let members ← g.classBody
  expectMark .closeBrace "Expected '\x7d' to close class body"
  node start (.classDeclaration {
    name := name, typeParameters := typeParameters, superClass := parent
    superTypeArguments := superTypeArguments, implemented := implemented, members := members
    decorators := decorators, isAbstract := isAbstract, isDeclare := isDeclare })

end SignalView.Grammar
