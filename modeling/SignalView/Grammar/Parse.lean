import SignalView.Report.Failure
import SignalView.Syntax.Node
import SignalView.Token.Basic

/-!
# Parsing actions

An action reads tokens from a cursor and gives a value with the cursor behind what it read, or a
failure with the cursor where it happened. The nesting depth and the reading of `in` are part of
the surroundings of an action and come back by themselves when it is done.
-/

namespace SignalView

/-- A place in a list of tokens: what has been read, the latest first, and what lies ahead. -/
structure TokenCursor where
  before : List Token := []
  after : List Token
  deriving DecidableEq, Repr

/-- What surrounds an action: the token that stands for the end of input, the nesting so far and
its limit, and whether `in` ends an expression, as it does in the head of a loop. -/
structure ParseContext where
  final : Token
  maxDepth : Int
  depth : Nat := 0
  noIn : Bool := false
  deriving DecidableEq, Repr

inductive ParseOutcome (α : Type) where
  | ok (value : α) (cursor : TokenCursor)
  | failed (failure : Failure) (cursor : TokenCursor)

def Parse (α : Type) : Type := ParseContext → TokenCursor → ParseOutcome α

namespace Parse

variable {α β σ : Type}

instance : Monad Parse where
  pure value := fun _ cursor ↦ .ok value cursor
  bind action next := fun context cursor ↦
    match action context cursor with
    | .ok value cursor => next value context cursor
    | .failed failure cursor => .failed failure cursor

instance : Inhabited (Parse α) := ⟨fun _ cursor ↦ .failed ⟨.parser, [], [], 0, 0, 0⟩ cursor⟩

/-! ## Looking at tokens -/

def cursor : Parse TokenCursor := fun _ cursor ↦ .ok cursor cursor

def context : Parse ParseContext := fun context cursor ↦ .ok context cursor

/-- Goes on at another place. -/
def resume (place : TokenCursor) : Parse Unit := fun _ _ ↦ .ok () place

/-- The token some places ahead; the end of input lies behind all others. -/
def peek (offset : Nat) : Parse Token := fun context cursor ↦
  .ok ((cursor.after[offset]?).getD context.final) cursor

def current : Parse Token := peek 0

/-- The token before the cursor; at the very start, the one behind it. -/
def previous : Parse Token := fun context cursor ↦
  .ok (cursor.before.head?.getD (cursor.after.head?.getD context.final)) cursor

/-- Moves over one token; the end of input is never passed. -/
def advance : Parse Unit := fun _ cursor ↦
  match cursor.after with
  | [] => .ok () cursor
  | token :: rest => .ok () ⟨token :: cursor.before, rest⟩

def at_ (kind : TokenKind) : Parse Bool := return (← current).kind == kind

def atMark (m : Mark) : Parse Bool := at_ (.mark m)

def atWord (w : Word) : Parse Bool := at_ (.word w)

def atEnd : Parse Bool := at_ .eof

/-- Whether one of some marks is next. -/
def atMarks (ms : List Mark) : Parse Bool := do
  let token ← current
  return ms.any fun m ↦ token.kind == .mark m

/-- Whether a plain identifier of a spelling is next. -/
def atSpelling (text : String) : Parse Bool := do
  let token ← current
  return token.kind == .identifier && token.value == bytes text

def onNewLine : Parse Bool := return (← current).newlineBefore

def nameAhead (offset : Nat) : Parse Bool := return (← peek offset).kind.isName

def markAhead (offset : Nat) (m : Mark) : Parse Bool := return (← peek offset).kind == .mark m

def wordAhead (offset : Nat) (w : Word) : Parse Bool := return (← peek offset).kind == .word w

/-- Whether the next token follows the one before it without a gap. -/
def touchesPrevious : Parse Bool := do
  return (← current).start.offset == (← previous).stop

/-! ## Failing -/

/-- What was found where something else was expected. -/
def found (token : Token) (message : Bytes) : Bytes :=
  match token.kind with
  | .error => bytes "Invalid token '" ++ token.value ++ bytes "'"
  | .eof => message ++ bytes " (found end of input)"
  | _ => message ++ bytes " (found '" ++ token.value ++ bytes "')"

def failWith (failure : Failure) : Parse α := fun _ cursor ↦ .failed failure cursor

def failAt (token : Token) (code : String) (message : Bytes) : Parse α :=
  failWith {
    phase := .parser, code := bytes code, message := found token message
    line := token.start.line, column := token.start.column, offset := token.start.offset }

def fail (code message : String) : Parse α := do failAt (← current) code (bytes message)

/-- The failure of a parse that was given too few rounds for its tokens; its code is empty. -/
def exhausted : Failure := { phase := .parser, code := [], message := [] }

/-! ## Reading tokens -/

def accept (kind : TokenKind) : Parse Bool := do
  if ← at_ kind then
    advance
    return true
  return false

def acceptMark (m : Mark) : Parse Bool := accept (.mark m)

def acceptWord (w : Word) : Parse Bool := accept (.word w)

def expectWith (kind : TokenKind) (message : Bytes) : Parse Token := do
  let token ← current
  if token.kind == kind then
    advance
    return token
  failAt token "PSR-P002" message

def expect (kind : TokenKind) (message : String) : Parse Token := expectWith kind (bytes message)

def expectMark (m : Mark) (message : String) : Parse Unit := discard (expect (.mark m) message)

def expectWord (w : Word) (message : String) : Parse Unit := discard (expect (.word w) message)

/-- The value of the next token, which is read. -/
def take : Parse Bytes := do
  let token ← current
  advance
  return token.value

def expectName (message : String) : Parse Bytes := do
  if ← nameAhead 0 then take else fail "PSR-P004" message

/-- A name or word after a dot. -/
def expectMemberName (code message : String) : Parse Bytes := do
  if (← current).kind.isMemberName then take else fail code message

/-- The end of a statement: a semicolon, which may be missing before a closing brace, at the end of
input and where the next token starts a line. -/
def semicolon : Parse Unit := do
  if ← acceptMark .semicolon then return
  if (← atMark .closeBrace) || (← atEnd) || (← onNewLine) then return
  fail "PSR-P002" "Expected ';' after statement"

/-! ## Nodes -/

/-- The range from a token to the token before the cursor. -/
def rangeFrom (start : Token) : Parse Range := fun _ cursor ↦
  .ok ⟨start.start, (cursor.before.head?.getD start).stopPosition⟩ cursor

def node (start : Token) (form : Plain Node) : Parse Node := return .plain (← rangeFrom start) form

def surface (start : Token) (form : Surface Node) : Parse Node :=
  return .surface (← rangeFrom start) form

/-! ## Surroundings -/

/-- One level deeper, unless the limit is reached. -/
def nested (action : Parse α) : Parse α := fun context cursor ↦
  if context.maxDepth ≤ context.depth then
    let place := ((cursor.after.head?).getD context.final).start
    .failed (.tooDeep .parser context.maxDepth place.line place.column) cursor
  else action { context with depth := context.depth + 1 } cursor

/-- Inside brackets `in` is an operator again. -/
def allowingIn (action : Parse α) : Parse α := fun context cursor ↦
  action { context with noIn := false } cursor

def withoutIn (action : Parse α) : Parse α := fun context cursor ↦
  action { context with noIn := true } cursor

/-! ## Repetition -/

/-- Repeats a step on a state for as long as it asks for more, for at most a number of rounds. -/
def iterate (step : σ → Parse (σ × Bool)) : Nat → σ → Parse σ
  | 0, _ => failWith exhausted
  | rounds + 1, state => do
    let (state, more) ← step state
    if more then iterate step rounds state else return state

/-- Items for as long as a condition holds. -/
def manyWhile (rounds : Nat) (more : Parse Bool) (item : Parse α) : Parse (List α) :=
  iterate (fun items ↦ do
    if ← more then
      let next ← item
      return (items ++ [next], true)
    return (items, false)) rounds []

/-- Whether neither a closing token nor the end of input is next. -/
def before (closing : TokenKind) : Parse Bool := do
  let kind := (← current).kind
  return kind != closing && kind != .eof

def beforeMark (m : Mark) : Parse Bool := before (.mark m)

/-- Items with commas between them up to a closing token, which is not read; a comma may end the
list. An item says whether a comma has to follow it. -/
def looseList (rounds : Nat) (more : Parse Bool) (item : Parse (α × Bool)) : Parse (List α) :=
  iterate (fun items ↦ do
    if ← more then
      let (next, needsComma) ← item
      if needsComma then return (items ++ [next], ← acceptMark .comma)
      return (items ++ [next], true)
    return (items, false)) rounds []

def commaList (rounds : Nat) (more : Parse Bool) (item : Parse α) : Parse (List α) :=
  looseList rounds more (return (← item, true))

/-- One or more items with a mark between them. -/
def separated (rounds : Nat) (m : Mark) (item : Parse α) : Parse (List α) :=
  iterate (fun items ↦ do
    let next ← item
    return (items ++ [next], ← acceptMark m)) rounds []

/-! ## Parts that may be missing -/

def optionally (present : Parse Bool) (part : Parse α) : Parse (Option α) := do
  if ← present then return some (← part) else return none

/-- A text that is empty when its part is missing. -/
def textIf (present : Parse Bool) (text : Parse Bytes) : Parse Bytes := do
  if ← present then text else return []

/-- Names with a dot in front of each, for as long as dots follow. -/
def dottedNames (rounds : Nat) (name : Parse Bytes) : Parse Bytes := do
  return (← manyWhile rounds (acceptMark .dot) name).flatMap (bytes "." ++ ·)

end Parse

/-! ## Entry points -/

/-- The mutually recursive constructs. Each level of a grammar may call the level below, so that a
grammar with enough levels reads all of its input; `rounds` bounds the repetitions of a level. -/
structure Grammar where
  rounds : Nat
  statement : Parse Node
  assignment : Parse Node
  binary : Nat → Parse Node
  unary : Parse Node
  construction : Parse Node
  primary : Parse Node
  element : Parse Node
  bindingTarget : Parse Node
  type : Parse Bytes
  typeOperator : Parse Bytes

end SignalView
