import SignalView.Grammar.Markup
import SignalView.Grammar.Statement

/-!
# Programs

The grammar as a whole: each level hands the level below to the constructs that are mutually
recursive. A program is read up to its first failure, or through all of its failures, going on
after each at the next place where a statement can start.
-/

namespace SignalView

/-! ## Levels -/

/-- The grammar with a number of levels. Between two tokens that are read, fewer levels are used
than a token is given by `levelsPerToken`. -/
def grammar : Nat → Grammar
  | 0 => {
      rounds := 0
      statement := Parse.failWith Parse.exhausted
      assignment := Parse.failWith Parse.exhausted
      binary := fun _ ↦ Parse.failWith Parse.exhausted
      unary := Parse.failWith Parse.exhausted
      construction := Parse.failWith Parse.exhausted
      primary := Parse.failWith Parse.exhausted
      element := Parse.failWith Parse.exhausted
      bindingTarget := Parse.failWith Parse.exhausted
      type := Parse.failWith Parse.exhausted
      typeOperator := Parse.failWith Parse.exhausted }
  | level + 1 => {
      rounds := level + 1
      statement := fun context cursor ↦ (grammar level).statementStep context cursor
      assignment := fun context cursor ↦ (grammar level).assignmentStep context cursor
      binary := fun least context cursor ↦ (grammar level).binaryStep least context cursor
      unary := fun context cursor ↦ (grammar level).unaryStep context cursor
      construction := fun context cursor ↦ (grammar level).constructionStep context cursor
      primary := fun context cursor ↦ (grammar level).primaryStep context cursor
      element := fun context cursor ↦ (grammar level).elementStep context cursor
      bindingTarget := fun context cursor ↦ (grammar level).bindingTargetStep context cursor
      type := fun context cursor ↦ (grammar level).typeStep context cursor
      typeOperator := fun context cursor ↦ (grammar level).typeOperatorStep context cursor }

def levelsPerToken : Nat := 12

namespace Program

structure Options where
  collectErrors : Bool := false
  maxDepth : Int := 100
  maxErrors : Int := 50
  deriving DecidableEq, Repr

/-- A program with the failures that were passed over on the way. -/
structure Parsed where
  root : Node
  errors : List Failure := []

/-! ## Going on after a failure -/

/-- Whether a token on a new line starts a statement that reading can go on with. -/
def startsStatement : TokenKind → Bool
  | .word .const | .word .let_ | .word .var | .word .function | .word .class_ | .word .component
  | .word .interface | .word .type | .word .enum | .word .import_ | .word .export_ | .word .if_
  | .word .for_ | .word .while_ | .word .return_ => true
  | _ => false

/-- Moves on to behind a semicolon or to a token on a new line that starts a statement. -/
def synchronize (before : List Token) : List Token → TokenCursor
  | [] => ⟨before, []⟩
  | token :: rest =>
    let isBoundary := before.head?.any (·.kind == .mark .semicolon) ||
      (token.newlineBefore && startsStatement token.kind)
    if isBoundary then ⟨before, token :: rest⟩ else synchronize (token :: before) rest

/-- The place to go on at after a failed statement; at least one token is passed over. -/
def recover (failed reached : TokenCursor) : TokenCursor :=
  match reached.after with
  | [] => reached
  | token :: rest =>
    if failed.after.length ≤ reached.after.length then synchronize (token :: reached.before) rest
    else synchronize reached.before reached.after

/-! ## Reading a program -/

/-- What has been read so far: statements, failures and the place. -/
structure Progress where
  body : List Node := []
  errors : List Failure := []
  cursor : TokenCursor

/-- Reads statements to the end. The first failure ends a strict reading; otherwise it is kept and
reading goes on, up to the limit on failures. -/
def statements (statement : Parse Node) (options : Options) (context : ParseContext) :
    Nat → Progress → Except Failure Progress
  | 0, progress => .ok progress
  | rounds + 1, progress =>
    if progress.cursor.after.isEmpty then .ok progress
    else
      match statement context progress.cursor with
      | .ok node cursor =>
        statements statement options context rounds
          { progress with body := progress.body ++ [node], cursor := cursor }
      | .failed failure reached =>
        if options.collectErrors then
          let errors := progress.errors ++ [failure]
          if options.maxErrors ≤ errors.length then
            .ok { progress with errors := errors, cursor := reached }
          else
            statements statement options context rounds
              { progress with errors := errors, cursor := recover progress.cursor reached }
        else .error failure

/-- The end of input for a list of tokens: its last token, or one that stands where the last token
stands. -/
def splitFinal (tokens : List Token) : List Token × Token :=
  match tokens.getLast? with
  | none => ([], { kind := .eof })
  | some last =>
    if last.kind == .eof then (tokens.dropLast, last)
    else
      let place := { last.start with offset := last.stop }
      (tokens, { kind := .eof, start := place, stop := last.stop })

/-- Reads a program from its tokens. -/
def parse (options : Options) (tokens : List Token) : Except Failure Parsed := do
  let (tokens, final) := splitFinal tokens
  let context : ParseContext := { final := final, maxDepth := options.maxDepth }
  let size := tokens.length + 1
  let level := levelsPerToken * size
  let start : TokenCursor := { after := tokens }
  let progress ← statements (grammar level).statement options context size { cursor := start }
  let first := tokens.head?.getD final
  let last := (progress.cursor.before.head?).getD first
  let range : Range := ⟨first.start, last.stopPosition⟩
  return { root := .surface range (.program progress.body), errors := progress.errors }

end Program

end SignalView
