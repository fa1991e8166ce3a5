import SignalView.Token.Scan

/-!
# The token stream of a source

A source is cut into tokens from front to back, with white space and comments passed over between
them. A fault ends the run in strict mode. The other modes record it, leave an error token in its
place and go on: behind the offending byte, or in resilient mode at the next white space. Both the
number of recorded faults and the number of recoveries are limited.
-/

namespace SignalView

inductive LexerMode where
  | strict | collect | resilient
  deriving DecidableEq, Repr

namespace LexerMode

def name : LexerMode → Bytes
  | .strict => bytes "strict"
  | .collect => bytes "collect"
  | .resilient => bytes "resilient"

def ofName? (text : Bytes) : Option LexerMode :=
  [LexerMode.strict, .collect, .resilient].find? (·.name == text)

end LexerMode

structure LexerOptions where
  mode : LexerMode := .strict
  maxErrors : Int := 50
  maxRecoveries : Int := 100
  deriving DecidableEq, Repr

/-- The state of a run. Tokens and errors are kept latest first. -/
structure Lexer where
  cursor : Cursor
  newlinePending : Bool := false
  recoveries : Nat := 0
  surroundings : List Surrounding := []
  tokens : List Token := []
  errors : List Failure := []
  deriving DecidableEq, Repr

/-- A state, or the failure that ended the run together with the state it left behind. -/
structure LexerStep where
  lexer : Lexer
  failure : Option Failure := none
  deriving DecidableEq, Repr

namespace Lexer

def ofSource (source : Bytes) : Lexer := { cursor := { rest := source } }

/-- Adds the token that reaches from a place up to the cursor. -/
def push (lexer : Lexer) (kind : TokenKind) (value : Bytes) (start : Position) : Lexer :=
  { lexer with
    tokens := {
      kind := kind, value := value, start := start, stop := lexer.cursor.position.offset
      newlineBefore := lexer.newlinePending } :: lexer.tokens
    newlinePending := false }

/-- Moves on while the bytes are of a class. -/
def passWhile (p : UInt8 → Bool) (cursor : Cursor) : Cursor :=
  cursor.advanceBy (cursor.rest.takeWhile p).length

/-- Where reading goes on after a fault: past the offending byte if nothing else has been read, and
in resilient mode at the next white space. -/
def recoveryPoint (mode : LexerMode) (start : Position) (cursor : Cursor) : Cursor :=
  let cursor := if cursor.position.offset == start.offset then cursor.advance else cursor
  if mode == .resilient then passWhile (!Byte.isSpace ·) cursor else cursor

/-- Reports a fault of the lexeme that starts at a place and has been read up to the cursor. -/
def report (options : LexerOptions) (lexer : Lexer) (fault : LexicalFault) (start : Position) :
    LexerStep :=
  let failure := Failure.ofFault fault start
  if options.mode == .strict then ⟨lexer, some failure⟩
  else
    let lexer := { lexer with errors := failure :: lexer.errors }
    if options.maxErrors < lexer.errors.length then
      ⟨lexer, some (.tooManyFaults options.maxErrors start)⟩
    else
      let lexer := { lexer with recoveries := lexer.recoveries + 1 }
      if options.maxRecoveries < lexer.recoveries then
        ⟨lexer, some (.tooManyRecoveries options.maxRecoveries start)⟩
      else
        let lexer := { lexer with cursor := recoveryPoint options.mode start lexer.cursor }
        ⟨lexer.push .error fault.message start, none⟩

/-! ## White space and comments -/

/-- What lies between two tokens. -/
inductive Trivia where
  | space (length : Nat) (newline : Bool)
  | unterminatedComment (start length : Nat) (newline : Bool)
  deriving DecidableEq, Repr

/-- The kind of trivia that a place lies in. -/
inductive TriviaState where
  | between
  | lineComment
  | blockComment (start : Nat)
  deriving DecidableEq, Repr

/-- Measures the trivia at the front of a text, passing over `skip` bytes first. `length` bytes
have been read, and `newline` says whether a line has ended that counts for the next token. -/
def triviaFrom (state : TriviaState) (skip length : Nat) (newline : Bool) : Bytes → Trivia
  | [] =>
    match state with
    | .blockComment start => .unterminatedComment start length newline
    | _ => .space length newline
  | b :: rest =>
    match skip with
    | skip + 1 => triviaFrom state skip (length + 1) newline rest
    | 0 =>
      match state with
      | .lineComment =>
        if b == 10 then triviaFrom .between 0 (length + 1) true rest
        else triviaFrom .lineComment 0 (length + 1) newline rest
      | .blockComment start =>
        if b == byte '*' && rest.head? == some (byte '/') then
          triviaFrom .between 1 (length + 1) newline rest
        else triviaFrom (.blockComment start) 0 (length + 1) (newline || b == 10) rest
      | .between =>
        if b == 10 then triviaFrom .between 0 (length + 1) true rest
        else if Byte.isSpace b then triviaFrom .between 0 (length + 1) newline rest
        else if b == byte '/' && rest.head? == some (byte '/') then
          triviaFrom .lineComment 0 (length + 1) newline rest
        else if b == byte '/' && rest.head? == some (byte '*') then
          triviaFrom (.blockComment length) 1 (length + 1) newline rest
        else .space length newline

/-- Passes over the trivia in front of the cursor. -/
def skipTrivia (options : LexerOptions) (lexer : Lexer) : LexerStep :=
  match triviaFrom .between 0 0 lexer.newlinePending lexer.cursor.rest with
  | .space length newline =>
    ⟨{ lexer with cursor := lexer.cursor.advanceBy length, newlinePending := newline }, none⟩
  | .unterminatedComment start length newline =>
    let opening := (lexer.cursor.advanceBy start).position
    let lexer :=
      { lexer with cursor := lexer.cursor.advanceBy length, newlinePending := newline }
    report options lexer .unterminatedComment opening

/-! ## The run -/

/-- Takes in a lexeme that starts at the cursor. -/
def accept (options : LexerOptions) (lexer : Lexer) (scanned : Scanned) : LexerStep :=
  let start := lexer.cursor.position
  let lexer :=
    { lexer with
      cursor := lexer.cursor.advanceBy scanned.lexeme.length
      surroundings := scanned.surroundings }
  match scanned.lexeme with
  | .token kind value _ => ⟨lexer.push kind value start, none⟩
  | .fault cause _ => report options lexer cause start

/-- The lexeme at the cursor, which stands at no trivia. -/
def scan (lexer : Lexer) : Scanned :=
  match lexer.surroundings with
  | .children :: _ => Scan.children lexer.surroundings lexer.cursor.rest
  | .tag closing :: _ => Scan.tag closing lexer.surroundings lexer.cursor.rest
  | _ => Scan.code (lexer.tokens.head?.map (·.kind)) lexer.surroundings lexer.cursor.rest

/-- The end of the source: tags and elements must be closed, and the last token marks the end. -/
def finish (options : LexerOptions) (lexer : Lexer) : LexerStep :=
  let position := lexer.cursor.position
  let closed : LexerStep :=
    match lexer.surroundings with
    | .children :: _ => report options lexer .unterminatedElement position
    | .tag _ :: _ => report options lexer .unterminatedTag position
    | _ => ⟨lexer, none⟩
  match closed.failure with
  | some _ => closed
  | none => ⟨closed.lexer.push .eof [] closed.lexer.cursor.position, none⟩

/-- Whether the cursor stands in text between tags, where white space counts. -/
def inChildren (lexer : Lexer) : Bool := lexer.surroundings.head? == some .children

/-- Reads up to the end of the source. Every round but the last moves the cursor, so as many rounds
as there are bytes are enough. -/
def run (options : LexerOptions) : Nat → Lexer → LexerStep
  | 0, lexer => finish options lexer
  | rounds + 1, lexer =>
    let ready := if lexer.inChildren then ⟨lexer, none⟩ else skipTrivia options lexer
    match ready.failure with
    | some _ => ready
    | none =>
      if ready.lexer.cursor.atEnd then finish options ready.lexer
      else
        let next := accept options ready.lexer ready.lexer.scan
        match next.failure with
        | some _ => next
        | none => run options rounds next.lexer

/-- Starts a new run at the cursor: tokens, errors and surroundings are forgotten, while the cursor,
a pending line end and the count of recoveries stay. -/
def tokenizeFrom (options : LexerOptions) (lexer : Lexer) : LexerStep :=
  let fresh := { lexer with surroundings := [], tokens := [], errors := [] }
  run options (fresh.cursor.rest.length + 1) fresh

/-- The tokens in order of the source. -/
def tokenList (lexer : Lexer) : List Token := lexer.tokens.reverse

/-- The recorded faults in order of the source. -/
def errorList (lexer : Lexer) : List Failure := lexer.errors.reverse

end Lexer

/-- The token stream of a source. -/
def tokenize (options : LexerOptions) (source : Bytes) : LexerStep :=
  Lexer.tokenizeFrom options (.ofSource source)

/-- The tokens of a run, or the failure that ended it. -/
def LexerStep.result (step : LexerStep) : Except Failure (List Token) :=
  match step.failure with
  | some failure => .error failure
  | none => .ok step.lexer.tokenList

end SignalView
