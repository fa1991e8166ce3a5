import SignalView.Grammar.Parse
import SignalView.Text.Quoted

/-!
# Looking ahead over brackets

Some constructs are told apart only by what follows their closing bracket. The searches look at the
tokens ahead and change nothing. Bracketed stretches that are kept as text are joined with
normalised spaces.
-/

namespace SignalView

namespace TokenKind

def isOpening : TokenKind → Bool
  | .mark .openParen | .mark .openBracket | .mark .openBrace | .mark .typeOpen => true
  | .template .head => true
  | _ => false

def isClosing : TokenKind → Bool
  | .mark .closeParen | .mark .closeBracket | .mark .closeBrace | .mark .typeClose => true
  | .template .tail => true
  | _ => false

end TokenKind

namespace Lookahead

/-- The index of the first closing token that brings the nesting back to zero. -/
def matching (nesting : Int) (index : Nat) : List Token → Option Nat
  | [] => none
  | token :: rest =>
    if token.kind.isOpening then matching (nesting + 1) (index + 1) rest
    else if token.kind.isClosing then
      if nesting == 1 then some index else matching (nesting - 1) (index + 1) rest
    else if token.kind == .eof then none
    else matching nesting (index + 1) rest

/-- How many tokens of a return type are looked at for the arrow behind it. -/
def returnTypeWindow : Nat := 254

/-- Whether an arrow follows at bracket depth zero, before anything that ends a type. -/
def arrowFollows (nesting : Nat) : List Token → Bool
  | [] => false
  | token :: rest =>
    match token.kind with
    | .mark .openParen | .mark .openBracket | .mark .openBrace | .mark .typeOpen =>
      arrowFollows (nesting + 1) rest
    | .mark .closeParen | .mark .closeBracket | .mark .closeBrace | .mark .typeClose =>
      nesting != 0 && arrowFollows (nesting - 1) rest
    | .mark .arrow => nesting == 0 || arrowFollows nesting rest
    | .mark .comma | .mark .semicolon | .mark .assign => nesting != 0 && arrowFollows nesting rest
    | .eof => false
    | _ => arrowFollows nesting rest

/-- Whether a parameter list and an arrow start here, perhaps with a return type between them. -/
def startsArrow (tokens : List Token) : Bool :=
  match matching 0 0 tokens with
  | none => false
  | some close =>
    match tokens.drop (close + 1) with
    | [] => false
    | next :: rest =>
      next.kind == .mark .arrow ||
        (next.kind == .mark .colon && arrowFollows 0 (rest.take returnTypeWindow))

/-- The kind of the token behind the bracket that closes the one in front. -/
def afterClosing (final : Token) (tokens : List Token) : Option TokenKind :=
  (matching 0 0 tokens).map fun close ↦ (tokens[close + 1]?.getD final).kind

/-! ## Text of token runs -/

def tokenText (token : Token) : Bytes :=
  let open_ := bytes "$\x7b"
  let close := bytes "\x7d"
  match token.kind with
  | .string => Quoted.quoted token.value
  | .template .whole => bytes "`" ++ token.value ++ bytes "`"
  | .template .head => bytes "`" ++ token.value ++ open_
  | .template .middle => close ++ token.value ++ open_
  | .template .tail => close ++ token.value ++ bytes "`"
  | _ => token.value

def hugsNext : TokenKind → Bool
  | .mark .openParen | .mark .openBracket | .mark .dot | .mark .ellipsis | .mark .typeOpen
  | .mark .atSign | .mark .questionDot | .template .head | .template .middle => true
  | _ => false

def hugsPrevious : TokenKind → Bool
  | .mark .closeParen | .mark .closeBracket | .mark .comma | .mark .semicolon | .mark .colon
  | .mark .dot | .mark .question | .mark .questionDot | .mark .typeOpen | .mark .typeClose
  | .template .middle | .template .tail => true
  | _ => false

/-- The tokens that an opening bracket follows without a space. -/
def takesBracket : TokenKind → Bool
  | .identifier | .word _ | .number | .string => true
  | .mark .typeClose | .mark .closeBracket | .mark .closeParen => true
  | _ => false

def needsSpace (left right : TokenKind) : Bool :=
  if hugsNext left || hugsPrevious right then false
  else
    match right with
    | .mark .openParen | .mark .openBracket => !takesBracket left
    | _ => true

/-- The text of a run of tokens with normalised spaces. -/
def joinTokens : List Token → Bytes
  | [] => []
  | [token] => tokenText token
  | token :: next :: rest =>
    tokenText token ++ (if needsSpace token.kind next.kind then bytes " " else []) ++
      joinTokens (next :: rest)

end Lookahead

namespace Parse

/-- Moves over a number of tokens. -/
def advanceBy : Nat → Parse Unit
  | 0 => return
  | count + 1 => do
    advance
    advanceBy count

/-- Reads up to the bracket that closes the one in front and gives the text. -/
def balanced : Parse Bytes := do
  let tokens := (← cursor).after
  match Lookahead.matching 0 0 tokens with
  | none => fail "PSR-P002" "Unbalanced brackets"
  | some close =>
    advanceBy (close + 1)
    return Lookahead.joinTokens (tokens.take (close + 1))

/-- Whether an arrow function's parameter list starts a number of tokens ahead. -/
def arrowAhead (offset : Nat) : Parse Bool :=
  return Lookahead.startsArrow ((← cursor).after.drop offset)

/-- The kind of the token behind the bracket that closes the one in front. -/
def kindAfterClosing : Parse (Option TokenKind) :=
  return Lookahead.afterClosing (← context).final (← cursor).after

end Parse

end SignalView
