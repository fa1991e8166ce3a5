import SignalView.Token.Angle

/-!
# One lexeme at a time

What the next lexeme is depends on the bytes ahead, on the token before it and on the surroundings:
braces of code and of templates, angle brackets of types, tags and the text between them.
-/

namespace SignalView

/-- What surrounds the place of a scan. Type brackets count the `<` that are open, and a tag knows
whether it is a closing one. -/
inductive Surrounding where
  | brace
  | substitution
  | typeBrackets (depth : Nat)
  | tag (closing : Bool)
  | children
  | markupExpression
  deriving DecidableEq, Repr

/-- A lexeme, with the surroundings behind it, the innermost first. -/
structure Scanned where
  lexeme : Lexeme
  surroundings : List Surrounding
  deriving DecidableEq, Repr

namespace Scan

def markToken (m : Mark) : Lexeme := .token (.mark m) (bytes m.text) m.text.length

/-! ## Operators -/

/-- The operators and delimiters, longer ones before those they start with. -/
def operators : List Mark := [
  .ushrAssign, .strictEq, .strictNeq, .powerAssign, .shlAssign, .shrAssign, .ushr, .ellipsis,
  .andAssign, .orAssign, .nullishAssign, .arrow, .eq, .neq, .le, .ge, .and, .or, .nullish,
  .plusPlus, .minusMinus, .plusAssign, .minusAssign, .starAssign, .slashAssign, .percentAssign,
  .andBitsAssign, .orBitsAssign, .xorBitsAssign, .power, .shl, .shr, .openParen, .closeParen,
  .openBracket, .closeBracket, .semicolon, .comma, .lt, .gt, .plus, .minus, .star, .slash,
  .percent, .ampersand, .pipe, .caret, .bang, .tilde, .colon, .assign, .dot, .atSign]

/-- An operator. A question mark with a dot behind it is one mark, unless a digit follows. -/
def operator (rest : Bytes) : Lexeme :=
  let question := rest.head? == some (byte '?')
  if question && rest[1]? == some (byte '.') && !rest[2]?.any Byte.isDigit then
    markToken .questionDot
  else if question && rest[1]? != some (byte '?') then markToken .question
  else
    match operators.find? fun m ↦ (bytes m.text).isPrefixOf rest with
    | some m => markToken m
    | none => .fault (.unexpected (rest.head?.getD 0)) 0

/-! ## Code -/

/-- The tokens after which an operand may start, so that a slash opens a regular expression and a
`<` may open a tag. -/
def allowsOperand : Option TokenKind → Bool
  | none => true
  | some .identifier | some .number | some .bigint | some .string | some .regex => false
  | some (.template .whole) | some (.template .tail) => false
  | some (.mark m) =>
    !([.closeParen, .closeBracket, .closeBrace, .plusPlus, .minusMinus, .typeClose, .tagEnd,
      .tagSelfClose] : List Mark).contains m
  | some (.word w) =>
    match w with
    | .this | .super | .true_ | .false_ | .null => false
    | .await | .yield | .of => true
    | w => !w.isContextual
  | some _ => true

def lessThan (previous : Option TokenKind) (surroundings : List Surrounding) (rest : Bytes) :
    Scanned :=
  match surroundings with
  | .typeBrackets depth :: outer => ⟨markToken .typeOpen, .typeBrackets (depth + 1) :: outer⟩
  | _ =>
    let openTypes : Scanned := ⟨markToken .typeOpen, .typeBrackets 1 :: surroundings⟩
    if allowsOperand previous then
      if Angle.startsArrowParameters rest then openTypes
      else if Angle.startsTag rest then ⟨markToken .tagOpen, .tag false :: surroundings⟩
      else ⟨operator rest, surroundings⟩
    else if previous.any (·.isName) && Angle.startsTypeArguments rest then openTypes
    else ⟨operator rest, surroundings⟩

/-- Inside type brackets every `>` closes exactly one level. -/
def greaterThan (surroundings : List Surrounding) (rest : Bytes) : Scanned :=
  match surroundings with
  | .typeBrackets depth :: outer =>
    ⟨markToken .typeClose, if depth ≤ 1 then outer else .typeBrackets (depth - 1) :: outer⟩
  | _ => ⟨operator rest, surroundings⟩

def template (continued : Bool) (surroundings : List Surrounding) (rest : Bytes) : Scanned :=
  let lexeme := Literal.scanTemplate continued rest
  ⟨lexeme, if Literal.opensSubstitution lexeme then .substitution :: surroundings
    else surroundings⟩

/-- A closing brace goes on with the template whose substitution it ends. -/
def closingBrace (surroundings : List Surrounding) (rest : Bytes) : Scanned :=
  match surroundings with
  | .substitution :: outer => template true outer rest
  | .brace :: outer | .markupExpression :: outer => ⟨markToken .closeBrace, outer⟩
  | _ => ⟨markToken .closeBrace, surroundings⟩

def startsNumber (rest : Bytes) : Bool :=
  match rest with
  | [] => false
  | b :: after => Byte.isDigit b || (b == byte '.' && Literal.startsWhere Byte.isDigit after)

/-- The next lexeme of code. -/
def code (previous : Option TokenKind) (surroundings : List Surrounding) (rest : Bytes) :
    Scanned :=
  let b := rest.head?.getD 0
  if startsNumber rest then ⟨Literal.scanNumber rest, surroundings⟩
  else if b == Quoted.doubleQuote || b == Quoted.singleQuote then
    ⟨Literal.scanString rest, surroundings⟩
  else if b == Quoted.backtick then template false surroundings rest
  else if Literal.startsName rest then
    let afterDot := previous == some (.mark .dot) || previous == some (.mark .questionDot)
    ⟨Literal.scanName afterDot rest, surroundings⟩
  else if b == Quoted.openBrace then ⟨markToken .openBrace, .brace :: surroundings⟩
  else if b == Quoted.closeBrace then closingBrace surroundings rest
  else if b == byte '<' then lessThan previous surroundings rest
  else if b == byte '>' then greaterThan surroundings rest
  else if b == byte '/' && allowsOperand previous then ⟨Literal.scanRegex rest, surroundings⟩
  else ⟨operator rest, surroundings⟩

/-! ## Markup -/

def isTagNamePart (b : UInt8) : Bool := Byte.isIdentifierPart b || b == byte '-'

/-- The next lexeme inside a tag. -/
def tag (closing : Bool) (surroundings : List Surrounding) (rest : Bytes) : Scanned :=
  let outer := surroundings.drop 1
  let b := rest.head?.getD 0
  if Byte.isIdentifierStart b then
    let name := rest.takeWhile isTagNamePart
    ⟨.token .identifier name name.length, surroundings⟩
  else if b == Quoted.doubleQuote || b == Quoted.singleQuote then
    ⟨Literal.scanAttributeString rest, surroundings⟩
  else if b == Quoted.openBrace then ⟨markToken .openBrace, .markupExpression :: surroundings⟩
  else if b == byte '=' then ⟨markToken .assign, surroundings⟩
  else if b == byte '.' then ⟨markToken .dot, surroundings⟩
  else if b == byte ':' then ⟨markToken .colon, surroundings⟩
  else if b == byte '<' then ⟨markToken .tagOpen, .tag false :: surroundings⟩
  else if b == byte '/' && rest[1]? == some (byte '>') then ⟨markToken .tagSelfClose, outer⟩
  else if b == byte '>' then
    ⟨markToken .tagEnd, if closing then outer else .children :: outer⟩
  else ⟨.fault (.unexpectedInTag b) 0, surroundings⟩

/-- The next lexeme between tags: a tag, an expression or text. White space may stand between the
two bytes that start a closing tag. -/
def children (surroundings : List Surrounding) (rest : Bytes) : Scanned :=
  let b := rest.head?.getD 0
  if b == byte '<' then
    let space := (rest.drop 1).takeWhile Byte.isSpace
    if rest[space.length + 1]? == some (byte '/') then
      ⟨.token (.mark .closingTagOpen) (bytes Mark.closingTagOpen.text) (space.length + 2),
        .tag true :: surroundings.drop 1⟩
    else ⟨markToken .tagOpen, .tag false :: surroundings⟩
  else if b == Quoted.openBrace then ⟨markToken .openBrace, .markupExpression :: surroundings⟩
  else
    let text := rest.takeWhile fun b ↦ b != byte '<' && b != Quoted.openBrace
    ⟨.token .markupText text text.length, surroundings⟩

end Scan

end SignalView
