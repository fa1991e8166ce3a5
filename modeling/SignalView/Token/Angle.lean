import SignalView.Token.Literal

/-!
# Angle brackets

A `<` opens a list of type arguments, opens a tag, or compares. The decision looks ahead over a
bounded stretch of the source: type arguments need a balanced `>` with nothing in between that a
type cannot hold, and behind it something that can follow them.
-/

namespace SignalView.Angle

/-- How many bytes the search for the closing `>` looks at. -/
def window : Nat := 256

/-- Whether what follows a closing `>` fits a list of type arguments. -/
def canFollow (rest : Bytes) : Bool :=
  match rest.dropWhile Byte.isBlank with
  | [] => true
  | b :: after =>
    (bytes "\n\r(),;\x7b\x7d[].|&:>`").contains b ||
      (b == byte '=' && after.head? != some (byte '=')) ||
      (bytes "extends").isPrefixOf (b :: after) ||
      (bytes "implements").isPrefixOf (b :: after)

/-- The brackets that are open at a place of the search. -/
structure Nesting where
  angle : Nat := 0
  paren : Nat := 0
  bracket : Nat := 0
  brace : Nat := 0
  deriving DecidableEq, Repr

/-- Bytes that may stand between type arguments and change nothing. -/
def isNeutral (b : UInt8) : Bool :=
  Byte.isIdentifierPart b || b == byte '.' || b == byte ',' || b == byte '?' || b == byte ':' ||
    b == byte '-' || Byte.isSpace b

/-- Searches for the `>` that closes the first `<`. `left` bytes of the window remain, the next
`skip` of them are passed over, and `last` is the byte in front. -/
def closes (left skip : Nat) (last : UInt8) (open_ : Nesting) : Bytes → Bool
  | [] => false
  | b :: rest =>
    match left, skip with
    | 0, _ => false
    | left + 1, skip + 1 => closes left skip b open_ rest
    | left + 1, 0 =>
      let next := rest.head?
      if b == byte '<' then closes left 0 b { open_ with angle := open_.angle + 1 } rest
      else if b == byte '>' then
        if last == byte '=' then closes left 0 b open_ rest
        else if open_.angle ≤ 1 then canFollow rest
        else closes left 0 b { open_ with angle := open_.angle - 1 } rest
      else if b == byte '(' then closes left 0 b { open_ with paren := open_.paren + 1 } rest
      else if b == byte ')' then
        open_.paren != 0 && closes left 0 b { open_ with paren := open_.paren - 1 } rest
      else if b == byte '[' then closes left 0 b { open_ with bracket := open_.bracket + 1 } rest
      else if b == byte ']' then
        open_.bracket != 0 && closes left 0 b { open_ with bracket := open_.bracket - 1 } rest
      else if b == Quoted.openBrace then
        closes left 0 b { open_ with brace := open_.brace + 1 } rest
      else if b == Quoted.closeBrace then
        open_.brace != 0 && closes left 0 b { open_ with brace := open_.brace - 1 } rest
      else if b == byte ';' then open_.brace != 0 && closes left 0 b open_ rest
      else if b == byte '&' || b == byte '|' then next != some b && closes left 0 b open_ rest
      else if b == byte '=' then next != some b && closes left 0 b open_ rest
      else if b == Quoted.doubleQuote || b == Quoted.singleQuote || b == Quoted.backtick then
        let inside := (rest.takeWhile (· != b)).length
        inside < rest.length && inside < left && closes left (inside + 1) b open_ rest
      else isNeutral b && closes left 0 b open_ rest

/-- Whether a list of type arguments starts at the `<` in front. -/
def startsTypeArguments (rest : Bytes) : Bool := closes window 0 0 {} rest

/-- Whether the `<` in front opens the type parameters of an arrow function: a name and a comma, or
a name and the word `extends`. -/
def startsArrowParameters (rest : Bytes) : Bool :=
  let after := rest.drop 1
  if Literal.startsWhere Byte.isIdentifierStart after then
    let behind := after.dropWhile Byte.isIdentifierPart
    let next := behind.dropWhile Byte.isBlank
    next.head? == some (byte ',') ||
      (next.length < behind.length && (bytes "extends").isPrefixOf next &&
        next[7]?.any Byte.isBlank)
  else false

/-- Whether the `<` in front opens a tag: a name or the `>` of a fragment follows. -/
def startsTag (rest : Bytes) : Bool :=
  Literal.startsWhere (fun b ↦ Byte.isIdentifierStart b || b == byte '>') (rest.drop 1)

end SignalView.Angle
