import SignalView.Text.CodePoint

/-!
# Quoted text

Text inside a string literal: a backslash, the quote in use, line ends and tabs are written as
escapes, other control bytes by their two hexadecimal digits. Reading undoes this, and understands
the longer escapes `\xHH`, `\uHHHH` and `\u{...}` as well. Template chunks escape the backslash,
the backtick and the dollar sign in front of a brace.
-/

namespace SignalView.Quoted

def backslash : UInt8 := 0x5C

def singleQuote : UInt8 := 0x27

def doubleQuote : UInt8 := 0x22

def backtick : UInt8 := 0x60

def openBrace : UInt8 := 0x7B

def closeBrace : UInt8 := 0x7D

/-! ## Writing -/

/-- One byte as it stands between the quotes of a literal. -/
def escapeByte (quote b : UInt8) : Bytes :=
  if b == backslash then [backslash, backslash]
  else if b == 10 then [backslash, byte 'n']
  else if b == 13 then [backslash, byte 'r']
  else if b == 9 then [backslash, byte 't']
  else if b == quote then [backslash, b]
  else if b < 0x20 then
    [backslash, byte 'x', Byte.hexDigit (b.toNat / 16), Byte.hexDigit (b.toNat % 16)]
  else [b]

def escape (quote : UInt8) (text : Bytes) : Bytes := text.flatMap (escapeByte quote)

def quoteWith (quote : UInt8) (text : Bytes) : Bytes := quote :: escape quote text ++ [quote]

/-- A literal in single quotes, the form in which all output strings are written. -/
def quoted (text : Bytes) : Bytes := quoteWith singleQuote text

def escapeTemplate : Bytes → Bytes
  | [] => []
  | b :: rest =>
    if b == backslash then backslash :: backslash :: escapeTemplate rest
    else if b == backtick then backslash :: backtick :: escapeTemplate rest
    else if b == byte '$' && rest.head? == some openBrace then
      backslash :: byte '$' :: escapeTemplate rest
    else b :: escapeTemplate rest

/-! ## Reading -/

/-- The number that a run of hexadecimal digits writes, modulo the size of a machine word; `none`
when a byte is not a digit. -/
def readHex (digits : Bytes) : Option Nat :=
  if digits.all Byte.isHexDigit then some (Bytes.toNat 16 digits % 0x10000000000000000) else none

/-- A run of exactly `count` hexadecimal digits at the front of a text. -/
def readHexPrefixed (count : Nat) (text : Bytes) : Option Nat :=
  if (text.take count).length == count then readHex (text.take count) else none

/-- The bytes that stand for the escape whose first byte follows a backslash, and how many further
bytes the escape takes up. An unknown or malformed escape stands for its first byte. -/
def readEscape (first : UInt8) (rest : Bytes) : Bytes × Nat :=
  if first == byte 'n' then ([10], 0)
  else if first == byte 'r' then ([13], 0)
  else if first == byte 't' then ([9], 0)
  else if first == byte 'b' then ([8], 0)
  else if first == byte 'f' then ([12], 0)
  else if first == byte 'v' then ([11], 0)
  else if first == byte '0' then ([0], 0)
  else if first == byte 'x' then
    match readHexPrefixed 2 rest with
    | some value => (CodePoint.encode value, 2)
    | none => ([first], 0)
  else if first == byte 'u' then
    match rest with
    | b :: inner =>
      if b == openBrace then
        let digits := inner.takeWhile (· != closeBrace)
        match if digits.length < inner.length then readHex digits else none with
        | some value => (CodePoint.encode value, digits.length + 2)
        | none => ([first], 0)
      else
        match readHexPrefixed 4 rest with
        | some value => (CodePoint.encode value, 4)
        | none => ([first], 0)
    | [] => ([first], 0)
  else ([first], 0)

/-- Reads escaped text, passing over the first `skip` bytes. A backslash at the very end stands for
itself. -/
def unescapeFrom (skip : Nat) : Bytes → Bytes
  | [] => []
  | b :: rest =>
    match skip with
    | skip + 1 => unescapeFrom skip rest
    | 0 =>
      match rest with
      | [] => [b]
      | first :: after =>
        if b == backslash then
          let (value, used) := readEscape first after
          value ++ unescapeFrom (used + 1) rest
        else b :: unescapeFrom 0 rest

def unescape (text : Bytes) : Bytes := unescapeFrom 0 text

/-! ## Parentheses -/

/-- Whether the parentheses opened before a text stay open through all of it. -/
def staysOpen : Nat → Bytes → Bool
  | _, [] => true
  | depth, b :: rest =>
    let depth := if b == byte '(' then depth + 1 else if b == byte ')' then depth - 1 else depth
    depth != 0 && staysOpen depth rest

/-- Drops one pair of parentheses around a whole text. -/
def stripParens (text : Bytes) : Bytes :=
  match text with
  | first :: rest =>
    if first == byte '(' && rest.getLast? == some (byte ')') && staysOpen 1 rest.dropLast then
      rest.dropLast
    else text
  | [] => text

end SignalView.Quoted
