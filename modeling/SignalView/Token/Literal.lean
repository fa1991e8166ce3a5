import SignalView.Text.Quoted
import SignalView.Token.Basic
import SignalView.Token.Fault

/-!
# Literals and names

How far a number, a string, a template piece, a regular expression or a name reaches from the place
where it starts, and what it stands for. Every scan looks at the bytes from its start on and says
how many of them it takes up, also when it ends in a fault.
-/

namespace SignalView

/-- A token or a fault, with the number of bytes that it takes up. -/
inductive Lexeme where
  | token (kind : TokenKind) (value : Bytes) (length : Nat)
  | fault (cause : LexicalFault) (length : Nat)
  deriving DecidableEq, Repr

def Lexeme.length : Lexeme → Nat
  | .token _ _ length => length
  | .fault _ length => length

namespace Literal

/-! ## Numbers -/

def isDigitOf (base : Nat) (b : UInt8) : Bool :=
  if base == 2 then b == byte '0' || b == byte '1'
  else if base == 8 then byte '0' ≤ b && b ≤ byte '7'
  else if base == 16 then Byte.isHexDigit b
  else Byte.isDigit b

def isDigitOrSeparator (base : Nat) (b : UInt8) : Bool := isDigitOf base b || b == byte '_'

/-- The base that the letter after a leading zero selects. -/
def baseOf (letter : UInt8) : Option Nat :=
  if letter == byte 'x' || letter == byte 'X' then some 16
  else if letter == byte 'o' || letter == byte 'O' then some 8
  else if letter == byte 'b' || letter == byte 'B' then some 2
  else none

def startsWhere (p : UInt8 → Bool) (rest : Bytes) : Bool := rest.head?.any p

/-- A number must not run into a name. -/
def endNumber (kind : TokenKind) (number rest : Bytes) : Lexeme :=
  if startsWhere Byte.isIdentifierStart rest then
    .fault (.identifierAfterNumber number) number.length
  else .token kind number number.length

/-- A number with a base letter: its digits follow the zero and the letter. -/
def scanBased (base : Nat) (lead rest : Bytes) : Lexeme :=
  if startsWhere (isDigitOf base) rest then
    let number := lead ++ rest.takeWhile (isDigitOrSeparator base)
    let after := rest.dropWhile (isDigitOrSeparator base)
    if startsWhere (· == byte 'n') after then
      .token .bigint (number ++ bytes "n") (number.length + 1)
    else endNumber .number number after
  else .fault (.missingDigits lead) lead.length

/-- The digits, separators and the one dot of a decimal number, and whether there is a dot. A dot
that another dot follows does not belong to the number. -/
def decimalBody (seenDot : Bool) : Bytes → Bytes × Bool
  | [] => ([], seenDot)
  | b :: rest =>
    if b == byte '.' then
      if seenDot || rest.head? == some (byte '.') then ([], seenDot)
      else
        let (body, seen) := decimalBody true rest
        (b :: body, seen)
    else if isDigitOrSeparator 10 b then
      let (body, seen) := decimalBody seenDot rest
      (b :: body, seen)
    else ([], seenDot)

/-- The exponent at the front of a text; empty when no digit follows the letter and its sign. -/
def exponent (rest : Bytes) : Bytes :=
  match rest with
  | e :: after =>
    if e == byte 'e' || e == byte 'E' then
      let sign := after.takeWhile (fun b ↦ b == byte '+' || b == byte '-') |>.take 1
      let digits := after.drop sign.length
      if startsWhere Byte.isDigit digits then
        e :: sign ++ digits.takeWhile (isDigitOrSeparator 10)
      else []
    else []
  | [] => []

def scanDecimal (rest : Bytes) : Lexeme :=
  let (body, seenDot) := decimalBody false rest
  let power := exponent (rest.drop body.length)
  let number := body ++ power
  let after := rest.drop number.length
  if startsWhere (· == byte 'n') after && !seenDot && power.isEmpty then
    .token .bigint (number ++ bytes "n") (number.length + 1)
  else endNumber .number number after

def scanNumber (rest : Bytes) : Lexeme :=
  match rest with
  | zero :: letter :: digits =>
    match if zero == byte '0' then baseOf letter else none with
    | some base => scanBased base [zero, letter] digits
    | none => scanDecimal rest
  | _ => scanDecimal rest

/-! ## Strings -/

/-- An escape sequence after its backslash: what it stands for, or that it is malformed, with the
number of bytes read. -/
inductive Escape where
  | value (text : Bytes) (length : Nat)
  | malformed (length : Nat)
  deriving DecidableEq, Repr

def braceEscape (rest : Bytes) : Escape :=
  let digits := (rest.take 6).takeWhile Byte.isHexDigit
  if rest[digits.length]? == some Quoted.closeBrace && !digits.isEmpty then
    .value (CodePoint.encode (Bytes.toNat 16 digits)) (digits.length + 3)
  else .malformed (digits.length + 2)

def unicodeEscape (rest : Bytes) : Escape :=
  if rest.head? == some Quoted.openBrace then braceEscape (rest.drop 1)
  else
    let digits := (rest.take 4).takeWhile Byte.isHexDigit
    if digits.length == 4 then .value (CodePoint.encode (Bytes.toNat 16 digits)) 5
    else .malformed (digits.length + 1)

def hexEscape (rest : Bytes) : Escape :=
  let digits := (rest.take 2).takeWhile Byte.isHexDigit
  if digits.length == 2 then .value (CodePoint.encode (Bytes.toNat 16 digits)) 3
  else .malformed 1

/-- Reads an escape from the byte after the backslash on. A line end stands for nothing, and a byte
without a meaning of its own for itself. -/
def readEscape : Bytes → Escape
  | [] => .malformed 0
  | b :: rest =>
    if b == 0 then .malformed 0
    else if b == byte 'n' then .value [10] 1
    else if b == byte 't' then .value [9] 1
    else if b == byte 'r' then .value [13] 1
    else if b == byte 'b' then .value [8] 1
    else if b == byte 'f' then .value [12] 1
    else if b == byte 'v' then .value [11] 1
    else if b == byte '0' then .value (if startsWhere Byte.isDigit rest then [b] else [0]) 1
    else if b == 13 then .value [] (if rest.head? == some 10 then 2 else 1)
    else if b == 10 then .value [] 1
    else if b == byte 'x' then hexEscape rest
    else if b == byte 'u' then unicodeEscape rest
    else .value [b] 1

/-- Reads a string after its opening quote, passing over `skip` bytes first. `value` is what the
string stands for so far and `length` the bytes read, the opening quote included. -/
def stringBody (quote : UInt8) (skip : Nat) (value : Bytes) (length : Nat) : Bytes → Lexeme
  | [] => .fault .unterminatedString length
  | b :: rest =>
    match skip with
    | skip + 1 => stringBody quote skip value (length + 1) rest
    | 0 =>
      if b == quote then .token .string value (length + 1)
      else if b == 10 then .fault .unterminatedString length
      else if b == Quoted.backslash then
        match readEscape rest with
        | .value text used => stringBody quote used (value ++ text) (length + 1) rest
        | .malformed used => .fault .invalidEscape (length + 1 + used)
      else stringBody quote 0 (value ++ [b]) (length + 1) rest

def scanString (rest : Bytes) : Lexeme :=
  match rest with
  | quote :: body => stringBody quote 0 [] 1 body
  | [] => .fault .unterminatedString 0

/-- The string value of an attribute in a tag, which knows no escapes and may span lines. -/
def scanAttributeString (rest : Bytes) : Lexeme :=
  match rest with
  | quote :: body =>
    let value := body.takeWhile (· != quote)
    if value.length < body.length then .token .string value (value.length + 2)
    else .fault .unterminatedAttribute (value.length + 1)
  | [] => .fault .unterminatedAttribute 0

/-! ## Templates -/

/-- Reads a template piece after its opening mark. The raw text is kept; a backslash protects the
byte after it. The piece ends at a backtick or opens a substitution. -/
def templateBody (continued : Bool) (raw : Bytes) (length : Nat) : Bytes → Lexeme
  | [] => .fault .unterminatedTemplate length
  | [b] =>
    if b == Quoted.backtick then
      .token (.template (if continued then .tail else .whole)) raw (length + 1)
    else .fault .unterminatedTemplate (length + 1)
  | b :: c :: rest =>
    if b == Quoted.backtick then
      .token (.template (if continued then .tail else .whole)) raw (length + 1)
    else if b == byte '$' && c == Quoted.openBrace then
      .token (.template (if continued then .middle else .head)) raw (length + 2)
    else if b == Quoted.backslash then
      templateBody continued (raw ++ [b, c]) (length + 2) rest
    else templateBody continued (raw ++ [b]) (length + 1) (c :: rest)

def scanTemplate (continued : Bool) (rest : Bytes) : Lexeme :=
  templateBody continued [] 1 (rest.drop 1)

/-- Whether a template piece is followed by a substitution. -/
def opensSubstitution : Lexeme → Bool
  | .token (.template .head) _ _ | .token (.template .middle) _ _ => true
  | _ => false

/-! ## Regular expressions -/

/-- Reads a regular expression after its opening slash up to the closing one, which does not count
inside a character class. Gives the text read, the closing slash included. -/
def regexBody (inClass : Bool) (text : Bytes) : Bytes → Except Nat Bytes
  | [] => .error text.length
  | [b] =>
    if b == byte '/' && !inClass then .ok (text ++ [b])
    else if b == 10 then .error text.length
    else .error (text.length + 1)
  | b :: c :: rest =>
    if b == 10 then .error text.length
    else if b == Quoted.backslash then
      if c == 10 then .error (text.length + 1) else regexBody inClass (text ++ [b, c]) rest
    else if b == byte '/' && !inClass then .ok (text ++ [b])
    else
      let inClass := if b == byte '[' then true else if b == byte ']' then false else inClass
      regexBody inClass (text ++ [b]) (c :: rest)

def scanRegex (rest : Bytes) : Lexeme :=
  match regexBody false (rest.take 1) (rest.drop 1) with
  | .error length => .fault .unterminatedRegex length
  | .ok body =>
    let text := body ++ (rest.drop body.length).takeWhile Byte.isIdentifierPart
    .token .regex text text.length

/-! ## Names -/

/-- The bytes after `\u` that belong to an escape in a name: up to a closing brace, or four
digits. -/
def nameEscapeLength (rest : Bytes) : Nat :=
  if rest.head? == some Quoted.openBrace then
    min ((rest.takeWhile (· != Quoted.closeBrace)).length + 1) rest.length
  else ((rest.take 4).takeWhile Byte.isHexDigit).length

/-- How far a name reaches; its escapes are kept as they are written. -/
def nameLength (skip : Nat) : Bytes → Nat
  | [] => 0
  | b :: rest =>
    match skip with
    | skip + 1 => nameLength skip rest + 1
    | 0 =>
      if Byte.isIdentifierPart b then nameLength 0 rest + 1
      else if b == Quoted.backslash && rest.head? == some (byte 'u') then
        nameLength (nameEscapeLength (rest.drop 1) + 1) rest + 1
      else 0

/-- A word or a name. After a dot every word is a name, and private names start with a hash. -/
def scanName (afterDot : Bool) (rest : Bytes) : Lexeme :=
  let lead := if rest.head? == some (byte '#') then 1 else 0
  let length := lead + nameLength 0 (rest.drop lead)
  let text := rest.take length
  match if afterDot then none else Word.ofSpelling? text with
  | some w => .token (.word w) text length
  | none => .token .identifier text length

/-- Whether a name starts here. -/
def startsName (rest : Bytes) : Bool :=
  match rest with
  | [] => false
  | b :: after =>
    Byte.isIdentifierStart b ||
      (b == Quoted.backslash && after.head? == some (byte 'u')) ||
      (b == byte '#' && startsWhere Byte.isIdentifierStart after)

end Literal

end SignalView
