/-!
# Byte strings

Source and output are sequences of bytes: every offset, column and length counts bytes. A byte
above `0x7f` is never a letter, a digit, an upper-case character or white space, and it always
counts as a character of an identifier.
-/

namespace SignalView

abbrev Bytes := List UInt8

/-- The byte of an ASCII character. -/
def byte (c : Char) : UInt8 := UInt8.ofNat c.toNat

/-- The bytes of a text of ASCII characters. -/
def bytes (text : String) : Bytes := text.toList.map byte

namespace Byte

/-! ## Character classes -/

def isDigit (b : UInt8) : Bool := byte '0' ≤ b && b ≤ byte '9'

def isUpper (b : UInt8) : Bool := byte 'A' ≤ b && b ≤ byte 'Z'

def isLower (b : UInt8) : Bool := byte 'a' ≤ b && b ≤ byte 'z'

def isLetter (b : UInt8) : Bool := isUpper b || isLower b

def isHexDigit (b : UInt8) : Bool :=
  isDigit b || (byte 'a' ≤ b && b ≤ byte 'f') || (byte 'A' ≤ b && b ≤ byte 'F')

/-- Space, tab, line feed, vertical tab, form feed and carriage return. -/
def isSpace (b : UInt8) : Bool := b == 32 || (9 ≤ b && b ≤ 13)

/-- Space and tab, the white space that stays on its line. -/
def isBlank (b : UInt8) : Bool := b == 32 || b == 9

def isIdentifierStart (b : UInt8) : Bool :=
  isLetter b || b == byte '_' || b == byte '$' || 0x80 ≤ b

def isIdentifierPart (b : UInt8) : Bool := isIdentifierStart b || isDigit b

def toLower (b : UInt8) : UInt8 := if isUpper b then b + 32 else b

def toUpper (b : UInt8) : UInt8 := if isLower b then b - 32 else b

/-- The value of a hexadecimal digit. -/
def hexValue (b : UInt8) : Nat :=
  if isDigit b then b.toNat - 48 else (toLower b).toNat - 87

/-- The lower-case hexadecimal digit of a value below sixteen. -/
def hexDigit (value : Nat) : UInt8 :=
  if value < 10 then UInt8.ofNat (48 + value) else UInt8.ofNat (87 + value)

end Byte

namespace Bytes

/-! ## Numbers -/

def ofNat (n : Nat) : Bytes := (Nat.toDigits 10 n).map byte

def ofInt : Int → Bytes
  | .ofNat n => ofNat n
  | .negSucc n => byte '-' :: ofNat (n + 1)

/-- The number that digits of a base write, the most significant first. -/
def toNat (base : Nat) (digits : Bytes) : Nat :=
  digits.foldl (fun value b ↦ value * base + Byte.hexValue b) 0

/-! ## Order and search -/

/-- Lexicographic order by unsigned bytes; a proper beginning of a text comes before it. -/
def before : Bytes → Bytes → Bool
  | _, [] => false
  | [], _ :: _ => true
  | a :: as, b :: bs => a < b || (a == b && before as bs)

def occursIn (part : Bytes) : Bytes → Bool
  | [] => part.isEmpty
  | b :: rest => part.isPrefixOf (b :: rest) || occursIn part rest

/-- The pieces between the occurrences of a separator, at least one. -/
def splitAt (separator : UInt8) : Bytes → List Bytes
  | [] => [[]]
  | b :: rest =>
    match splitAt separator rest with
    | [] => [[b]]
    | piece :: pieces =>
      if b == separator then [] :: piece :: pieces else (b :: piece) :: pieces

def dropEndWhile (p : UInt8 → Bool) (text : Bytes) : Bytes := (text.reverse.dropWhile p).reverse

/-- The text without the bytes of a class at either end. -/
def trim (p : UInt8 → Bool) (text : Bytes) : Bytes := dropEndWhile p (text.dropWhile p)

def join (separator : Bytes) (parts : List Bytes) : Bytes := separator.intercalate parts

def repeated (count : Nat) (text : Bytes) : Bytes := (List.replicate count text).flatten

end Bytes

/-! ## Sorted collections -/

/-- Adds an element at its place in a sorted list, unless it is there already. -/
def insertSorted {α : Type} [BEq α] (before : α → α → Bool) (a : α) : List α → List α
  | [] => [a]
  | b :: rest =>
    if a == b then b :: rest
    else if before a b then a :: b :: rest
    else b :: insertSorted before a rest

/-- The sorted list of the distinct members of a list of texts. -/
def sortedDistinct (texts : List Bytes) : List Bytes :=
  texts.foldl (fun sorted text ↦ insertSorted Bytes.before text sorted) []

end SignalView
