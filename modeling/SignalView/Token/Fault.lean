import SignalView.Report.Failure
import SignalView.Text.Position

/-!
# Lexical faults

Why a piece of source is no token, with the code and the wording of each cause.
-/

namespace SignalView

inductive LexicalFault where
  | unexpected (b : UInt8)
  | unexpectedInTag (b : UInt8)
  | unterminatedString
  | unterminatedAttribute
  | unterminatedTemplate
  | unterminatedComment
  | unterminatedRegex
  | unterminatedElement
  | unterminatedTag
  | missingDigits (base : Bytes)
  | identifierAfterNumber (number : Bytes)
  | invalidEscape
  deriving DecidableEq, Repr

namespace LexicalFault

def code : LexicalFault → Bytes
  | .unexpected _ | .unexpectedInTag _ => bytes "PSR-L001"
  | .unterminatedString | .unterminatedAttribute => bytes "PSR-L002"
  | .unterminatedTemplate => bytes "PSR-L003"
  | .unterminatedComment => bytes "PSR-L004"
  | .unterminatedRegex => bytes "PSR-L005"
  | .unterminatedElement | .unterminatedTag => bytes "PSR-L006"
  | .missingDigits _ | .identifierAfterNumber _ => bytes "PSR-L007"
  | .invalidEscape => bytes "PSR-L008"

def message : LexicalFault → Bytes
  | .unexpected b => bytes "Unexpected character '" ++ b :: bytes "'"
  | .unexpectedInTag b => bytes "Unexpected character '" ++ b :: bytes "' in JSX tag"
  | .unterminatedString => bytes "Unterminated string literal"
  | .unterminatedAttribute => bytes "Unterminated JSX attribute string"
  | .unterminatedTemplate => bytes "Unterminated template literal"
  | .unterminatedComment => bytes "Unterminated block comment"
  | .unterminatedRegex => bytes "Unterminated regular expression"
  | .unterminatedElement => bytes "Unterminated JSX element"
  | .unterminatedTag => bytes "Unterminated JSX tag"
  | .missingDigits base => bytes "Expected digits after numeric prefix '" ++ base ++ bytes "'"
  | .identifierAfterNumber number =>
    bytes "Identifier starts immediately after numeric literal '" ++ number ++ bytes "'"
  | .invalidEscape => bytes "Invalid escape sequence in string literal"

end LexicalFault

namespace Failure

/-- A failure of the lexer at the place of a token. -/
def lexical (code message : Bytes) (start : Position) : Failure where
  phase := .lexer
  code := code
  message := message
  line := start.line
  column := start.column
  offset := start.offset

def ofFault (fault : LexicalFault) (start : Position) : Failure :=
  lexical fault.code fault.message start

def tooManyFaults (limit : Int) (start : Position) : Failure :=
  lexical (bytes "PSR-L010")
    (bytes "Too many lexical errors (limit " ++ Bytes.ofInt limit ++ bytes ")") start

def tooManyRecoveries (limit : Int) (start : Position) : Failure :=
  lexical (bytes "PSR-L011")
    (bytes "Lexer recovery limit exceeded (" ++ Bytes.ofInt limit ++ bytes " attempts)") start

end Failure

end SignalView
