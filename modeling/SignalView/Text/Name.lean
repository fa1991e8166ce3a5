import SignalView.Text.Quoted

/-!
# Names in output

When a text may stand as a bare identifier or property key, and the letter-case conventions that
tell components and constants apart.
-/

namespace SignalView.Name

def isIdentifier : Bytes → Bool
  | [] => false
  | first :: rest => Byte.isIdentifierStart first && rest.all Byte.isIdentifierPart

/-- A property key: bare when it is an identifier, quoted otherwise. -/
def propertyKey (name : Bytes) : Bytes := if isIdentifier name then name else Quoted.quoted name

/-- An upper-case first letter, and a lower-case letter somewhere unless the name is one letter:
names in capitals only are constants. -/
def isPascalCase : Bytes → Bool
  | [] => false
  | first :: rest => Byte.isUpper first && (rest.isEmpty || rest.any Byte.isLower)

end SignalView.Name
