import SignalView.Syntax.Node

/-!
# Guessing types

What the form of an initial value says about the type of the variable it is given to.
-/

namespace SignalView

/-- The type of the value of a unary operator. -/
def unaryType (op : Bytes) : Bytes :=
  if op == bytes "typeof" then bytes "string"
  else if op == bytes "!" then bytes "boolean"
  else if op == bytes "void" then bytes "undefined"
  else bytes "number"

/-- The type that an expression is taken to have, empty when its form says nothing. -/
def Node.guessType (node : Node) : Bytes :=
  match node.unwrap with
  | .plain _ (.string _) | .plain _ (.template _ _) => bytes "string"
  | .plain _ (.number _ isBigint) => if isBigint then bytes "bigint" else bytes "number"
  | .plain _ (.boolean _) => bytes "boolean"
  | .plain _ .null => bytes "null"
  | .plain _ (.regex _) => bytes "RegExp"
  | .plain _ (.array _) => bytes "any[]"
  | .plain _ (.object _) => bytes "object"
  | .surface _ (.element _ _ _ _) | .surface _ (.fragment _) => bytes "HTMLElement"
  | .plain _ (.arrow _) | .plain _ (.function _) => bytes "Function"
  | .plain _ (.cast _ type _) => type
  | .plain _ (.new callee _ _) => callee.name?.getD []
  | .plain _ (.unary op _ _) => unaryType op
  | _ => []

end SignalView
