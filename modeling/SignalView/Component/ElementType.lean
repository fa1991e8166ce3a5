import SignalView.Text.Bytes

/-!
# Types of elements

A return type names an element when it is a union of element types, possibly with `null` and
`undefined`, and holds at least one of the former.
-/

namespace SignalView.ElementType

def isOpening (b : UInt8) : Bool :=
  b == byte '(' || b == byte '<' || b == byte '[' || b == 0x7B

def isClosing (b : UInt8) : Bool :=
  b == byte ')' || b == byte '>' || b == byte ']' || b == 0x7D

/-- The members of a union: the pieces between the bars at bracket depth zero. -/
def splitUnion (nesting : Int) : Bytes → List Bytes
  | [] => [[]]
  | b :: rest =>
    let nesting :=
      if isOpening b then nesting + 1 else if isClosing b then nesting - 1 else nesting
    match splitUnion nesting rest with
    | [] => [[b]]
    | piece :: pieces =>
      if b == byte '|' && nesting == 0 then [] :: piece :: pieces else (b :: piece) :: pieces

def isMargin (b : UInt8) : Bool := b == 32 || b == 9 || b == 13 || b == 10

def members (type : Bytes) : List Bytes := (splitUnion 0 type).map (Bytes.trim isMargin)

def isElement (member : Bytes) : Bool :=
  [bytes "HTMLElement", bytes "Element", bytes "Node", bytes "JSX.Element"].contains member

def isAbsence (member : Bytes) : Bool := [bytes "null", bytes "undefined"].contains member

def isElementType (type : Bytes) : Bool :=
  let present := (members type).filter (!isAbsence ·)
  !present.isEmpty && present.all isElement

end SignalView.ElementType
