import SignalView.Text.Bytes

/-!
# Places in the source

Lines and columns count from one and offsets from zero, all in bytes; only a line feed ends a line.
A cursor is a place together with the source that lies behind it.
-/

namespace SignalView

structure Position where
  line : Nat := 0
  column : Nat := 0
  offset : Nat := 0
  deriving DecidableEq, Repr, Inhabited

structure Range where
  start : Position := {}
  stop : Position := {}
  deriving DecidableEq, Repr, Inhabited

/-- The place after one byte. -/
def Position.after (position : Position) (b : UInt8) : Position :=
  if b == 10 then ⟨position.line + 1, 1, position.offset + 1⟩
  else ⟨position.line, position.column + 1, position.offset + 1⟩

structure Cursor where
  rest : Bytes
  position : Position := ⟨1, 1, 0⟩
  deriving DecidableEq, Repr

namespace Cursor

def atEnd (cursor : Cursor) : Bool := cursor.rest.isEmpty

/-- Moves over one byte; at the end of the source it stays. -/
def advance (cursor : Cursor) : Cursor :=
  match cursor.rest with
  | [] => cursor
  | b :: rest => ⟨rest, cursor.position.after b⟩

def advanceBy : Nat → Cursor → Cursor
  | 0, cursor => cursor
  | count + 1, cursor => advanceBy count cursor.advance

end Cursor

end SignalView
