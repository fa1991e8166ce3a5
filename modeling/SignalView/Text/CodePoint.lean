import SignalView.Text.Bytes

/-!
# Code points as bytes

The variable-length encoding of a code point: one byte below `0x80`, two below `0x800`, three below
`0x10000`, four otherwise. Every byte keeps its low eight bits, so a value above the last code
point still has an encoding, and a surrogate is encoded on its own.
-/

namespace SignalView.CodePoint

/-- A continuation byte: six bits of the value under the mark `10`. -/
def continuation (bits : Nat) : UInt8 := UInt8.ofNat (0x80 ||| (bits &&& 0x3F))

def encode (value : Nat) : Bytes :=
  if value < 0x80 then [UInt8.ofNat value]
  else if value < 0x800 then [UInt8.ofNat (0xC0 ||| (value >>> 6)), continuation value]
  else if value < 0x10000 then
    [UInt8.ofNat (0xE0 ||| (value >>> 12)), continuation (value >>> 6), continuation value]
  else
    [UInt8.ofNat (0xF0 ||| (value >>> 18)), continuation (value >>> 12),
      continuation (value >>> 6), continuation value]

/-- The last code point, above which a numeric character reference names nothing. -/
def last : Nat := 0x10FFFF

end SignalView.CodePoint
