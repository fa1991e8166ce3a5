import SignalView.Text.CodePoint

/-!
# Character references in markup

`&name;`, `&#digits;` and `&#xdigits;` stand for a code point. A reference reaches from its `&` to
the next `;`, which is at most ten bytes away; anything else leaves the `&` as it is. Decoding is a
single pass: a decoded `&` starts no further reference.
-/

namespace SignalView.Entity

/-- The named references with their code points. -/
def table : List (String × Nat) := [
  ("quot", 0x22), ("amp", 0x26), ("apos", 0x27), ("lt", 0x3C), ("gt", 0x3E), ("nbsp", 0xA0),
  ("iexcl", 0xA1), ("cent", 0xA2), ("pound", 0xA3), ("curren", 0xA4), ("yen", 0xA5),
  ("brvbar", 0xA6), ("sect", 0xA7), ("uml", 0xA8), ("copy", 0xA9), ("ordf", 0xAA),
  ("laquo", 0xAB), ("not", 0xAC), ("shy", 0xAD), ("reg", 0xAE), ("macr", 0xAF), ("deg", 0xB0),
  ("plusmn", 0xB1), ("sup2", 0xB2), ("sup3", 0xB3), ("acute", 0xB4), ("micro", 0xB5),
  ("para", 0xB6), ("middot", 0xB7), ("cedil", 0xB8), ("sup1", 0xB9), ("ordm", 0xBA),
  ("raquo", 0xBB), ("frac14", 0xBC), ("frac12", 0xBD), ("frac34", 0xBE), ("iquest", 0xBF),
  ("times", 0xD7), ("divide", 0xF7), ("Agrave", 0xC0), ("Aacute", 0xC1), ("Auml", 0xC4),
  ("Ccedil", 0xC7), ("Eacute", 0xC9), ("Ntilde", 0xD1), ("Ouml", 0xD6), ("Uuml", 0xDC),
  ("szlig", 0xDF), ("agrave", 0xE0), ("aacute", 0xE1), ("auml", 0xE4), ("ccedil", 0xE7),
  ("egrave", 0xE8), ("eacute", 0xE9), ("ntilde", 0xF1), ("ouml", 0xF6), ("uuml", 0xFC),
  ("Alpha", 0x391), ("Beta", 0x392), ("Gamma", 0x393), ("Delta", 0x394), ("Theta", 0x398),
  ("Lambda", 0x39B), ("Pi", 0x3A0), ("Sigma", 0x3A3), ("Phi", 0x3A6), ("Omega", 0x3A9),
  ("alpha", 0x3B1), ("beta", 0x3B2), ("gamma", 0x3B3), ("delta", 0x3B4), ("epsilon", 0x3B5),
  ("theta", 0x3B8), ("lambda", 0x3BB), ("mu", 0x3BC), ("pi", 0x3C0), ("sigma", 0x3C3),
  ("tau", 0x3C4), ("phi", 0x3C6), ("omega", 0x3C9), ("ensp", 0x2002), ("emsp", 0x2003),
  ("thinsp", 0x2009), ("zwnj", 0x200C), ("zwj", 0x200D), ("ndash", 0x2013), ("mdash", 0x2014),
  ("lsquo", 0x2018), ("rsquo", 0x2019), ("sbquo", 0x201A), ("ldquo", 0x201C), ("rdquo", 0x201D),
  ("bdquo", 0x201E), ("dagger", 0x2020), ("Dagger", 0x2021), ("bull", 0x2022), ("hellip", 0x2026),
  ("permil", 0x2030), ("prime", 0x2032), ("Prime", 0x2033), ("lsaquo", 0x2039),
  ("rsaquo", 0x203A), ("euro", 0x20AC), ("trade", 0x2122), ("larr", 0x2190), ("uarr", 0x2191),
  ("rarr", 0x2192), ("darr", 0x2193), ("harr", 0x2194), ("lArr", 0x21D0), ("rArr", 0x21D2),
  ("hArr", 0x21D4), ("forall", 0x2200), ("part", 0x2202), ("exist", 0x2203), ("empty", 0x2205),
  ("nabla", 0x2207), ("isin", 0x2208), ("notin", 0x2209), ("prod", 0x220F), ("sum", 0x2211),
  ("minus", 0x2212), ("radic", 0x221A), ("infin", 0x221E), ("and", 0x2227), ("or", 0x2228),
  ("cap", 0x2229), ("cup", 0x222A), ("int", 0x222B), ("asymp", 0x2248), ("ne", 0x2260),
  ("equiv", 0x2261), ("le", 0x2264), ("ge", 0x2265), ("sub", 0x2282), ("sup", 0x2283),
  ("loz", 0x25CA), ("spades", 0x2660), ("clubs", 0x2663), ("hearts", 0x2665), ("diams", 0x2666)]

def namedCodePoint (name : Bytes) : Option Nat :=
  (table.find? fun entry ↦ bytes entry.1 == name).map (·.2)

/-- The value of the digits of a numeric reference; at least one digit, and no value above the last
code point. -/
def numericCodePoint (base : Nat) (isDigit : UInt8 → Bool) (digits : Bytes) : Option Nat :=
  if digits.isEmpty || !digits.all isDigit then none
  else if Bytes.toNat base digits ≤ CodePoint.last then some (Bytes.toNat base digits)
  else none

/-- The code point that the text between `&` and `;` names. -/
def codePoint (name : Bytes) : Option Nat :=
  match name with
  | hash :: second :: rest =>
    if hash == byte '#' then
      if second == byte 'x' || second == byte 'X' then numericCodePoint 16 Byte.isHexDigit rest
      else numericCodePoint 10 Byte.isDigit (second :: rest)
    else namedCodePoint name
  | _ => namedCodePoint name

/-- The longest distance from a `&` to the `;` that ends its reference. -/
def reach : Nat := 10

/-- The reference that starts after a `&`: its code point, and how many bytes it takes up. -/
def reference (rest : Bytes) : Option (Nat × Nat) :=
  let name := rest.takeWhile (· != byte ';')
  if name.length < rest.length && name.length < reach then
    (codePoint name).map (·, name.length + 1)
  else none

/-- Decodes the references of a text, passing over its first `skip` bytes. -/
def decodeFrom (skip : Nat) : Bytes → Bytes
  | [] => []
  | b :: rest =>
    match skip with
    | skip + 1 => decodeFrom skip rest
    | 0 =>
      if b == byte '&' then
        match reference rest with
        | some (value, used) => CodePoint.encode value ++ decodeFrom used rest
        | none => b :: decodeFrom 0 rest
      else b :: decodeFrom 0 rest

def decode (text : Bytes) : Bytes := decodeFrom 0 text

end SignalView.Entity
