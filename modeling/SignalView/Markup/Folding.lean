import SignalView.Text.Bytes

/-!
# Folding the lines of markup text

Text between tags that spans several lines is folded into one: white space at the inner ends of
each line is dropped, lines that hold nothing else disappear, and the rest is joined by single
spaces. Text on one line is kept as it is.
-/

namespace SignalView.Folding

def isFoldable (b : UInt8) : Bool := b == 32 || b == 9 || b == 10 || b == 13

/-- The lines after the first, each without the white space in front; all but the last also lose
the white space behind. -/
def trimLater : List Bytes → List Bytes
  | [] => []
  | [last] => [last.dropWhile isFoldable]
  | line :: rest => Bytes.trim isFoldable line :: trimLater rest

def fold (text : Bytes) : Bytes :=
  match Bytes.splitAt 10 text with
  | first :: second :: rest =>
    let lines := Bytes.dropEndWhile isFoldable first :: trimLater (second :: rest)
    Bytes.join (bytes " ") (lines.filter (!·.isEmpty))
  | _ => text

end SignalView.Folding
