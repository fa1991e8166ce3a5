import SignalView.Report.Failure

/-!
# Reports on a terminal

A diagnostic is shown with its phase and code, its place in the file, and an excerpt: the source
line it points at with a caret under the column.
-/

namespace SignalView.Terminal

/-! ## Styles -/

/-- The control sequence that selects a style. -/
def style (parameters : String) : Bytes := 27 :: bytes "[" ++ bytes parameters ++ bytes "m"

def reset : Bytes := style "0"
def bold : Bytes := style "1"
def dim : Bytes := style "2"
def red : Bytes := style "31"
def green : Bytes := style "32"
def yellow : Bytes := style "33"
def cyan : Bytes := style "36"
def brand : Bytes := style "38;5;141"

def newline : Bytes := [10]

/-! ## Excerpts -/

/-- What stands under a source line to bring a caret to a column: tabs stay tabs. -/
def caretPadding (column : Int) (line : Bytes) : Bytes :=
  (line.take (column - 1).toNat).map fun b ↦ if b == 9 then 9 else 32

/-- The source line of a number and a caret under a column; empty when there is no such line. -/
def excerpt (source : Bytes) (line column : Int) : Bytes :=
  if line ≤ 0 || source.isEmpty then []
  else
    match (Bytes.splitAt 10 source)[line.toNat - 1]? with
    | none => []
    | some text =>
      let text := if text.getLast? == some 13 then text.dropLast else text
      let gutter := Bytes.ofInt line ++ bytes " | "
      gutter ++ text ++ newline ++
        List.replicate (gutter.length - 2) 32 ++ bytes "| " ++ caretPadding column text ++ bytes "^"

/-! ## Diagnostics -/

def heading : Severity → Bytes
  | .error => red ++ bold ++ bytes "Error:" ++ reset
  | .warning => yellow ++ bytes "Warning:" ++ reset
  | .info => cyan ++ bytes "Info:" ++ reset

def indented (lines : Bytes) : Bytes :=
  if lines.isEmpty then []
  else (Bytes.splitAt 10 lines).flatMap fun line ↦ bytes "  " ++ line ++ newline

def diagnostic (d : Diagnostic) (source fileName : Bytes) : Bytes :=
  heading d.severity ++ bytes " " ++ dim ++ bytes "[" ++ d.phase.name ++
    (if d.code.isEmpty then [] else bytes " " ++ d.code) ++ bytes "]" ++ reset ++ bytes " " ++
    locatedMessage d.message d.line d.column ++ newline ++
    (if 0 < d.line && !fileName.isEmpty then
      bytes "  " ++ dim ++ bytes "--> " ++ fileName ++ bytes ":" ++ Bytes.ofInt d.line ++
        bytes ":" ++ Bytes.ofInt d.column ++ reset ++ newline
    else []) ++
    indented (excerpt source d.line d.column)

end SignalView.Terminal
