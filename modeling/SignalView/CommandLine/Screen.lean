import SignalView.CommandLine.Settings
import SignalView.Text.CodePoint
import SignalView.Version

/-!
# What the command shows

The texts of the command on its two output streams: help, version, listings and messages.
-/

namespace SignalView.Screen

open Terminal

def program : Bytes := bytes "psrc"

def styled (style text : Bytes) : Bytes := style ++ text ++ reset

def line (text : Bytes) : Bytes := text ++ newline

/-- The name of the program in its own colour. -/
def title : Bytes := styled (brand ++ bold) program

/-! ## Help and version -/

/-- An option of the help text: how it is written, the space behind it and what it does. -/
def helpOption (written space purpose : String) : Bytes :=
  line (bytes "    " ++ styled dim (bytes written) ++ bytes space ++ bytes purpose)

def helpHeading (text : String) : Bytes := line (bytes "  " ++ styled bold (bytes text))

def helpExample (arguments : String) : Bytes :=
  line (bytes "    " ++ styled dim (bytes "$") ++ bytes " " ++ program ++ bytes " " ++
    bytes arguments)

def helpOptions : Bytes :=
  helpOption "--out, -o <file>" "      " "Output file (- for stdout)" ++
  helpOption "--module <format>" "     " "esm (default) or commonjs" ++
  helpOption "--indent <n>" "          " "Spaces per indent level (default 2)" ++
  helpOption "--tabs" "                " "Indent with tabs" ++
  helpOption "--runtime <module>" "    " "Runtime import source" ++
  helpOption "--lexer-mode <mode>" "   " "strict, collect or resilient" ++
  helpOption "--collect-errors" "      " "Report every syntax error" ++
  helpOption "--strict" "              " "Treat warnings as errors" ++
  helpOption "--tokens" "              " "Print the token stream and exit" ++
  helpOption "--debug" "               " "Phase logs and timings" ++
  helpOption "--verbose" "             " "Log progress and info diagnostics" ++
  helpOption "--version, -v" "         " "Show version"

def help : Bytes :=
  newline ++
  line (bytes "  " ++ title ++ bytes " " ++ styled dim (bytes "- PSR to TypeScript compiler")) ++
  newline ++
  helpHeading "Usage:" ++
  line (bytes "    " ++ styled cyan program ++ bytes " <file.psr> [options]") ++
  newline ++
  helpHeading "Options:" ++
  helpOptions ++
  newline ++
  helpHeading "Examples:" ++
  helpExample "src/Counter.psr" ++
  helpExample "src/App.psr -o - --module commonjs" ++
  newline

def versionLine : Bytes := line (title ++ bytes " " ++ version)

/-- The heading of a verbose run. -/
def banner (input : Bytes) : Bytes :=
  newline ++ line (bytes "  " ++ title ++ bytes " " ++ styled dim input)

/-! ## Messages -/

/-- What is wrong, and below it what to do instead. -/
def problem (message hint : Bytes) : Bytes :=
  line (heading .error ++ bytes " " ++ message) ++
    if hint.isEmpty then [] else line (bytes "  " ++ styled dim hint)

def couldNotOpen (path : Bytes) : Bytes := problem (bytes "Could not open " ++ path) []

def couldNotWrite (path : Bytes) : Bytes := problem (bytes "Could not write " ++ path) []

def checkMark : Bytes := CodePoint.encode 0x2713

def compiled (input output : Bytes) : Bytes :=
  line (styled green checkMark ++ bytes " " ++ input ++ bytes " " ++ styled dim (bytes "->") ++
    bytes " " ++ output)

def compilationFailed (errors : Nat) : Bytes :=
  line (styled (red ++ bold) (bytes "Compilation failed") ++ bytes " with " ++
    Bytes.ofNat errors ++ bytes " error(s)")

/-- The diagnostics of a run; remarks are for verbose runs only. -/
def diagnostics (settings : Settings) (source : Bytes) (reported : List Diagnostic) : Bytes :=
  (reported.filter fun d ↦ settings.verbose || d.severity != .info).flatMap
    (Terminal.diagnostic · source settings.input)

/-! ## Tokens -/

def padLeft (width : Nat) (text : Bytes) : Bytes := List.replicate (width - text.length) 32 ++ text

def padRight (width : Nat) (text : Bytes) : Bytes := text ++ List.replicate (width - text.length) 32

/-- A token on a line of its own: line and column, kind and value. -/
def tokenLine (token : Token) : Bytes :=
  line (padLeft 4 (Bytes.ofNat token.start.line) ++ bytes ":" ++
    padRight 4 (Bytes.ofNat token.start.column) ++ bytes " " ++
    styled cyan (padRight 20 token.kind.name) ++ bytes " " ++ token.value)

/-! ## Timings -/

/-- How long the phases took, in hundredths of a millisecond. -/
structure Timings where
  lexer : Nat := 0
  parser : Nat := 0
  analyzer : Nat := 0
  emitter : Nat := 0
  total : Nat := 0
  deriving DecidableEq, Repr

def duration (hundredths : Nat) : Bytes :=
  Bytes.ofNat (hundredths / 100) ++ bytes "." ++ Bytes.ofNat (hundredths / 10 % 10) ++
    Bytes.ofNat (hundredths % 10) ++ bytes "ms"

def Timings.render (timings : Timings) : Bytes :=
  let parts := [("lexer", timings.lexer), ("parser", timings.parser),
    ("analyzer", timings.analyzer), ("emitter", timings.emitter), ("total", timings.total)]
  line (styled dim (Bytes.join (bytes ", ")
    (parts.map fun (name, hundredths) ↦ bytes name ++ bytes " " ++ duration hundredths)))

end SignalView.Screen
