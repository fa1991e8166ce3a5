import SignalView.Token.Stream
import SignalView.Grammar.Program
import SignalView.Script.Program

/-!
# Compiling a unit

A source goes through tokens, syntax tree and views to the output text. Whatever stops it on the way
leaves empty code and at least one error among the diagnostics. A source without components and
markup is its own output.
-/

namespace SignalView

namespace Compilation

structure Options where
  /-- Warnings are errors. -/
  strict : Bool := false
  /-- Every syntax error is reported, not only the first. -/
  collectErrors : Bool := false
  lexerMode : LexerMode := .strict
  maxDepth : Int := 100
  /-- The name of the unit in the log. -/
  fileName : Bytes := []
  indent : Bytes := bytes "  "
  format : ModuleFormat := .esm
  runtimeModule : Bytes := ViewProgram.defaultRuntime
  deriving DecidableEq, Repr

namespace Options

def unitName (options : Options) : Bytes :=
  if options.fileName.isEmpty then bytes "<input>" else options.fileName

def lexer (options : Options) : LexerOptions where
  mode := options.lexerMode

def parser (options : Options) : Program.Options where
  collectErrors := options.collectErrors
  maxDepth := options.maxDepth

def lowering (options : Options) : ViewProgram.Options where
  runtimeModule := options.runtimeModule
  maxDepth := options.maxDepth

def script (options : Options) : ScriptOptions where
  indent := options.indent
  format := options.format
  runtimeModule := options.runtimeModule
  maxDepth := options.maxDepth

end Options

end Compilation

/-- What compiling a unit comes to. -/
structure Compilation where
  code : Bytes := []
  diagnostics : List Diagnostic := []
  log : List Log.Entry := []
  deriving DecidableEq, Repr

namespace Compilation

def count (severity : Severity) (result : Compilation) : Nat :=
  result.diagnostics.countP (·.severity == severity)

def hasErrors (result : Compilation) : Bool := result.diagnostics.any (·.severity == .error)

/-! ## Ways to end -/

/-- A phase failed, after diagnostics and log entries that stay. -/
def failed (log : List Log.Entry) (diagnostics : List Diagnostic) (failure : Failure) :
    Compilation where
  diagnostics := diagnostics ++ [failure.toDiagnostic]
  log := log ++ [⟨.error, failure.phase, failure.text⟩]

/-- A phase went through, but has recorded errors. -/
def rejected (log : List Log.Entry) (diagnostics : List Diagnostic) (phase : Phase)
    (message : Bytes) : Compilation where
  diagnostics := diagnostics
  log := log ++ [⟨.error, phase, message⟩]

/-- The remark on a source that is left alone. -/
def passedThroughNote : Diagnostic where
  severity := .info
  phase := .pipeline
  message := bytes "No components or JSX found; source passed through unchanged"

/-! ## The phases -/

/-- Whether a tree has anything to compile. -/
def hasView (root : Node) : Bool :=
  root.descendants.any fun node ↦ node.isComponent || node.isMarkup

/-- In a strict compilation a warning is an error. -/
def promoted (strict : Bool) (diagnostic : Diagnostic) : Diagnostic :=
  if strict && diagnostic.severity == .warning then { diagnostic with severity := .error }
  else diagnostic

def debugEntry (phase : Phase) (message : Bytes) : Log.Entry := ⟨.debug, phase, message⟩

def ofViews (options : Options) (log : List Log.Entry) (diagnostics : List Diagnostic)
    (program : ViewProgram) : Compilation :=
  let diagnostics := diagnostics.map (promoted options.strict)
  if diagnostics.any (·.severity == .error) then
    rejected log diagnostics .analyzer (bytes "warnings are errors in strict mode")
  else
    let log := log ++ [debugEntry .analyzer
      (Bytes.ofNat program.components.length ++ bytes " component(s)")]
    match Script.ofProgram options.script program with
    | .error failure => failed log diagnostics failure
    | .ok script => {
        code := script.text
        diagnostics := diagnostics
        log := log ++ [debugEntry .emitter (Bytes.ofNat script.imports.modules.length ++
          bytes " imported module(s), " ++ options.format.name)] }

/-- Diagnostics of a lowering that failed are dropped; its log entries are kept. -/
def ofTree (options : Options) (source : Bytes) (log : List Log.Entry) (root : Node) :
    Compilation :=
  let log := log ++ [debugEntry .parser
    (Bytes.ofNat root.children.length ++ bytes " top-level statements")]
  if hasView root then
    match ViewProgram.ofNode options.lowering root with
    | (.error failure, state) => failed (log ++ state.log) [] failure
    | (.ok program, state) => ofViews options (log ++ state.log) state.diagnostics program
  else { code := source, diagnostics := [passedThroughNote], log := log }

def ofTokens (options : Options) (source : Bytes) (tokens : List Token) : Compilation :=
  let log := [debugEntry .lexer
    (Bytes.ofNat tokens.length ++ bytes " tokens from " ++ options.unitName)]
  match Program.parse options.parser tokens with
  | .error failure => failed log [] failure
  | .ok parsed =>
    if parsed.errors.isEmpty then ofTree options source log parsed.root
    else rejected log (parsed.errors.map Failure.toDiagnostic) .parser
      (Bytes.ofNat parsed.errors.length ++ bytes " syntax error(s) in " ++ options.unitName)

/-- Compiles a source. -/
def ofSource (options : Options) (source : Bytes) : Compilation :=
  let run := tokenize options.lexer source
  let errors := run.lexer.errorList
  match run.failure with
  | some failure => failed [] (errors.map Failure.toDiagnostic) failure
  | none =>
    if errors.isEmpty then ofTokens options source run.lexer.tokenList
    else rejected [] (errors.map Failure.toDiagnostic) .lexer
      (Bytes.ofNat errors.length ++ bytes " lexical error(s) in " ++ options.unitName)

end Compilation

end SignalView
