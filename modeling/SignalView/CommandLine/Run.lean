import SignalView.CommandLine.Screen

/-!
# Running the command

A run reads one file, compiles it and writes one file. Files and clocks belong to the host that the
command runs on; the rest is determined by the arguments and the source.
-/

namespace SignalView

/-- What a run leaves on the two output streams, and its exit status. -/
structure Output where
  status : Nat := 0
  stdout : Bytes := []
  stderr : Bytes := []
  deriving DecidableEq, Repr

/-- What a run needs from its surroundings. -/
structure Host (m : Type → Type) where
  /-- The content of a file, if it can be opened. -/
  read : Bytes → m (Option Bytes)
  /-- Gives a file a content, and says whether that was possible. -/
  write : (path content : Bytes) → m Bool
  /-- Measures the phases of a compilation. -/
  measure : Compilation.Options → (source : Bytes) → m Screen.Timings

namespace Interruption

/-- What is shown instead of a compilation. -/
def output : Interruption → Output
  | .help => { stdout := Screen.help }
  | .version => { stdout := Screen.versionLine }
  | .misuse cause => { status := 1, stderr := Screen.problem cause.message cause.hint }

end Interruption

namespace Settings

/-- The listing of the tokens of a source, with the faults met on the way. -/
def tokenListing (settings : Settings) (source : Bytes) : Output :=
  let run := tokenize { mode := settings.lexerMode } source
  let report (failures : List Failure) : Bytes :=
    failures.flatMap fun f ↦ Terminal.diagnostic f.toDiagnostic source settings.input
  match run.failure with
  | some failure => { status := 1, stderr := report [failure] }
  | none => {
      status := if run.lexer.errors.isEmpty then 0 else 1
      stdout := run.lexer.tokenList.flatMap Screen.tokenLine
      stderr := report run.lexer.errorList }

/-- What a compilation shows, before anything is written. -/
def report (settings : Settings) (source : Bytes) (result : Compilation)
    (timings : Screen.Timings) : Output where
  stdout :=
    if settings.verbose && settings.destination != .standardOutput then
      Screen.banner settings.input
    else []
  stderr :=
    (if settings.debug || settings.verbose then Log.render true result.log else []) ++
    Screen.diagnostics settings source result.diagnostics ++
    (if settings.debug then timings.render else [])

end Settings

namespace Output

def failing (output : Output) (message : Bytes) : Output :=
  { output with status := 1, stderr := output.stderr ++ message }

end Output

namespace Host

variable {m : Type → Type} [Monad m]

/-- Compiles a source that has been read, and delivers the code unless there are errors. -/
def compile (host : Host m) (settings : Settings) (source : Bytes) : m Output := do
  let result := Compilation.ofSource settings.compilation source
  let timings ← if settings.debug then host.measure settings.compilation source else pure {}
  let output := settings.report source result timings
  if result.hasErrors then
    return output.failing (Screen.compilationFailed (result.count .error))
  match settings.destination.path? settings.input with
  | none => return { output with stdout := output.stdout ++ result.code }
  | some path =>
    if ← host.write path result.code then
      return { output with stderr := output.stderr ++ Screen.compiled settings.input path }
    else return output.failing (Screen.couldNotWrite path)

/-- Does what the settings ask for. -/
def perform (host : Host m) (settings : Settings) : m Output := do
  match ← host.read settings.input with
  | none => return { status := 1, stderr := Screen.couldNotOpen settings.input }
  | some source =>
    if settings.listTokens then return settings.tokenListing source
    else host.compile settings source

/-- Runs the command on its arguments. Without any it shows how it is used, and fails. -/
def run (host : Host m) (arguments : List Bytes) : m Output :=
  if arguments.isEmpty then pure { Interruption.help.output with status := 1 }
  else
    match Settings.ofArguments arguments with
    | .ok settings => host.perform settings
    | .error interruption => pure interruption.output

end Host

end SignalView
