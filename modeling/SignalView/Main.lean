import SignalView.CommandLine.Run

/-!
# The command

The command on the machine it runs on: its files, its clock and its output streams.
-/

namespace SignalView.Machine

/-- A path as text; a path that is no text names no file here. -/
def pathText? (path : Bytes) : Option String := String.fromUTF8? ⟨path.toArray⟩

/-- The content of a file. A directory can be opened, but holds nothing to read. -/
def read (path : Bytes) : IO (Option Bytes) := do
  let some name := pathText? path | return none
  try
    return some (← IO.FS.readBinFile name).toList
  catch
    | .inappropriateType .. => return some []
    | _ => return none

def write (path content : Bytes) : IO Bool := do
  let some name := pathText? path | return false
  try
    IO.FS.writeBinFile name ⟨content.toArray⟩
    return true
  catch _ => return false

/-- The result of some work, and how long it took in hundredths of a millisecond. -/
def timed {α : Type} (work : Unit → α) : IO (α × Nat) := do
  let start ← IO.monoNanosNow
  let result ← IO.lazyPure work
  let stop ← IO.monoNanosNow
  return (result, (stop - start) / 10000)

/-- Measures the phases up to the one that stops the unit. Recorded errors stop it before there is a
total. -/
def measure (options : Compilation.Options) (source : Bytes) : IO Screen.Timings := do
  let (run, lexer) ← timed fun _ ↦ tokenize options.lexer source
  if run.failure.isSome || !run.lexer.errors.isEmpty then return {}
  let (parsed, parser) ← timed fun _ ↦ Program.parse options.parser run.lexer.tokenList
  let .ok parsed := parsed | return { lexer := lexer, total := lexer + parser }
  if !parsed.errors.isEmpty then return { lexer := lexer }
  let timings : Screen.Timings := { lexer := lexer, parser := parser, total := lexer + parser }
  if !Compilation.hasView parsed.root then return timings
  let ((program, state), analyzer) ←
    timed fun _ ↦ ViewProgram.ofNode options.lowering parsed.root
  let .ok program := program | return { timings with total := timings.total + analyzer }
  if (state.diagnostics.map (Compilation.promoted options.strict)).any (·.severity == .error) then
    return { timings with total := 0 }
  let timings := { timings with analyzer := analyzer, total := timings.total + analyzer }
  let (script, emitter) ← timed fun _ ↦ Script.ofProgram options.script program
  return {
    timings with
    emitter := if script matches .ok _ then emitter else 0
    total := timings.total + emitter }

def host : Host IO where
  read := read
  write := write
  measure := measure

end SignalView.Machine

open SignalView in
def main (arguments : List String) : IO UInt32 := do
  let output ← Machine.host.run (arguments.map (·.toUTF8.toList))
  (← IO.getStdout).write ⟨output.stdout.toArray⟩
  (← IO.getStderr).write ⟨output.stderr.toArray⟩
  return output.status.toUInt32
