import SignalView.Report.Terminal

/-!
# The progress log

What the phases say about their work, one line for each remark, tagged with the phase that made it.
-/

namespace SignalView.Log

inductive Level where
  | debug | info | warn | error
  deriving DecidableEq, Repr

/-- A level's tag, all of one width. -/
def Level.tag : Level → Bytes
  | .debug => bytes "debug"
  | .info => bytes "info "
  | .warn => bytes "warn "
  | .error => bytes "error"

def Level.color : Level → Bytes
  | .debug => Terminal.dim
  | .info => Terminal.cyan
  | .warn => Terminal.yellow
  | .error => Terminal.red

structure Entry where
  level : Level
  phase : Phase
  message : Bytes
  deriving DecidableEq, Repr

def Entry.render (colored : Bool) (entry : Entry) : Bytes :=
  let phase := bytes "[" ++ entry.phase.name ++ bytes "]"
  if colored then
    entry.level.color ++ entry.level.tag ++ Terminal.reset ++ bytes " " ++ Terminal.dim ++ phase ++
      Terminal.reset ++ bytes " " ++ entry.message ++ Terminal.newline
  else entry.level.tag ++ bytes " " ++ phase ++ bytes " " ++ entry.message ++ Terminal.newline

def render (colored : Bool) (entries : List Entry) : Bytes := entries.flatMap (·.render colored)

/-! ## Switching a log on and off -/

/-- What happens to a log: a remark, or a change of whether remarks are kept. -/
inductive Event where
  | remark (entry : Entry)
  | enable (on : Bool)
  deriving DecidableEq, Repr

/-- A log with what it has kept so far. -/
structure Book where
  enabled : Bool
  entries : List Entry := []
  deriving DecidableEq, Repr

def Book.record (book : Book) : Event → Book
  | .remark entry => if book.enabled then { book with entries := book.entries ++ [entry] } else book
  | .enable on => { book with enabled := on }

end SignalView.Log
