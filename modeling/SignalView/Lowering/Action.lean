import SignalView.Report.Log
import SignalView.View.Tree

/-!
# Lowering actions

An action of the lowering changes what is known about the program: the symbols, the components and
the remarks so far. This knowledge outlives a failure. The constructs that are mutually recursive
come as entry points, one level of nesting deeper than the construct that uses them.
-/

namespace SignalView

/-- What has been found out so far. Runtime names are the local names of imported primitives with
the exports they stand for; `current` holds the facts about the component that is being lowered. -/
structure LoweringState where
  symbols : SymbolTable := {}
  diagnostics : List Diagnostic := []
  log : List Log.Entry := []
  components : List (Component View) := []
  hasMarkup : Bool := false
  primitives : List Bytes := []
  registered : List Bytes := []
  runtimeNames : List (Bytes × Bytes) := []
  current : Option ComponentFacts := none

def Lower (α : Type) : Type := LoweringState → Except Failure α × LoweringState

namespace Lower

variable {α : Type}

instance : Monad Lower where
  pure value := fun state ↦ (.ok value, state)
  bind action next := fun state ↦
    match action state with
    | (.ok value, state) => next value state
    | (.error failure, state) => (.error failure, state)

def state : Lower LoweringState := fun state ↦ (.ok state, state)

def modify (change : LoweringState → LoweringState) : Lower Unit := fun state ↦
  (.ok (), change state)

def fail (failure : Failure) : Lower α := fun state ↦ (.error failure, state)

/-- A fault in the program at a place. -/
def failAt (code : String) (message : Bytes) (line column : Nat) : Lower α :=
  fail {
    phase := .analyzer, code := bytes code, message := message, line := line, column := column }

/-! ## Remarks -/

def remark (level : Log.Level) (phase : Phase) (message : Bytes) : Lower Unit :=
  modify fun s ↦ { s with log := s.log ++ [⟨level, phase, message⟩] }

def debug (message : Bytes) : Lower Unit := remark .debug .analyzer message

/-- Reports a warning and mentions it in the log. -/
def report (diagnostic : Diagnostic) : Lower Unit := do
  remark .warn diagnostic.phase
    (locatedMessage diagnostic.message diagnostic.line diagnostic.column)
  modify fun s ↦ { s with diagnostics := s.diagnostics ++ [diagnostic] }

def warn (code : String) (message : Bytes) (line column : Nat) : Lower Unit :=
  report {
    severity := .warning, phase := .analyzer, code := bytes code, message := message, line := line
    column := column }

/-! ## Scopes and facts -/

/-- Runs an action in a scope of its own. -/
def inScope (kind : ScopeKind) (action : Lower α) : Lower α := do
  modify fun s ↦ { s with symbols := s.symbols.enter kind }
  let value ← action
  modify fun s ↦ { s with symbols := s.symbols.exit }
  return value

/-- Changes the facts about the component that is being lowered, if there is one. -/
def noteFact (change : ComponentFacts → ComponentFacts) : Lower Unit :=
  modify fun s ↦ { s with current := s.current.map change }

def noteDependencies (names : List Bytes) : Lower Unit :=
  noteFact fun facts ↦ { facts with dependencies := facts.dependencies ++ names }

def noteListener : Lower Unit := noteFact fun facts ↦ { facts with hasListeners := true }

def noteSignals : Lower Unit := noteFact fun facts ↦ { facts with usesSignals := true }

def markUsed (name : Bytes) : Lower Unit :=
  modify fun s ↦ { s with symbols := s.symbols.markUsed name }

end Lower

/-! ## Entry points -/

/-- The mutually recursive constructs, and the module whose exports are the primitives. -/
structure Lowering where
  runtimeModule : Bytes
  statement : Node → Lower View
  expression : Node → Lower View
  element : Node → Lower View

end SignalView
