import SignalView.Script.ImportTable
import SignalView.View.Tree

/-!
# Writing actions

Output is written at a level of indentation. On the way the imports of the runtime are collected and
temporaries are numbered in the order in which they are needed.
-/

namespace SignalView

structure ScriptOptions where
  indent : Bytes := bytes "  "
  format : ModuleFormat := .esm
  runtimeModule : Bytes
  maxDepth : Int := 100
  deriving DecidableEq, Repr

/-- What has been gathered so far; the latest temporary comes first. -/
structure EmitState where
  imports : ImportTable := {}
  temporaries : List Bytes := []
  deriving DecidableEq, Repr

def Emit (α : Type) : Type := Nat → EmitState → Except Failure (α × EmitState)

namespace Emit

variable {α : Type}

instance : Monad Emit where
  pure value := fun _ state ↦ .ok (value, state)
  bind action next := fun level state ↦
    match action level state with
    | .ok (value, state) => next value level state
    | .error failure => .error failure

def fail (failure : Failure) : Emit α := fun _ _ ↦ .error failure

def level : Emit Nat := fun level state ↦ .ok (level, state)

def modify (change : EmitState → EmitState) : Emit Unit := fun _ state ↦ .ok ((), change state)

/-- Writes one level further in. -/
def indented (action : Emit α) : Emit α := fun level state ↦ action (level + 1) state

/-- A name with a label and the number of temporaries before it. -/
def temporary (label : String) : Emit Bytes := fun _ state ↦
  let name := bytes "_" ++ bytes label ++ Bytes.ofNat state.temporaries.length
  .ok (name, { state with temporaries := name :: state.temporaries })

end Emit

/-- The mutually recursive constructs, one level of nesting deeper than the construct that uses
them, and the options of the output. -/
structure Emission where
  options : ScriptOptions
  statement : View → Emit Bytes
  expression : View → Emit Bytes

namespace Emission

open Emit

variable (e : Emission)

def pad : Emit Bytes := return Bytes.repeated (← level) e.options.indent

/-- A text on a line of its own. -/
def line (text : Bytes) : Emit Bytes := return (← e.pad) ++ text ++ bytes "\n"

/-- Imports a name from the runtime. -/
def useRuntime (name : Bytes) : Emit Unit :=
  modify fun s ↦ { s with imports := s.imports.addNamed e.options.runtimeModule name [] false }

/-- The failure of a node that stands where its kind cannot. -/
def misplaced {α : Type} (view : View) (place : String) : Emit α :=
  fail {
    phase := .emitter, code := bytes "PSR-G001"
    message := bytes "Unsupported node kind '" ++ bytes view.kindName ++ bytes "' in " ++
      bytes place ++ bytes " position"
    line := view.line, column := view.column }

/-! ## Lists and blocks -/

/-- The text of an expression, empty when there is none. -/
def optionalExpression : Option View → Emit Bytes
  | none => return []
  | some view => e.expression view

def expressionList (views : List View) : Emit Bytes :=
  return Bytes.join (bytes ", ") (← views.mapM e.expression)

/-- Statements, each on lines of its own. -/
def statementLines (views : List View) : Emit Bytes :=
  return (← views.mapM fun view ↦ do e.line (← e.statement view)).flatten

def blockStatements : View → List View
  | .plain _ _ (.block body) => body
  | view => [view]

/-- A block in braces that ends at the current level. -/
def braced (body : View) : Emit Bytes := do
  let lines ← indented (e.statementLines (blockStatements body))
  return bytes "\x7b\n" ++ lines ++ (← e.pad) ++ bytes "\x7d"

/-- The body of an arrow function; an object literal needs parentheses. -/
def arrowBody (body : View) : Emit Bytes := do
  match body with
  | .plain _ _ (.block _) => e.braced body
  | body =>
    let text ← e.expression body
    return if text.head? == some Quoted.openBrace then bytes "(" ++ text ++ bytes ")" else text

end Emission

end SignalView
