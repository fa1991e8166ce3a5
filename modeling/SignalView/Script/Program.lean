import SignalView.Lowering.Program
import SignalView.Script.Statement

/-!
# Writing programs

The imports of the program and of the runtime are gathered into one block at the top, with an empty
line between it and the statements.
-/

namespace SignalView

/-- The entry points with a number of levels left. -/
def emission (options : ScriptOptions) : Nat → Emission
  | 0 => {
      options := options
      statement := tooDeep
      expression := tooDeep }
  | levels + 1 => {
      options := options
      statement := fun view level state ↦ (emission options levels).statementStep view level state
      expression := fun view level state ↦
        (emission options levels).expressionStep view level state }
where
  tooDeep (view : View) : Emit Bytes :=
    Emit.fail (.tooDeep .emitter options.maxDepth view.line view.column)

/-- The output text, and the imports that it starts with. -/
structure Script where
  text : Bytes
  imports : ImportTable

namespace Script

/-- A statement of the module; imports go to the block at the top instead. -/
def moduleStatement (e : Emission) : View → Emit Bytes
  | .plain _ _ (.imports clause) => do
    Emit.modify fun s ↦ { s with imports := s.imports.add clause }
    return []
  | view => do e.line (← e.statement view)

def programText (e : Emission) (program : ViewProgram) : Emit Bytes := do
  program.primitives.forM e.useRuntime
  return (← program.body.mapM (moduleStatement e)).flatten

/-- Writes a program. -/
def ofProgram (options : ScriptOptions) (program : ViewProgram) : Except Failure Script := do
  let e := emission options options.maxDepth.toNat
  let (code, state) ← programText e program 0 {}
  let header := state.imports.generate options.format
  return {
    text := if header.isEmpty then code else header ++ bytes "\n" ++ code
    imports := state.imports }

end Script

end SignalView
