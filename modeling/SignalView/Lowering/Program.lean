import SignalView.Lowering.Statement

/-!
# Lowering programs

Nesting is bounded: a statement, an expression or an element takes up one level, and what exceeds
the levels there are is a failure at its place.
-/

namespace SignalView

/-- The entry points with a number of levels left, of a limit that failures report. -/
def lowering (runtimeModule : Bytes) (limit : Int) : Nat → Lowering
  | 0 => {
      runtimeModule := runtimeModule
      statement := tooDeep
      expression := tooDeep
      element := tooDeep }
  | level + 1 => {
      runtimeModule := runtimeModule
      statement := fun node state ↦ (lowering runtimeModule limit level).statementStep node state
      expression := fun node state ↦ (lowering runtimeModule limit level).expressionStep node state
      element := fun node state ↦ (lowering runtimeModule limit level).elementStep node state }
where
  tooDeep (node : Node) : Lower View := Lower.fail (.tooDeep .analyzer limit node.line node.column)

/-- A lowered program. -/
structure ViewProgram where
  body : List View := []
  components : List (Component View) := []
  primitives : List Bytes := []
  hasMarkup : Bool := false

namespace ViewProgram

/-- The module that the runtime's exports come from unless told otherwise. -/
def defaultRuntime : Bytes := bytes "@pulsar-framework/pulsar.dev"

structure Options where
  runtimeModule : Bytes := defaultRuntime
  maxDepth : Int := 100
  deriving DecidableEq, Repr

/-- Lowers the statements of a program. -/
def ofItems (options : Options) (items : List Node) : Lower ViewProgram := do
  let l := lowering options.runtimeModule options.maxDepth options.maxDepth.toNat
  let body ← items.mapM l.moduleItem
  let state ← Lower.state
  Lower.debug (bytes "Built IR with " ++ Bytes.ofNat state.components.length ++
    bytes " component(s)")
  return {
    body := body, components := state.components, primitives := state.primitives
    hasMarkup := state.hasMarkup }

/-- Lowers a program; the state holds what was found out, also when lowering failed. -/
def ofNode (options : Options) (root : Node) : Except Failure ViewProgram × LoweringState :=
  ofItems options root.children {}

end ViewProgram

end SignalView
