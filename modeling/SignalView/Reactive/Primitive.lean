import SignalView.Text.Bytes

/-!
# Reactive primitives

The functions of the runtime that create reactive values. The short names `signal`, `computed` and
`effect` stand for the exports `createSignal`, `createMemo` and `createEffect`.
-/

namespace SignalView

/-- What a primitive returns: a getter with its setter, a getter, or nothing. -/
inductive Primitive where
  | signal | computed | effect
  deriving DecidableEq, Repr

namespace Primitive

/-- The primitive that a name calls. -/
def ofName? (name : Bytes) : Option Primitive :=
  if [bytes "signal", bytes "createSignal", bytes "useState"].contains name then some .signal
  else if [bytes "computed", bytes "createMemo", bytes "createComputed"].contains name then
    some .computed
  else if [bytes "effect", bytes "createEffect"].contains name then some .effect
  else none

def name : Primitive → Bytes
  | .signal => bytes "signal"
  | .computed => bytes "computed"
  | .effect => bytes "effect"

/-- The export of the runtime that a name stands for. -/
def canonicalName (name : Bytes) : Bytes :=
  if name == bytes "signal" then bytes "createSignal"
  else if name == bytes "computed" then bytes "createMemo"
  else if name == bytes "effect" then bytes "createEffect"
  else name

/-- The names that are imported from the runtime when a program uses them without declaring them. -/
def isImplicit (name : Bytes) : Bool :=
  [bytes "signal", bytes "computed", bytes "effect", bytes "createSignal", bytes "createMemo",
    bytes "createEffect"].contains name

end Primitive

end SignalView
