import SignalView.Text.Bytes

/-!
# Module formats

How the output imports from and exports to other modules.
-/

namespace SignalView

inductive ModuleFormat where
  | esm | commonjs
  deriving DecidableEq, Repr

namespace ModuleFormat

def name : ModuleFormat → Bytes
  | .esm => bytes "esm"
  | .commonjs => bytes "commonjs"

def ofName? (text : Bytes) : Option ModuleFormat :=
  if [bytes "esm", bytes "es", bytes "module"].contains text then some .esm
  else if [bytes "commonjs", bytes "cjs"].contains text then some .commonjs
  else none

end ModuleFormat

end SignalView
