import SignalView.Text.Bytes

/-!
# The version of the compiler
-/

namespace SignalView

def version : Bytes := bytes "0.4.0"

end SignalView
