import SignalView.Text.Bytes

/-!
# Where output goes

Unless told otherwise, output goes beside the input: its name takes the extension `.ts`, or
`.gen.ts` if it has the extension `.ts` already.
-/

namespace SignalView

/-! ## Extensions of paths -/

namespace Path

/-- The last component of a path: what follows the last slash. -/
def baseName (path : Bytes) : Bytes := (path.reverse.takeWhile (· != byte '/')).reverse

/-- The length of the extension of a name, with its dot. A dot at the front starts no extension, and
neither does the second dot of the name `..`. -/
def extensionLength (name : Bytes) : Nat :=
  let suffix := name.reverse.takeWhile (· != byte '.')
  if name == bytes ".." || name.length ≤ suffix.length + 1 then 0 else suffix.length + 1

def withExtension (extension path : Bytes) : Bytes :=
  path.take (path.length - extensionLength (baseName path)) ++ extension

end Path

/-! ## Destinations -/

inductive Destination where
  | besideInput
  | standardOutput
  | file (path : Bytes)
  deriving DecidableEq, Repr

namespace Destination

/-- The path of the output that stands beside an input. -/
def derivedPath (input : Bytes) : Bytes :=
  let path := Path.withExtension (bytes ".ts") input
  if path == input then Path.withExtension (bytes ".gen.ts") path else path

/-- A dash stands for the standard output, and nothing for the place beside the input. -/
def ofArgument (text : Bytes) : Destination :=
  if text.isEmpty then .besideInput
  else if text == bytes "-" then .standardOutput
  else .file text

/-- The file to write for an input, if one is written at all. -/
def path? (input : Bytes) : Destination → Option Bytes
  | .besideInput => some (derivedPath input)
  | .standardOutput => none
  | .file path => some path

end Destination

end SignalView
