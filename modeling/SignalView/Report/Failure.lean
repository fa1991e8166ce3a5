import SignalView.Text.Bytes

/-!
# Failures and diagnostics

A failure is what ends a phase: where it happened, its code and its text. A diagnostic is what is
reported about a unit: a failure, a warning or a remark. Lines and columns count from one, and a
line of zero means that there is no place to point at.
-/

namespace SignalView

inductive Phase where
  | lexer | parser | detector | analyzer | emitter | pipeline
  deriving DecidableEq, Repr

def Phase.name : Phase → Bytes
  | .lexer => bytes "lexer"
  | .parser => bytes "parser"
  | .detector => bytes "detector"
  | .analyzer => bytes "analyzer"
  | .emitter => bytes "emitter"
  | .pipeline => bytes "pipeline"

inductive Severity where
  | info | warning | error
  deriving DecidableEq, Repr

def Severity.name : Severity → Bytes
  | .info => bytes "info"
  | .warning => bytes "warning"
  | .error => bytes "error"

/-- A message with its place: `message at line L:C`, without what is not positive. -/
def locatedMessage (message : Bytes) (line column : Int) : Bytes :=
  if line ≤ 0 then message
  else
    message ++ bytes " at line " ++ Bytes.ofInt line ++
      if 0 < column then bytes ":" ++ Bytes.ofInt column else []

structure Diagnostic where
  severity : Severity
  phase : Phase
  code : Bytes := []
  message : Bytes
  line : Int := 0
  column : Int := 0
  deriving DecidableEq, Repr

structure Failure where
  phase : Phase
  code : Bytes
  message : Bytes
  line : Int := 0
  column : Int := 0
  offset : Nat := 0
  deriving DecidableEq, Repr

namespace Failure

/-- The failure's text with its place, up to a zero byte. -/
def text (failure : Failure) : Bytes :=
  (locatedMessage failure.message failure.line failure.column).takeWhile (· != 0)

def toDiagnostic (failure : Failure) : Diagnostic where
  severity := .error
  phase := failure.phase
  code := failure.code
  message := failure.message
  line := failure.line
  column := failure.column

/-- The code of a nesting limit, which each bounded phase has of its own. -/
def depthCode : Phase → Bytes
  | .analyzer => bytes "PSR-A010"
  | .emitter => bytes "PSR-G010"
  | _ => bytes "PSR-P010"

/-- Nesting beyond the limit of a phase. -/
def tooDeep (phase : Phase) (limit : Int) (line column : Int) : Failure where
  phase := phase
  code := depthCode phase
  message := bytes "Maximum nesting depth of " ++ Bytes.ofInt limit ++ bytes " exceeded"
  line := line
  column := column

end Failure

end SignalView
