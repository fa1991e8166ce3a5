import SignalView.Lowering.Action
import SignalView.Reactive.Primitive
import SignalView.Scope.TypeGuess

/-!
# Declaring and resolving names

Names are declared in the current scope with the type they are annotated with or the one that their
initial value suggests. A name stands for a reactive primitive when nothing in scope shadows it, or
when it was imported from the runtime.
-/

namespace SignalView.Lower

/-! ## Declaring -/

/-- Declares a name; only `let` and `const` complain about one that is taken. -/
def declare (keyword name : Bytes) (kind : SymbolKind) (type : Bytes) (line column : Nat) :
    Lower Unit := do
  if name.isEmpty then return
  match (← state).symbols.declare? { name, kind, type, line, column } with
  | some symbols => modify fun s ↦ { s with symbols := symbols }
  | none =>
    if keyword == bytes "let" || keyword == bytes "const" then
      warn "PSR-A020" (bytes "Duplicate declaration of '" ++ name ++ bytes "'") line column

/-- Declares a plain name with its type, or the names of a pattern without one. -/
def declarePattern (keyword : Bytes) (kind : SymbolKind) (type : Bytes) (pattern : Node) :
    Lower Unit :=
  match pattern.name? with
  | some name => declare keyword name kind type pattern.line pattern.column
  | none => pattern.boundNames.forM fun name ↦
    declare keyword name kind [] pattern.line pattern.column

/-- The type of a parameter: as annotated, else as its default suggests. -/
def paramType (param : Param Node) : Bytes :=
  let type := if param.type.isEmpty then (param.initial.map (·.guessType)).getD [] else param.type
  let type :=
    if param.optional && !type.isEmpty && param.initial.isNone then type ++ bytes " | undefined"
    else type
  if param.rest && type.isEmpty then bytes "any[]" else type

def declareParams (params : List (Param Node)) : Lower Unit :=
  params.forM fun param ↦
    param.pattern.forM (declarePattern [] .parameter (paramType param))

/-! ## Primitives -/

/-- The primitive that a callee stands for. -/
def primitive? (state : LoweringState) (callee : Node) : Option Primitive := do
  let name ← callee.name?
  match state.symbols.lookup name with
  | none => Primitive.ofName? name
  | some symbol =>
    if symbol.kind == .import_ then Primitive.ofName? (← state.runtimeNames.lookup name) else none

/-- Declares the elements of the pair that a signal is taken apart into. -/
def declareSignalPair (keyword type : Bytes) : Nat → List Node → Lower Unit
  | _, [] => return
  | index, element :: rest => do
    match element.name?, index with
    | some name, 0 => declare keyword name .signalGetter type element.line element.column
    | some name, 1 => declare keyword name .signalSetter [] element.line element.column
    | _, _ => declarePattern keyword .constant [] element
    declareSignalPair keyword type (index + 1) rest

/-- Declares the getters and setters that a call of a primitive gives, and tells whether the
declarator is of that kind. The type of a signal is its type argument, or else the type of its
initial value. -/
def declareSignals (keyword : Bytes) (declarator : Declarator Node) : Lower Bool := do
  match declarator.init.map Node.unwrap with
  | some (.plain _ (.call callee typeArguments args _)) =>
    match primitive? (← state) callee, declarator.target with
    | some .signal, .plain _ (.array elements) =>
      let guess := (args.head?.map (·.guessType)).getD []
      declareSignalPair keyword (typeArguments.head?.getD guess) 0 elements
      return true
    | some .computed, .plain range (.identifier name) =>
      declare keyword name .signalGetter (typeArguments.head?.getD []) range.start.line
        range.start.column
      return true
    | _, _ => return false
  | _ => return false

/-! ## Resolving -/

/-- The output name of an identifier. Primitives go by the name of their export, also when they
were imported under it; a primitive that is not declared is noted as one to import. -/
def resolve (name : Bytes) : Lower Bytes := do
  let s ← state
  match s.symbols.lookup name with
  | some symbol =>
    markUsed name
    match s.runtimeNames.lookup name with
    | some canonical =>
      if symbol.kind == .import_ then
        noteSignals
        return if (Primitive.ofName? name).isSome then canonical else name
      else return name
    | none => return name
  | none =>
    if Primitive.isImplicit name then
      let canonical := Primitive.canonicalName name
      modify fun s ↦ { s with primitives := insertSorted Bytes.before canonical s.primitives }
      noteSignals
      return canonical
    else return name

end SignalView.Lower
