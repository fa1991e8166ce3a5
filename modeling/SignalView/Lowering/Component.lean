import SignalView.Lowering.Markup

/-!
# Lowering components

A component is registered under a key of its own. Its parameters are checked before its body is
lowered, and the facts about its body are collected on the way.
-/

namespace SignalView.Lowering

open Lower

variable (l : Lowering)

/-! ## Detection -/

/-- Runs detection on a function and reports what it says; gives the detection when the function is
a component with a name. -/
def acceptDetected (binding : Bytes) (node : Node) : Lower (Option Detection) := do
  let detection := detect { binding := binding } node
  detection.diagnostics.forM report
  let name := if detection.name.isEmpty then binding else detection.name
  remark .debug .detector (bytes "'" ++ name ++ bytes "' " ++
    (if detection.isComponent then bytes "is" else bytes "is not") ++ bytes " a component: " ++
    detection.strategy ++ bytes ", " ++ detection.confidence.name ++ bytes " confidence")
  return if detection.isComponent && !detection.name.isEmpty then some detection else none

/-- Mentions in the log what detection says about each outermost function of a statement. -/
def noteCallbacks (node : Node) : Lower Unit :=
  (node.reach (!·.isFunctionLike) false).forM fun visit ↦ do
    if visit.node.isFunctionLike then
      let detection := detect { isCallback := visit.isCallback, autoAnnotate := false } visit.node
      debug (bytes "Callback at line " ++ Bytes.ofNat visit.node.line ++ bytes ": " ++
        detection.strategy ++ bytes " (" ++ detection.rationale ++ bytes ")")

/-! ## Parameters -/

/-- A fault in the parameters of a component. -/
def malformed {α : Type} (name message : Bytes) (line column : Nat) : Lower α :=
  failAt "PSR-A001" (bytes "Malformed props in component '" ++ name ++ bytes "': " ++ message) line
    column

/-- Whether a pattern has a shorthand property with a computed key. -/
def hasComputedShorthand : Node → Bool
  | .plain _ (.object properties) => properties.any fun p ↦ p.computed && p.kind == .shorthand
  | _ => false

/-- The first of some names that has been seen before, or that occurs twice. -/
def firstRepeated (seen : List Bytes) : List Bytes → Option Bytes
  | [] => none
  | name :: rest => if seen.contains name then some name else firstRepeated (name :: seen) rest

/-- Checks the parameters of a component: each has a pattern, only the last one takes the rest, and
no name is bound twice. -/
def checkParams (name : Bytes) (line column : Nat) (seen : List Bytes) :
    List (Param Node) → Lower Unit
  | [] => return
  | param :: rest => do
    match param.pattern with
    | none => malformed name (bytes "missing parameter") line column
    | some pattern =>
      if param.rest && !rest.isEmpty then
        malformed name (bytes "rest parameter must be last") pattern.line pattern.column
      if hasComputedShorthand pattern then
        malformed name (bytes "computed prop key needs a binding name") pattern.line pattern.column
      match firstRepeated seen pattern.boundNames with
      | some bound =>
        malformed name (bytes "duplicate prop '" ++ bound ++ bytes "'") pattern.line pattern.column
      | none => checkParams name line column (pattern.boundNames ++ seen) rest

/-! ## Registration -/

/-- Takes the key of a component, which no other may have. -/
def register (component : Component Node) : Lower Unit := do
  let key := component.registryKey
  if (← state).registered.contains key then
    failAt "PSR-A003" (bytes "Duplicate component registry key '" ++ key ++ bytes "'")
      component.line component.column
  modify fun s ↦ { s with registered := key :: s.registered }

/-- Runs an action as the body of a component and gives the facts about it. -/
def collectingFacts {α : Type} (action : Lower α) : Lower (α × ComponentFacts) := do
  let enclosing := (← state).current
  modify fun s ↦ { s with current := some {} }
  let value ← action
  let facts := (← state).current.getD {}
  modify fun s ↦ { s with current := enclosing }
  return (value, facts)

/-- The parameters and the body of a component, in the scope that is open. -/
def componentParts (component : Component Node) : Lower (Component View) := do
  declareParams component.params
  let params ← l.params component.params
  let block ← component.block.mapM (l.block false)
  let value ← if block.isSome then pure none else l.optionalExpression component.value
  return {
    name := component.name, typeParameters := component.typeParameters, params := params
    returnType := component.returnType, block := block, value := value
    isAsync := component.isAsync, form := component.form, strategy := component.strategy
    line := component.line, column := component.column }

/-- Lowers a component and puts it on record. -/
def component (c : Component Node) : Lower View := do
  register c
  checkParams c.name c.line c.column [] c.params
  let (lowered, facts) ← collectingFacts (inScope .component (l.componentParts c))
  let dependencies := sortedDistinct facts.dependencies
  let facts := { facts with
    dependencies := dependencies, usesSignals := facts.usesSignals || !dependencies.isEmpty }
  let lowered := { lowered with facts := facts }
  modify fun s ↦ { s with components := s.components ++ [lowered] }
  debug (bytes "Component '" ++ c.name ++ bytes "' registered as '" ++ c.registryKey ++ bytes "'")
  return .rendered c.line c.column (.component lowered)

/-! ## The forms of components -/

/-- A declaration with the keyword, which renders an element unless it says otherwise. -/
def keywordComponent (line column : Nat) (f : Callable Node) : Lower View := do
  let returnType := if f.returnType.isEmpty then bytes "HTMLElement" else f.returnType
  declare [] f.name .component returnType line column
  l.component {
    name := f.name, typeParameters := f.typeParameters, params := f.params, returnType := returnType
    block := f.body, form := .keyword, strategy := bytes "ComponentKeyword", line := line
    column := column }

/-- A function declaration that was taken for a component. -/
def declaredComponent (line column : Nat) (f : Callable Node) (detection : Detection) :
    Lower View := do
  let returnType := detection.returnType.getD f.returnType
  declare [] f.name .component returnType line column
  l.component {
    name := f.name, typeParameters := f.typeParameters, params := f.params, returnType := returnType
    block := f.body, isAsync := f.isAsync, form := .functionDeclaration
    strategy := detection.strategy, line := line, column := column }

/-- A function expression or an arrow function that is bound to a name and was taken for a
component. -/
def boundComponent (binding : Bytes) (detection : Detection) (node : Node) : Lower View :=
  match node with
  | .plain _ (.arrow f) =>
    l.component {
      name := binding, typeParameters := f.typeParameters, params := f.params
      returnType := detection.returnType.getD f.returnType
      block := match f.body with
        | .block body => some body
        | .expression _ => none
      value := match f.body with
        | .block _ => none
        | .expression value => some value
      isAsync := f.isAsync, form := .arrow, strategy := detection.strategy, line := node.line
      column := node.column }
  | .plain _ (.function f) =>
    l.component {
      name := binding, typeParameters := f.typeParameters, params := f.params
      returnType := detection.returnType.getD f.returnType, block := f.body, isAsync := f.isAsync
      form := .functionExpression, strategy := detection.strategy, line := node.line
      column := node.column }
  | node => l.expression node

end SignalView.Lowering
