import Mathlib.Data.Multiset.Bind
import SignalView.Lowering.Action
import SignalView.Reactive.Primitive
import SignalView.Proofs.View.Subviews

/-!
# What names mean where they stand

A program is told as a row of events: scopes are opened and closed, names are declared and referred
to. The events in front of a reference settle what its name means there, and thereby the name that
is written in its place. Whatever has names in it and is written can be collected from the output.
-/

namespace SignalView

open Slot

/-! ## What is written -/

/-- Something with names in it that is written for a place in the source. -/
inductive Written where
  | name (line column : Nat) (name : Bytes)
  | imports (line column : Nat) (clause : ImportClause)
  | exports (line column : Nat) (specifiers : List ExportSpecifier) (source : Bytes)
  deriving DecidableEq

/-- The names that a plain construct writes itself. -/
def Plain.ownNames {α : Type} (line column : Nat) : Plain α → Multiset Written
  | .identifier name => {.name line column name}
  | .imports clause => {.imports line column clause}
  | .exportNamed _ specifiers source _ => {.exports line column specifiers source}
  | _ => 0

namespace View

/-- The names that a view writes itself. -/
def ownNames : View → Multiset Written
  | .plain line column form => form.ownNames line column
  | .rendered _ _ _ => 0

/-- All the names that are written in a tree. -/
def names (view : View) : Multiset Written := view.subviews.bind ownNames

end View

namespace Slot

/-- The names that are written in what some slots hold. -/
def names (slots : List (Slot View)) : Multiset Written := ((parts slots).map View.names).sum

@[simp]
theorem names_append (slots more : List (Slot View)) :
    names (slots ++ more) = names slots + names more := by
  simp [names]

@[simp]
theorem names_filled (place : Place) (contents : List View) :
    names (filled place contents) = (contents.map View.names).sum := by
  simp [names]

@[simp]
theorem names_held (required : Bool) (place : Place) (content : Option View) :
    names (held required place content) = (content.toList.map View.names).sum := by
  simp [names]

@[simp]
theorem names_flatMap {α : Type} (items : List α) (slots : α → List (Slot View)) :
    names (items.flatMap slots) = (items.map fun item ↦ names (slots item)).sum := by
  induction items with
  | nil => rfl
  | cons item items ih => simp [ih]

end Slot

/-- The names that are written in a plain view at a place. -/
def Plain.names (line column : Nat) (form : Plain View) : Multiset Written :=
  form.ownNames line column + Slot.names form.slots

theorem View.names_eq (view : View) : view.names = view.ownNames + Slot.names view.slots := by
  rw [names, subviews_eq, Multiset.cons_bind, Slot.subviews, Slot.names]
  congr 1
  induction parts view.slots with
  | nil => rfl
  | cons first rest ih =>
    simp only [List.map_cons, List.sum_cons, Multiset.add_bind, ih]
    rfl

@[simp]
theorem View.names_plain (line column : Nat) (form : Plain View) :
    (View.plain line column form).names = form.names line column :=
  View.names_eq _

@[simp]
theorem View.names_rendered (line column : Nat) (form : Rendered View) :
    (View.rendered line column form).names = Slot.names form.slots :=
  (View.names_eq _).trans (zero_add _)

/-! ## Events -/

inductive Event where
  | opens
  | closes
  /-- A name is declared. A function is visible in its whole scope, also in front of this. -/
  | declares (name : Bytes) (isFunction : Bool)
  | imports (line column : Nat) (clause : ImportClause) (isRuntime : Bool)
  | refers (line column : Nat) (name : Bytes)
  /-- Names are written as they are, whatever is in scope. -/
  | keeps (written : Written)

/-- The specifier that is written for a primitive of the runtime: it goes by the name of its export,
and so does its local name when it has none of its own. -/
def ImportSpecifier.canonical (spec : ImportSpecifier) : ImportSpecifier :=
  { spec with
    imported := Primitive.canonicalName spec.imported
    localName :=
      if spec.localName == spec.imported then Primitive.canonicalName spec.imported
      else spec.localName }

namespace ImportClause

variable (clause : ImportClause) (isRuntime : Bool)

def isType (spec : ImportSpecifier) : Bool := spec.isType || clause.typeOnly

/-- Whether a specifier of the clause imports a primitive of the runtime. -/
def isPrimitive (spec : ImportSpecifier) : Bool :=
  isRuntime && !clause.isType spec && (Primitive.ofName? spec.imported).isSome

/-- The clause that is written. -/
def emitted : ImportClause :=
  { clause with
    specifiers := clause.specifiers.map fun spec ↦
      if clause.isPrimitive isRuntime spec then spec.canonical else spec }

end ImportClause

/-- The primitives of the runtime that an event imports. -/
def Event.specifiers : Event → List ImportSpecifier
  | .imports _ _ clause isRuntime => clause.specifiers.filter (clause.isPrimitive isRuntime)
  | _ => []

/-- What is known at a place: the names that are declared in front of it in each scope that is open
there, the innermost in front, and whether they are imported; the exports of the runtime that local
names stand for; and the primitives that were found to be imported on the way. -/
structure Scoping where
  scopes : List (List (Bytes × Bool)) := [[]]
  runtimeNames : List (Bytes × Bytes) := []
  primitives : List Bytes := []

namespace Scoping

variable (here : Scoping)

/-- Whether the declaration that a name means is an import; `none` when nothing in front declares
the name in an open scope. -/
def seen (name : Bytes) : Option Bool := here.scopes.findSome? (·.lookup name)

/-- A primitive that nothing in front declares is imported. -/
def autoImports (name : Bytes) : Bool := (here.seen name).isNone && Primitive.isImplicit name

/-- The name that is written for a reference. -/
def resolve (name : Bytes) : Bytes :=
  match here.seen name with
  | none => if Primitive.isImplicit name then Primitive.canonicalName name else name
  | some isImport =>
    if isImport && (Primitive.ofName? name).isSome then (here.runtimeNames.lookup name).getD name
    else name

/-- The first declaration of a name in a scope counts. -/
def declare (name : Bytes) (isImport : Bool) : Scoping :=
  match here.scopes with
  | [] => here
  | current :: outer =>
    if name.isEmpty || (current.lookup name).isSome then here
    else { here with scopes := (current ++ [(name, isImport)]) :: outer }

/-- The outermost scope is never left. -/
def close : Scoping :=
  match here.scopes with
  | _ :: next :: outer => { here with scopes := next :: outer }
  | _ => here

/-- A primitive that is imported on the way is noted. -/
def refer (name : Bytes) : Scoping :=
  if here.autoImports name then
    { here with
      primitives := insertSorted Bytes.before (Primitive.canonicalName name) here.primitives }
  else here

@[simp]
theorem runtimeNames_refer (name : Bytes) : (here.refer name).runtimeNames = here.runtimeNames := by
  unfold refer
  split <;> rfl

@[simp]
theorem runtimeNames_declare (name : Bytes) (isImport : Bool) :
    (here.declare name isImport).runtimeNames = here.runtimeNames := by
  unfold declare
  split
  · rfl
  · split <;> rfl

@[simp]
theorem primitives_declare (name : Bytes) (isImport : Bool) :
    (here.declare name isImport).primitives = here.primitives := by
  unfold declare
  split
  · rfl
  · split <;> rfl

@[simp]
theorem runtimeNames_close : here.close.runtimeNames = here.runtimeNames := by
  unfold close
  split <;> rfl

@[simp]
theorem primitives_close : here.close.primitives = here.primitives := by
  unfold close
  split <;> rfl

def importSpecifier (clause : ImportClause) (isRuntime : Bool) (spec : ImportSpecifier) : Scoping :=
  let declared := here.declare spec.localName (!clause.isType spec)
  if clause.isPrimitive isRuntime spec then
    { declared with
      runtimeNames :=
        (spec.localName, Primitive.canonicalName spec.imported) :: declared.runtimeNames }
  else declared

def importClause (clause : ImportClause) (isRuntime : Bool) : Scoping :=
  ((clause.specifiers.foldl (·.importSpecifier clause isRuntime ·) here).declare clause.defaultName
    true).declare clause.namespaceName true

def step : Event → Scoping
  | .opens => { here with scopes := [] :: here.scopes }
  | .closes => here.close
  | .declares name _ => here.declare name false
  | .imports _ _ clause isRuntime => here.importClause clause isRuntime
  | .refers _ _ name => here.refer name
  | .keeps _ => here

/-- What is written for an event. -/
def written : Event → Multiset Written
  | .refers line column name => {.name line column (here.resolve name)}
  | .imports line column clause isRuntime => {.imports line column (clause.emitted isRuntime)}
  | .keeps written => {written}
  | _ => 0

def run (trace : List Event) : Scoping := trace.foldl step here

/-- All that is written for a row of events. -/
def output : Scoping → List Event → Multiset Written
  | _, [] => 0
  | here, event :: rest => here.written event + (here.step event).output rest

@[simp]
theorem run_nil : here.run [] = here := rfl

@[simp]
theorem run_cons (event : Event) (rest : List Event) :
    here.run (event :: rest) = (here.step event).run rest := rfl

@[simp]
theorem run_append (trace more : List Event) :
    here.run (trace ++ more) = (here.run trace).run more :=
  List.foldl_append

@[simp]
theorem output_nil : here.output [] = 0 := rfl

@[simp]
theorem output_cons (event : Event) (rest : List Event) :
    here.output (event :: rest) = here.written event + (here.step event).output rest := rfl

@[simp]
theorem output_append (trace more : List Event) :
    here.output (trace ++ more) = here.output trace + (here.run trace).output more := by
  induction trace generalizing here with
  | nil => simp
  | cons event rest ih => simp [ih, add_assoc]

end Scoping

/-! ## The symbol table -/

/-- The names of a scope, and whether they are imported. -/
def Scope.bindings (scope : Scope) : List (Bytes × Bool) :=
  scope.symbols.map fun s ↦ (s.name, s.kind == .import_)

/-- What a state of the lowering knows about names. -/
def LoweringState.scoping (s : LoweringState) : Scoping where
  scopes := s.symbols.scopes.map (·.bindings)
  runtimeNames := s.runtimeNames
  primitives := s.primitives

theorem Scope.lookup_bindings (scope : Scope) (name : Bytes) :
    scope.bindings.lookup name = (scope.find? name).map (·.kind == .import_) := by
  unfold bindings find?
  induction scope.symbols with
  | nil => rfl
  | cons symbol symbols ih =>
    rw [List.map_cons, List.lookup_cons, List.find?_cons, ih, BEq.comm]
    cases symbol.name == name <;> rfl

theorem Scope.bindings_markUsed (scope : Scope) (name : Bytes) :
    (scope.markUsed name).bindings = scope.bindings := by
  simp only [bindings, markUsed, List.map_map]
  refine List.map_congr_left fun s _ ↦ ?_
  simp only [Function.comp_apply]
  split <;> rfl

namespace SymbolTable

theorem map_bindings_markUsedIn (name : Bytes) (scopes : List Scope) :
    (markUsedIn name scopes).map (·.bindings) = scopes.map (·.bindings) := by
  induction scopes with
  | nil => rfl
  | cons scope rest ih =>
    unfold markUsedIn
    split
    · simp [Scope.bindings_markUsed]
    · simp [ih]

theorem map_bindings_markUsed (table : SymbolTable) (name : Bytes) :
    (table.markUsed name).scopes.map (·.bindings) = table.scopes.map (·.bindings) := by
  unfold markUsed
  split
  · simp [scopes, Scope.bindings_markUsed]
  · simp [scopes, map_bindings_markUsedIn]

end SymbolTable

namespace LoweringState

variable (s : LoweringState)

theorem seen_scoping (name : Bytes) :
    s.scoping.seen name = (s.symbols.lookup name).map (·.kind == .import_) := by
  unfold Scoping.seen scoping SymbolTable.lookup
  induction s.symbols.scopes with
  | nil => rfl
  | cons scope scopes ih =>
    rw [List.map_cons, List.findSome?_cons, List.findSome?_cons, Scope.lookup_bindings, ih]
    cases scope.find? name <;> rfl

theorem scoping_enter (kind : ScopeKind) :
    scoping { s with symbols := s.symbols.enter kind } = s.scoping.step .opens := rfl

theorem scoping_exit :
    scoping { s with symbols := s.symbols.exit } = s.scoping.step .closes := by
  obtain ⟨⟨current, enclosing, closed, declarations⟩, _, _, _, _, _, _, _, _⟩ := s
  cases enclosing <;> rfl

end LoweringState

end SignalView
