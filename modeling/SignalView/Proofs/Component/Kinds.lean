import Mathlib.Data.List.Forall2
import SignalView.Proofs.Lowering.Scopes

/-!
# What kind of function a component is

A function that is taken for a component is written anew, with its body in an arrow function that
the runtime calls. Arrow functions and declarations keep their kind. A function expression stays
asynchronous, but it is written as an ordinary function without a name, whether or not it was a
generator and had a name of its own.
-/

namespace SignalView

/-! ## Kinds -/

/-- What tells functions apart besides their parameters and bodies. The name is the one by which a
function is known in its own body; it is empty when there is none. -/
@[ext]
structure FunctionKind where
  isArrow : Bool := false
  isAsync : Bool
  isGenerator : Bool := false
  ownName : Bytes := []

/-- The kind without what makes a generator and without the name. -/
def FunctionKind.ordinary (kind : FunctionKind) : FunctionKind :=
  { kind with isGenerator := false, ownName := [] }

theorem FunctionKind.ordinary_eq_iff {kind : FunctionKind} :
    kind.ordinary = kind ↔ kind.isGenerator = false ∧ kind.ownName = [] := by
  constructor
  · intro h
    exact ⟨(congrArg isGenerator h).symm, (congrArg ownName h).symm⟩
  · intro ⟨hgenerator, hname⟩
    exact FunctionKind.ext rfl rfl hgenerator.symm hname.symm

def Callable.kind {α : Type} (f : Callable α) : FunctionKind where
  isAsync := f.isAsync
  isGenerator := f.isGenerator
  ownName := f.name

def Arrow.kind {α : Type} (f : Arrow α) : FunctionKind where
  isArrow := true
  isAsync := f.isAsync

/-- The kind of the function that is written for a component. -/
def Component.kind {α : Type} (c : Component α) : FunctionKind where
  isArrow := c.form == .keyword || c.form == .arrow
  isAsync := c.isAsync
  ownName := if c.form == .functionDeclaration then c.name else []

namespace Node

def functionKind? : Node → Option FunctionKind
  | .plain _ (.functionDeclaration f _) | .plain _ (.function f) => some f.kind
  | .plain _ (.arrow f) => some f.kind
  | _ => none

def isFunctionExpression : Node → Bool
  | .plain _ (.function _) => true
  | _ => false

theorem eq_plain_of_functionKind? {node : Node} (h : node.functionKind?.isSome) :
    ∃ range form, node = .plain range form := by
  cases node with
  | plain range form => exact ⟨range, form, rfl⟩
  | surface => cases h

end Node

/-! ## Texts -/

/-- The text of a function of a kind up to its body. -/
def FunctionKind.head (kind : FunctionKind) (signature : Bytes) : Bytes :=
  if kind.isArrow then Emission.when kind.isAsync "async " ++ signature ++ bytes " =>"
  else
    Emission.when kind.isAsync "async " ++ bytes "function" ++ Emission.when kind.isGenerator "*" ++
      (if kind.ownName.isEmpty then Emission.when (!kind.isGenerator) " "
        else bytes " " ++ kind.ownName) ++
      signature

/-- The text of a component with some signature, body and margins: a function of its kind that runs
the body in an arrow function of its own. -/
def Component.textWith {α : Type} (c : Component α) (signature margin body pad : Bytes) : Bytes :=
  c.kind.head signature ++ bytes " \x7b\n" ++ margin ++ bytes "return $REGISTRY.execute(" ++
    Quoted.quoted c.registryKey ++ bytes ", " ++ Emission.when c.isAsync "async " ++
    bytes "() => " ++ body ++ bytes ");\n" ++ pad ++ bytes "\x7d"

namespace Emission

open Emit

variable {e : Emission} {level : Nat} {s t : EmitState} {text : Bytes}

theorem callableText_head {f : Callable View}
    (hrun : e.callableText f false level s = .ok (text, t)) :
    ∃ signature middle body,
      e.signature f.typeParameters f.params f.returnType level s = .ok (signature, middle) ∧
        text = f.kind.head signature ++ body := by
  obtain ⟨signature, middle, hsignature, hrun⟩ := bind_eq_ok.mp hrun
  obtain ⟨body, _, -, hrun⟩ := bind_eq_ok.mp hrun
  cases hrun
  exact ⟨signature, middle, body, hsignature, rfl⟩

theorem arrowText_head {f : Arrow View} (hrun : e.arrowText f level s = .ok (text, t)) :
    ∃ signature middle body,
      e.signature f.typeParameters f.params f.returnType level s = .ok (signature, middle) ∧
        text = f.kind.head signature ++ bytes " " ++ body := by
  obtain ⟨signature, middle, hsignature, hrun⟩ := bind_eq_ok.mp hrun
  have harrow : bytes " => " = bytes " =>" ++ bytes " " := by decide
  refine ⟨signature, middle, ?_⟩
  cases hbody : f.body with
  | block block | expression value =>
    simp only [hbody] at hrun
    obtain ⟨body, _, -, hrun⟩ := bind_eq_ok.mp hrun
    cases hrun
    exact ⟨body, hsignature, by simp [FunctionKind.head, Arrow.kind, harrow]⟩

theorem componentHead_eq {c : Component View} (hform : c.form ≠ .keyword) (signature : Bytes) :
    componentHead c signature = c.kind.head signature ++ bytes " " := by
  have harrow : bytes " => " = bytes " =>" ++ bytes " " := by decide
  have hfunction : bytes "function " = bytes "function" ++ bytes " " := by decide
  cases hc : c.form with
  | keyword => exact absurd hc hform
  | arrow => simp [componentHead, FunctionKind.head, Component.kind, hc, harrow]
  | functionExpression =>
    simp [componentHead, FunctionKind.head, Component.kind, hc, hfunction, when]
  | functionDeclaration =>
    cases hname : c.name <;>
      simp [componentHead, FunctionKind.head, Component.kind, hc, hname, hfunction, when]

theorem componentText_head {c : Component View} (hform : c.form ≠ .keyword)
    (hrun : e.componentText c level s = .ok (text, t)) :
    ∃ signature before after margin body pad,
      e.signature c.typeParameters c.params c.returnType level before = .ok (signature, after) ∧
        text = c.textWith signature margin body pad := by
  obtain ⟨_, before, -, hrun⟩ := bind_eq_ok.mp hrun
  obtain ⟨signature, after, hsignature, hrun⟩ := bind_eq_ok.mp hrun
  obtain ⟨line, _, hline, hrun⟩ := bind_eq_ok.mp hrun
  obtain ⟨body, _, -, hline⟩ := bind_eq_ok.mp hline
  obtain ⟨margin, _, -, hline⟩ := bind_eq_ok.mp hline
  cases hline
  obtain ⟨pad, _, -, hrun⟩ := bind_eq_ok.mp hrun
  cases hrun
  refine ⟨signature, before, after, margin, body, pad, hsignature, ?_⟩
  have hend : when (c.form == .keyword) ";" = [] := by simp [when, hform]
  have hstart : bytes " \x7b\n" = bytes " " ++ bytes "\x7b\n" := by decide
  have hline : bytes ");\n" = bytes ");" ++ bytes "\n" := by decide
  simp only [componentHead_eq hform, Component.textWith, hend, hstart, hline, List.append_assoc,
    List.append_nil]

end Emission

/-! ## Lowering -/

/-- Every value of a list that is worked off comes from the element in its place. -/
theorem Lower.forall₂_of_mapM {α β : Type} {f : α → Lower β} {items : List α} {values : List β}
    {s t : LoweringState} (hrun : items.mapM f s = (.ok values, t)) :
    List.Forall₂ (fun item value ↦ ∃ before after, f item before = (.ok value, after)) items
      values := by
  induction items generalizing values s with
  | nil =>
    cases hrun
    exact .nil
  | cons item items ih =>
    rw [List.mapM_cons] at hrun
    obtain ⟨value, middle, hvalue, hrun⟩ := bind_eq_ok.mp hrun
    obtain ⟨rest, _, hrest, hrun⟩ := bind_eq_ok.mp hrun
    cases hrun
    exact .cons ⟨s, middle, hvalue⟩ (ih hrest)

/-- What becomes of a function's kind: only function expressions lose anything. -/
def Component.Represents (c : Component View) (function : Node) : Prop :=
  c.form ≠ .keyword ∧ ∃ kind, function.functionKind? = some kind ∧
    (function.isFunctionExpression = false → kind.isGenerator = false ∧ c.kind = kind) ∧
    (function.isFunctionExpression = true → c.kind = kind.ordinary)

namespace Lowering

open Lower

/-- In an item and in what it is lowered to, a function and the component in its place. -/
inductive Converts : Node → View → Node → Component View → Prop
  | declaration {range : Range} {f : Callable Node} {isDeclare : Bool} {line column : Nat}
    {c : Component View} :
    Converts (.plain range (.functionDeclaration f isDeclare))
      (.rendered line column (.component c))
      (.plain range (.functionDeclaration f isDeclare)) c
  | declarator {range : Range} {keyword keyword' : Bytes} {ds : List (Declarator Node)}
    {ds' : List (Declarator View)} {isDeclare isDeclare' : Bool} {line column line' column' : Nat}
    {d : Declarator Node} {d' : Declarator View} {function : Node} {c : Component View}
    (hd : (d, d') ∈ ds.zip ds') (hinit : d.init = some function)
    (hfunction : function.functionKind?.isSome)
    (hvalue : d'.init = some (.rendered line' column' (.component c))) :
    Converts (.plain range (.variableDeclaration keyword ds isDeclare))
      (.plain line column (.variableDeclaration keyword' ds' isDeclare')) function c
  | exportNamed {range : Range} {item function : Node} {view : View} {c : Component View}
    {specifiers specifiers' : List ExportSpecifier} {source source' : Bytes}
    {typeOnly typeOnly' : Bool} {line column : Nat} (h : Converts item view function c) :
    Converts (.plain range (.exportNamed (some item) specifiers source typeOnly))
      (.plain line column (.exportNamed (some view) specifiers' source' typeOnly')) function c
  | exportDefault {range : Range} {item function : Node} {view : View} {c : Component View}
    {line column : Nat} (h : Converts item view function c) :
    Converts (.plain range (.exportDefault (.declaration item)))
      (.plain line column (.exportDefault (.declaration view))) function c

/-- The entry point for expressions gives plain views for plain nodes. -/
def KeepsPlain (l : Lowering) : Prop :=
  ∀ ⦃range form s view t⦄, l.expression (.plain range form) s = (.ok view, t) →
    ∃ line column form', view = .plain line column form'

variable {l : Lowering} {item function : Node} {view : View} {c : Component View}
  {f : Callable Node} {range : Range} {isDeclare : Bool} {line column : Nat}
  {detection : Detection} {s t : LoweringState}

theorem componentParts_kind {source : Component Node}
    (hrun : l.componentParts source s = (.ok c, t)) :
    c.form = source.form ∧ c.kind = source.kind := by
  obtain ⟨_, _, -, hrun⟩ := bind_eq_ok.mp hrun
  obtain ⟨_, _, -, hrun⟩ := bind_eq_ok.mp hrun
  obtain ⟨_, _, -, hrun⟩ := bind_eq_ok.mp hrun
  split at hrun
  · cases hrun
    exact ⟨rfl, rfl⟩
  · obtain ⟨_, _, -, hrun⟩ := bind_eq_ok.mp hrun
    cases hrun
    exact ⟨rfl, rfl⟩

theorem component_eq_ok {source : Component Node}
    (hrun : l.component source s = (.ok view, t)) :
    ∃ c, view = .rendered source.line source.column (.component c) ∧ c.form = source.form ∧
      c.kind = source.kind := by
  obtain ⟨_, _, -, hrun⟩ := bind_eq_ok.mp hrun
  obtain ⟨_, _, -, hrun⟩ := bind_eq_ok.mp hrun
  obtain ⟨⟨c, facts⟩, _, hparts, hrun⟩ := bind_eq_ok.mp hrun
  obtain ⟨_, hscope, -⟩ := collectingFacts_eq_ok.mp hparts
  obtain ⟨_, hparts, -⟩ := inScope_eq_ok.mp hscope
  obtain ⟨hform, hkind⟩ := componentParts_kind hparts
  cases hrun
  exact ⟨_, rfl, hform, hkind⟩

theorem declaredComponent_represents (hf : f.isGenerator = false)
    (hrun : l.declaredComponent line column f detection s = (.ok view, t)) :
    ∃ line column c, view = .rendered line column (.component c) ∧
      c.Represents (.plain range (.functionDeclaration f isDeclare)) := by
  obtain ⟨_, _, -, hrun⟩ := bind_eq_ok.mp hrun
  obtain ⟨c, rfl, hform, hkind⟩ := component_eq_ok hrun
  refine ⟨_, _, c, rfl, by simp [hform], f.kind, rfl, fun _ ↦ ⟨hf, ?_⟩, fun h ↦ by cases h⟩
  rw [hkind, Callable.kind, hf]
  rfl

/-- The value of a declarator that may become a component. -/
def isBindable (function : Node) : Bool :=
  function matches .plain _ (.arrow _) | .plain _ (.function _)

theorem boundComponent_represents {binding : Bytes} (hfunction : isBindable function = true)
    (hrun : l.boundComponent binding detection function s = (.ok view, t)) :
    ∃ line column c, view = .rendered line column (.component c) ∧ c.Represents function := by
  unfold isBindable at hfunction
  split at hfunction
  · next range f =>
    obtain ⟨c, rfl, hform, hkind⟩ := component_eq_ok hrun
    refine ⟨_, _, c, rfl, by simp [hform], f.kind, rfl, fun _ ↦ ⟨rfl, ?_⟩, fun h ↦ by cases h⟩
    rw [hkind]
    rfl
  · next range f =>
    obtain ⟨c, rfl, hform, hkind⟩ := component_eq_ok hrun
    refine ⟨_, _, c, rfl, by simp [hform], f.kind, rfl, fun h ↦ (by cases h), fun _ ↦ ?_⟩
    rw [hkind]
    rfl
  · cases hfunction

/-- What is neither an arrow function nor a function expression is not even looked at. -/
theorem componentDeclarator?_represents {keyword : Bytes} {d : Declarator Node}
    {d' : Declarator View} (hinit : d.init = some function)
    (hrun : l.componentDeclarator? keyword d s = (.ok (some d'), t)) :
    ∃ line column c, d'.init = some (.rendered line column (.component c)) ∧
      c.Represents function := by
  cases hname : d.target.name? with
  | none =>
    simp only [componentDeclarator?, hname] at hrun
    cases hrun
  | some name =>
    simp only [componentDeclarator?, hname, hinit] at hrun
    change (if (!isBindable function) = true then (pure none : Lower _) else _) s = _ at hrun
    cases hfunction : isBindable function with
    | false =>
      rw [hfunction] at hrun
      cases hrun
    | true =>
      simp only [hfunction, Bool.not_true, Bool.false_eq_true, if_false] at hrun
      obtain ⟨detected, _, -, hrun⟩ := bind_eq_ok.mp hrun
      cases detected with
      | none => cases hrun
      | some detection =>
        obtain ⟨_, _, -, hrun⟩ := bind_eq_ok.mp hrun
        obtain ⟨value, _, hvalue, hrun⟩ := bind_eq_ok.mp hrun
        obtain ⟨target, _, -, hrun⟩ := bind_eq_ok.mp hrun
        cases hrun
        obtain ⟨line, column, c, rfl, hc⟩ := boundComponent_represents hfunction hvalue
        exact ⟨line, column, c, rfl, hc⟩

theorem plainDeclarator_init {keyword : Bytes} {d : Declarator Node} {d' : Declarator View}
    (hrun : l.plainDeclarator keyword d s = (.ok d', t)) :
    ∃ before after, l.optionalExpression d.init before = (.ok d'.init, after) := by
  obtain ⟨signals, _, -, hrun⟩ := bind_eq_ok.mp hrun
  have hparts {before : LoweringState} (hrun : (do
      let target ← l.expression d.target
      let init ← l.optionalExpression d.init
      return ({ target := target, type := d.type, init := init, definite := d.definite } :
        Declarator View)) before = (.ok d', t)) :
      ∃ before after, l.optionalExpression d.init before = (.ok d'.init, after) := by
    obtain ⟨target, _, -, hrun⟩ := bind_eq_ok.mp hrun
    obtain ⟨init, _, hinit, hrun⟩ := bind_eq_ok.mp hrun
    cases hrun
    exact ⟨_, _, hinit⟩
  split at hrun
  · obtain ⟨_, _, -, hrun⟩ := bind_eq_ok.mp hrun
    exact hparts hrun
  · exact hparts hrun

/-- A function that is the value of a declarator stays plain, or becomes a component of its kind. -/
theorem declarator_represents (hl : l.KeepsPlain) {keyword : Bytes} {d : Declarator Node}
    {d' : Declarator View} (hinit : d.init = some function)
    (hfunction : function.functionKind?.isSome)
    (hvalue : d'.init = some (.rendered line column (.component c)))
    (hrun : l.declarator true keyword d s = (.ok d', t)) : c.Represents function := by
  obtain ⟨component, _, hcomponent, hrun⟩ := bind_eq_ok.mp hrun
  cases component with
  | some declarator =>
    cases hrun
    obtain ⟨_, _, c', hinit', hc'⟩ := componentDeclarator?_represents hinit hcomponent
    cases hvalue.symm.trans hinit'
    exact hc'
  | none =>
    obtain ⟨before, after, hrun⟩ := plainDeclarator_init hrun
    rw [hinit, hvalue] at hrun
    obtain ⟨value, _, hexpression, hrun⟩ := bind_eq_ok.mp hrun
    cases hrun
    obtain ⟨range, form, rfl⟩ := Node.eq_plain_of_functionKind? hfunction
    obtain ⟨_, _, _, hplain⟩ := hl hexpression
    cases hplain

theorem functionDeclaration_represents
    (hrun : l.functionDeclaration true (.plain range (.functionDeclaration f isDeclare)) f
      isDeclare s = (.ok (.rendered line column (.component c)), t)) :
    c.Represents (.plain range (.functionDeclaration f isDeclare)) := by
  have hplain {before : LoweringState} (hrun : l.plainFunction range.start.line range.start.column f
      isDeclare before = (.ok (.rendered line column (.component c)), t)) : False := by
    obtain ⟨_, _, -, hrun⟩ := bind_eq_ok.mp hrun
    obtain ⟨_, _, -, hrun⟩ := bind_eq_ok.mp hrun
    cases hrun
  unfold functionDeclaration at hrun
  dsimp only at hrun
  split at hrun
  · next hmay =>
    obtain ⟨detected, _, -, hrun⟩ := bind_eq_ok.mp hrun
    cases detected with
    | none => exact absurd hrun hplain
    | some detection =>
      have hf : f.isGenerator = false := by simp_all
      obtain ⟨_, _, c', hc, hrepresents⟩ := declaredComponent_represents hf hrun
      cases hc
      exact hrepresents
  · exact absurd hrun hplain

/-- Whatever item a function is part of, the component in its place has its kind, or what a function
expression keeps of it. -/
theorem Converts.represents (hl : l.KeepsPlain) (h : Converts item view function c)
    (hrun : l.moduleItem item s = (.ok view, t)) : c.Represents function := by
  induction h generalizing s t with
  | declaration =>
    rw [moduleItem] at hrun
    exact functionDeclaration_represents hrun
  | declarator hd hinit hfunction hvalue =>
    rw [moduleItem] at hrun
    obtain ⟨form, _, hform, hrun⟩ := bind_eq_ok.mp hrun
    obtain ⟨lowered, _, hlowered, hform⟩ := bind_eq_ok.mp hform
    cases hform
    cases hrun
    obtain ⟨before, after, hrun⟩ :=
      (List.forall₂_iff_zip.mp (forall₂_of_mapM hlowered)).2 hd
    exact declarator_represents hl hinit hfunction hvalue hrun
  | exportNamed h ih =>
    rw [moduleItem] at hrun
    obtain ⟨lowered, _, hlowered, hrun⟩ := bind_eq_ok.mp hrun
    obtain ⟨_, _, ⟨⟩, hrun⟩ := bind_eq_ok.mp hrun
    obtain ⟨_, _, -, hrun⟩ := bind_eq_ok.mp hrun
    cases hrun
    exact ih hlowered
  | exportDefault h ih =>
    rw [moduleItem] at hrun
    obtain ⟨lowered, _, hlowered, hrun⟩ := bind_eq_ok.mp hrun
    cases hrun
    exact ih hlowered

end Lowering

open Lowering Lower

theorem lowering_keepsPlain (runtimeModule : Bytes) (limit : Int) (levels : Nat) :
    (lowering runtimeModule limit levels).KeepsPlain := by
  intro range form s view t hrun
  cases levels with
  | zero => cases hrun
  | succ levels =>
    obtain ⟨form', _, -, hrun⟩ := bind_eq_ok.mp hrun
    cases hrun
    exact ⟨_, _, form', rfl⟩

/-- The functions of a module that become components stay what they are: arrow functions are written
as arrow functions and functions as functions, asynchronous or not as before. A declaration is no
generator and keeps its name. A function expression becomes an ordinary function without a name,
which is the kind it had exactly when it was one already. -/
theorem converted_kind_iff {options : ViewProgram.Options} {root item function : Node}
    {program : ViewProgram} {view : View} {c : Component View}
    (hrun : (ViewProgram.ofNode options root).1 = .ok program)
    (hitem : (item, view) ∈ root.children.zip program.body) (h : Converts item view function c) :
    ∃ kind, function.functionKind? = some kind ∧ c.kind.isArrow = kind.isArrow ∧
      c.kind.isAsync = kind.isAsync ∧
      (function.isFunctionExpression = false → kind.isGenerator = false ∧ c.kind = kind) ∧
      (function.isFunctionExpression = true → c.kind.isGenerator = false ∧ c.kind.ownName = [] ∧
        (c.kind = kind ↔ kind.isGenerator = false ∧ kind.ownName = [])) ∧
      ∀ (e : Emission) level s text t, e.componentText c level s = .ok (text, t) →
        ∃ signature before after margin body pad,
          e.signature c.typeParameters c.params c.returnType level before = .ok (signature, after) ∧
            text = c.textWith signature margin body pad := by
  obtain ⟨t, hitems⟩ : ∃ t, ViewProgram.ofItems options root.children {} = (.ok program, t) :=
    ⟨_, Prod.ext hrun rfl⟩
  obtain ⟨body, _, hbody, hitems⟩ := bind_eq_ok.mp hitems
  cases hitems
  obtain ⟨before, after, hlowered⟩ := (List.forall₂_iff_zip.mp (forall₂_of_mapM hbody)).2 hitem
  obtain ⟨hform, kind, hkind, hplain, hexpression⟩ :=
    h.represents (lowering_keepsPlain _ _ _) hlowered
  have hsame : c.kind.isArrow = kind.isArrow ∧ c.kind.isAsync = kind.isAsync := by
    cases hfunction : function.isFunctionExpression with
    | false => simp [(hplain hfunction).2]
    | true => simp [hexpression hfunction, FunctionKind.ordinary]
  refine ⟨kind, hkind, hsame.1, hsame.2, hplain, fun hfunction ↦ ?_, fun e level s text t ↦
    Emission.componentText_head hform⟩
  rw [hexpression hfunction]
  exact ⟨rfl, rfl, FunctionKind.ordinary_eq_iff⟩

/-- The component that the only declarator of a program binds. -/
def ViewProgram.boundComponent? (program : ViewProgram) : Option (Component View) :=
  match program.body with
  | [.plain _ _ (.variableDeclaration _ [{ init := some (.rendered _ _ (.component c)), .. }] _)] =>
    some c
  | _ => none

theorem ViewProgram.body_of_boundComponent? {program : ViewProgram} {c : Component View}
    (h : program.boundComponent? = some c) : ∃ line column keyword d isDeclare line' column',
      program.body = [.plain line column (.variableDeclaration keyword [d] isDeclare)] ∧
        d.init = some (.rendered line' column' (.component c)) := by
  unfold boundComponent? at h
  split at h
  · next hbody =>
    cases h
    exact ⟨_, _, _, _, _, _, _, hbody, rfl⟩
  · cases h

/-- In `const A = function* B() {};` the generator becomes a component, which is no generator and
has no name of its own. -/
theorem converted_kind_iff_generator :
    let generator : Node := .plain {} (.function {
      name := bytes "B", body := some (.plain {} (.block [])), isGenerator := true })
    let item : Node := .plain {} (.variableDeclaration (bytes "const") [{
      target := .plain {} (.identifier (bytes "A")), init := some generator }] false)
    ∃ program view c, (ViewProgram.ofNode {} (.surface {} (.program [item]))).1 = .ok program ∧
      Converts item view generator c ∧ c.kind.isGenerator = false ∧ c.kind.ownName = [] ∧
      ∀ kind, generator.functionKind? = some kind → c.kind ≠ kind := by
  intro generator item
  have hbound : ((ViewProgram.ofNode {} (.surface {} (.program [item]))).1.toOption.bind
      ViewProgram.boundComponent?).isSome = true := by decide +kernel
  obtain ⟨c, hc⟩ := Option.isSome_iff_exists.mp hbound
  obtain ⟨program, hprogram, hc⟩ := Option.bind_eq_some_iff.mp hc
  have hrun : (ViewProgram.ofNode {} (.surface {} (.program [item]))).1 = .ok program := by
    cases hresult : (ViewProgram.ofNode {} (.surface {} (.program [item]))).1 with
    | error failure => simp [hresult, Except.toOption] at hprogram
    | ok result => simpa [hresult, Except.toOption] using hprogram
  obtain ⟨line, column, keyword, d, isDeclare, line', column', hbody, hinit⟩ :=
    ViewProgram.body_of_boundComponent? hc
  let view : View := .plain line column (.variableDeclaration keyword [d] isDeclare)
  have h : Converts item view generator c := .declarator (List.mem_singleton_self _) rfl rfl hinit
  have hmem : (item, view) ∈ [item].zip program.body := by
    rw [hbody]
    exact List.mem_singleton_self _
  obtain ⟨_, ⟨⟩, -, -, -, hexpression, -⟩ := converted_kind_iff hrun hmem h
  obtain ⟨hgenerator, hname, hiff⟩ := hexpression rfl
  refine ⟨program, view, c, hrun, h, hgenerator, hname, ?_⟩
  rintro _ ⟨⟩ heq
  cases (hiff.mp heq).1

end SignalView
