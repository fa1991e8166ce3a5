import SignalView.Syntax.Reach

/-!
# Types in a tree

The texts of types that a tree holds: annotations and return types, type parameters and arguments,
what classes and interfaces extend, the members of interfaces, index signatures, aliases and casts.
-/

namespace SignalView

/-! ## Types of a construct -/

section Texts

variable {α : Type}

def Callable.typeTexts (f : Callable α) : List Bytes :=
  f.typeParameters :: f.returnType :: f.params.map (·.type)

def Arrow.typeTexts (f : Arrow α) : List Bytes :=
  f.typeParameters :: f.returnType :: f.params.map (·.type)

def ClassShape.typeTexts (c : ClassShape α) : List Bytes :=
  c.typeParameters :: c.superTypeArguments ++ c.implemented ++ c.members.map (·.type)

/-- The types that a construct holds itself; what is missing is an empty text. -/
def Plain.typeTexts : Plain α → List Bytes
  | .taggedTemplate _ typeArguments _ | .call _ typeArguments _ _ | .new _ typeArguments _ =>
    typeArguments
  | .function f | .functionDeclaration f _ => f.typeTexts
  | .arrow f => f.typeTexts
  | .cast _ type _ => [type]
  | .variableDeclaration _ declarators _ => declarators.map (·.type)
  | .tryCatch t => [t.paramType]
  | .classDeclaration c => c.typeTexts
  | .interface _ typeParameters extended members _ => typeParameters :: extended ++ members
  | .typeAlias _ typeParameters type _ => [typeParameters, type]
  | _ => []

def Surface.typeTexts : Surface α → List Bytes
  | .component f => f.typeTexts
  | _ => []

end Texts

namespace Node

def typeTexts : Node → List Bytes
  | .plain _ form => form.typeTexts
  | .surface _ form => form.typeTexts

/-! ## Types of a tree -/

/-- All types in a node are of a kind. -/
inductive Typed (T : Bytes → Prop) : Node → Prop
  | mk {node : Node} (own : ∀ text ∈ node.typeTexts, T text)
    (parts : ∀ child ∈ node.children, Typed T child) : Typed T node

variable {T : Bytes → Prop} {node : Node}

theorem Typed.plain {range : Range} {form : Plain Node} (own : ∀ text ∈ form.typeTexts, T text)
    (parts : ∀ child ∈ form.children, child.Typed T) : (Node.plain range form).Typed T :=
  .mk own parts

theorem Typed.surface {range : Range} {form : Surface Node} (own : ∀ text ∈ form.typeTexts, T text)
    (parts : ∀ child ∈ form.children, child.Typed T) : (Node.surface range form).Typed T :=
  .mk own parts

/-- A construct that holds no types itself. -/
theorem Typed.of_parts {range : Range} {form : Plain Node} (hown : form.typeTexts = [])
    (parts : ∀ child ∈ form.children, child.Typed T) : (Node.plain range form).Typed T :=
  .plain (hown ▸ List.forall_mem_nil _) parts

theorem Typed.of_surface_parts {range : Range} {form : Surface Node} (hown : form.typeTexts = [])
    (parts : ∀ child ∈ form.children, child.Typed T) : (Node.surface range form).Typed T :=
  .surface (hown ▸ List.forall_mem_nil _) parts

/-- A construct without types and without parts. -/
theorem Typed.leaf {range : Range} {form : Plain Node} (hown : form.typeTexts = [])
    (hparts : form.children = []) : (Node.plain range form).Typed T :=
  .of_parts hown (hparts ▸ List.forall_mem_nil _)

theorem Typed.own (h : node.Typed T) : ∀ text ∈ node.typeTexts, T text := by
  cases h with
  | mk own parts => exact own

theorem Typed.parts (h : node.Typed T) : ∀ child ∈ node.children, child.Typed T := by
  cases h with
  | mk own parts => exact parts

theorem Typed.startingAt (h : node.Typed T) (start : Position) :
    (node.startingAt start).Typed T := by
  cases node with
  | plain | surface => exact ⟨h.own, h.parts⟩

theorem Typed.reach (h : node.Typed T) (enter : Node → Bool) (isCallback : Bool) :
    ∀ visit ∈ node.reach enter isCallback, visit.node.Typed T := by
  induction h generalizing isCallback with
  | @mk node own parts ih =>
    rw [Node.reach]
    simp only [List.mem_flatMap, Prod.exists]
    rintro visit ⟨⟨child, hchild⟩, index, -, hvisit⟩
    rcases List.mem_cons.mp hvisit with rfl | hvisit
    · exact parts child hchild
    · split at hvisit
      · exact ih child hchild _ visit hvisit
      · cases hvisit

theorem Typed.descendants (h : node.Typed T) : ∀ inner ∈ node.descendants, inner.Typed T :=
  List.forall_mem_map.mpr (h.reach _ _)

end Node

/-! ## Types of parts -/

section Parts

variable (T : Bytes → Prop)

/-- All types in a parameter are of a kind. -/
def Param.Typed (p : Param Node) : Prop := T p.type ∧ ∀ child ∈ p.children, child.Typed T

def Callable.Typed (f : Callable Node) : Prop :=
  (∀ text ∈ f.typeTexts, T text) ∧ ∀ child ∈ f.children, child.Typed T

def ClassMember.Typed (m : ClassMember Node) : Prop :=
  T m.type ∧ ∀ child ∈ m.children, child.Typed T

def Declarator.Typed (d : Declarator Node) : Prop := T d.type ∧ ∀ child ∈ d.children, child.Typed T

end Parts

end SignalView
