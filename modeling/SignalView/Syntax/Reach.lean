import SignalView.Syntax.Node

/-!
# Descendants

Every part of a node is smaller than the node. This makes the walk over all descendants of a node a
total function, on which the searches of the analyses are built.
-/

namespace SignalView

/-! ## Parts are smaller than the whole -/

section Sizes

variable {α : Type} [SizeOf α] {a : α}

theorem sizeOf_lt_of_mem_toList {o : Option α} (h : a ∈ o.toList) : sizeOf a < sizeOf o := by
  cases o with
  | none => simp at h
  | some b => simp_all

theorem sizeOf_lt_of_mem_getD {o : Option (List α)} (h : a ∈ o.getD []) :
    sizeOf a < sizeOf o := by
  cases o with
  | none => simp at h
  | some list =>
    simp only [Option.getD_some] at h
    have := List.sizeOf_lt_of_mem h
    simp
    omega

theorem sizeOf_lt_of_mem_flatMap {β : Type} [SizeOf β] {parts : β → List α} {list : List β}
    (smaller : ∀ b, a ∈ parts b → sizeOf a < sizeOf b) (h : a ∈ list.flatMap parts) :
    sizeOf a < sizeOf list := by
  obtain ⟨b, hb, ha⟩ := List.mem_flatMap.1 h
  have := List.sizeOf_lt_of_mem hb
  have := smaller b ha
  omega

theorem Param.sizeOf_lt {p : Param α} (h : a ∈ p.children) : sizeOf a < sizeOf p := by
  cases p
  simp only [Param.children, List.mem_append] at h
  simp only [Param.mk.sizeOf_spec]
  rcases h with (h | h) | h
  · have := List.sizeOf_lt_of_mem h; omega
  · have := sizeOf_lt_of_mem_toList h; omega
  · have := sizeOf_lt_of_mem_toList h; omega

theorem Callable.sizeOf_lt {f : Callable α} (h : a ∈ f.children) : sizeOf a < sizeOf f := by
  cases f
  simp only [Callable.children, List.mem_append] at h
  simp only [Callable.mk.sizeOf_spec]
  rcases h with h | h
  · have := sizeOf_lt_of_mem_flatMap (fun _ ↦ Param.sizeOf_lt) h; omega
  · have := sizeOf_lt_of_mem_toList h; omega

theorem Arrow.sizeOf_lt {f : Arrow α} (h : a ∈ f.children) : sizeOf a < sizeOf f := by
  obtain ⟨_, _, _, body, _⟩ := f
  simp only [Arrow.children, List.mem_append, List.mem_singleton] at h
  simp only [Arrow.mk.sizeOf_spec]
  rcases h with h | h
  · have := sizeOf_lt_of_mem_flatMap (fun _ ↦ Param.sizeOf_lt) h; omega
  · cases body <;> simp_all [ArrowBody.node] <;> omega

theorem Property.sizeOf_lt {p : Property α} (h : a ∈ p.children) : sizeOf a < sizeOf p := by
  obtain ⟨_, _, computed, _⟩ := p
  simp only [Property.children, List.mem_append] at h
  simp only [Property.mk.sizeOf_spec]
  rcases h with h | h
  · split at h
    · have := sizeOf_lt_of_mem_toList h; omega
    · simp at h
  · have := sizeOf_lt_of_mem_toList h; omega

theorem MemberKey.sizeOf_lt {k : MemberKey α} (h : a ∈ k.children) : sizeOf a < sizeOf k := by
  cases k <;> simp_all [MemberKey.children]

theorem ClassMember.sizeOf_lt {m : ClassMember α} (h : a ∈ m.children) :
    sizeOf a < sizeOf m := by
  cases m
  simp only [ClassMember.children, List.mem_append] at h
  simp only [ClassMember.mk.sizeOf_spec]
  rcases h with ((h | h) | h) | h
  · have := List.sizeOf_lt_of_mem h; omega
  · split at h
    · have := sizeOf_lt_of_mem_toList h; omega
    · simp at h
  · have := sizeOf_lt_of_mem_toList h; omega
  · have := sizeOf_lt_of_mem_toList h; omega

theorem ClassShape.sizeOf_lt {c : ClassShape α} (h : a ∈ c.children) : sizeOf a < sizeOf c := by
  cases c
  simp only [ClassShape.children, List.mem_append] at h
  simp only [ClassShape.mk.sizeOf_spec]
  rcases h with (h | h) | h
  · have := List.sizeOf_lt_of_mem h; omega
  · have := sizeOf_lt_of_mem_toList h; omega
  · have := sizeOf_lt_of_mem_flatMap (fun _ ↦ ClassMember.sizeOf_lt) h; omega

theorem Declarator.sizeOf_lt {d : Declarator α} (h : a ∈ d.children) : sizeOf a < sizeOf d := by
  cases d
  simp only [Declarator.children, List.mem_cons] at h
  simp only [Declarator.mk.sizeOf_spec]
  rcases h with rfl | h
  · omega
  · have := sizeOf_lt_of_mem_toList h; omega

theorem SwitchCase.sizeOf_lt {c : SwitchCase α} (h : a ∈ c.children) : sizeOf a < sizeOf c := by
  cases c
  simp only [SwitchCase.children, List.mem_append] at h
  simp only [SwitchCase.mk.sizeOf_spec]
  rcases h with h | h
  · have := sizeOf_lt_of_mem_toList h; omega
  · have := List.sizeOf_lt_of_mem h; omega

theorem TryShape.sizeOf_lt {t : TryShape α} (h : a ∈ t.children) : sizeOf a < sizeOf t := by
  cases t
  simp only [TryShape.children, List.cons_append, List.mem_cons, List.mem_append] at h
  simp only [TryShape.mk.sizeOf_spec]
  rcases h with rfl | (h | h) | h
  · omega
  · have := sizeOf_lt_of_mem_toList h; omega
  · have := sizeOf_lt_of_mem_toList h; omega
  · have := sizeOf_lt_of_mem_toList h; omega

theorem EnumMember.sizeOf_lt {m : EnumMember α} (h : a ∈ m.init.toList) :
    sizeOf a < sizeOf m := by
  cases m
  have := sizeOf_lt_of_mem_toList h
  simp only [EnumMember.mk.sizeOf_spec] at *
  omega

theorem DefaultExport.sizeOf_lt (e : DefaultExport α) : sizeOf e.node < sizeOf e := by
  cases e <;> simp [DefaultExport.node]

theorem Plain.sizeOf_lt {form : Plain α} (h : a ∈ form.children) : sizeOf a < sizeOf form := by
  cases form with
  | identifier _ | number _ _ | string _ | regex _ | boolean _ | null | this | super | omitted
  | jump _ _ | empty | debugger | interface _ _ _ _ _ | typeAlias _ _ _ _ | imports _
  | exportAll _ _ _ => simp [Plain.children] at h
  | unary _ _ _ | await _ | spread _ | paren _ | cast _ _ _ | nonNull _ | expressionStatement _
  | throw _ | labeled _ _ | taggedTemplate _ _ _ | binary _ _ _ | assignment _ _ _
  | conditional _ _ _ | assignmentPattern _ _ | forIn _ _ _ _ _ | whileLoop _ _ | doWhile _ _ =>
    simp only [Plain.children, List.mem_cons, List.not_mem_nil, or_false] at h
    rcases h with rfl | rfl | rfl <;> simp <;> omega
  | template _ _ | array _ | sequence _ | block _ =>
    simp only [Plain.children] at h
    have := List.sizeOf_lt_of_mem h
    simp
    omega
  | object _ =>
    have := sizeOf_lt_of_mem_flatMap (fun _ ↦ Property.sizeOf_lt) h
    simp
    omega
  | variableDeclaration _ _ _ =>
    have := sizeOf_lt_of_mem_flatMap (fun _ ↦ Declarator.sizeOf_lt) h
    simp
    omega
  | enum _ _ _ _ =>
    have := sizeOf_lt_of_mem_flatMap (fun _ ↦ EnumMember.sizeOf_lt) h
    simp
    omega
  | function f =>
    have : sizeOf a < sizeOf f := Callable.sizeOf_lt h
    simp
    omega
  | functionDeclaration f _ =>
    have : sizeOf a < sizeOf f := Callable.sizeOf_lt h
    simp
    omega
  | arrow f =>
    have : sizeOf a < sizeOf f := Arrow.sizeOf_lt h
    simp
    omega
  | tryCatch t =>
    have : sizeOf a < sizeOf t := TryShape.sizeOf_lt h
    simp
    omega
  | classDeclaration c =>
    have : sizeOf a < sizeOf c := ClassShape.sizeOf_lt h
    simp
    omega
  | yield _ _ | returnValue _ | exportNamed _ _ _ _ =>
    have := sizeOf_lt_of_mem_toList h
    simp
    omega
  | module _ _ _ _ =>
    have := sizeOf_lt_of_mem_getD h
    simp
    omega
  | exportDefault value =>
    have := DefaultExport.sizeOf_lt value
    simp only [Plain.children, List.mem_singleton] at h
    subst h
    simp
    omega
  | call _ _ _ _ =>
    simp only [Plain.children, List.mem_cons] at h
    rcases h with rfl | h
    · simp; omega
    · have := List.sizeOf_lt_of_mem h
      simp
      omega
  | new _ _ _ =>
    simp only [Plain.children, List.mem_cons] at h
    rcases h with rfl | h
    · simp; omega
    · have := sizeOf_lt_of_mem_getD h
      simp
      omega
  | member _ _ _ =>
    simp only [Plain.children, List.mem_cons] at h
    rcases h with rfl | h
    · simp; omega
    · have := MemberKey.sizeOf_lt h
      simp
      omega
  | ifElse _ _ _ =>
    simp only [Plain.children, List.mem_cons] at h
    rcases h with rfl | rfl | h
    · simp; omega
    · simp; omega
    · have := sizeOf_lt_of_mem_toList h
      simp
      omega
  | switch _ _ =>
    simp only [Plain.children, List.mem_cons] at h
    rcases h with rfl | h
    · simp; omega
    · have := sizeOf_lt_of_mem_flatMap (fun _ ↦ SwitchCase.sizeOf_lt) h
      simp
      omega
  | forLoop _ _ _ _ =>
    simp only [Plain.children, List.mem_append, List.mem_singleton] at h
    rcases h with ((h | h) | h) | rfl
    · have := sizeOf_lt_of_mem_toList h
      simp
      omega
    · have := sizeOf_lt_of_mem_toList h
      simp
      omega
    · have := sizeOf_lt_of_mem_toList h
      simp
      omega
    · simp only [Plain.forLoop.sizeOf_spec]
      omega

theorem Surface.sizeOf_lt {form : Surface α} (h : a ∈ form.children) :
    sizeOf a < sizeOf form := by
  cases form with
  | text _ _ => simp [Surface.children] at h
  | classExpression _ =>
    simp only [Surface.children, List.mem_singleton] at h
    simp [h]
  | program _ | fragment _ =>
    simp only [Surface.children] at h
    have := List.sizeOf_lt_of_mem h
    simp
    omega
  | component f =>
    have : sizeOf a < sizeOf f := Callable.sizeOf_lt h
    simp
    omega
  | element _ _ _ _ =>
    simp only [Surface.children, List.mem_append] at h
    rcases h with h | h
    · have := List.sizeOf_lt_of_mem h
      simp
      omega
    · have := List.sizeOf_lt_of_mem h
      simp
      omega
  | container _ | attr _ _ _ =>
    have := sizeOf_lt_of_mem_toList h
    simp
    omega

end Sizes

theorem Node.sizeOf_lt_of_mem_children {child node : Node} (h : child ∈ node.children) :
    sizeOf child < sizeOf node := by
  cases node with
  | plain _ form =>
    have : sizeOf child < sizeOf form := Plain.sizeOf_lt h
    simp
    omega
  | surface _ form =>
    have : sizeOf child < sizeOf form := Surface.sizeOf_lt h
    simp
    omega

/-! ## The walk -/

/-- A node met on a walk, and whether it stands where a callback does: as an argument, an element
of an array, a property value or a spread, with any parentheses around it. -/
structure Visit where
  node : Node
  isCallback : Bool

namespace Node

/-- Whether the part of a node at an index stands where a callback does. Parentheses pass on where
they stand themselves; what a call calls is not one of its arguments. -/
def callbackPlace (outer : Bool) (parent : Node) (index : Nat) : Bool :=
  match parent with
  | .plain _ (.paren _) => outer
  | .plain _ (.call _ _ _ _) | .plain _ (.new _ _ _) => index != 0
  | .plain _ (.array _) | .plain _ (.object _) | .plain _ (.spread _) => true
  | _ => false

/-- The descendants of a node in the order of the source, each before its own; those below a node
that is not to be entered are left out. -/
def reach (enter : Node → Bool) (isCallback : Bool) (node : Node) : List Visit :=
  node.children.attach.zipIdx.flatMap fun (⟨child, _⟩, index) ↦
    let place := callbackPlace isCallback node index
    ⟨child, place⟩ :: if enter child then reach enter place child else []
termination_by sizeOf node
decreasing_by exact sizeOf_lt_of_mem_children ‹_›

/-- All descendants. -/
def descendants (node : Node) : List Node := (node.reach (fun _ ↦ true) false).map (·.node)

/-- The descendants that belong to the function a node is in: nested functions are met, but not
entered. -/
def ownDescendants (node : Node) : List Node :=
  (node.reach (!·.isFunctionLike) false).map (·.node)

/-- The number of nodes of a tree. -/
def count (node : Node) : Nat := node.descendants.length + 1

end Node

end SignalView
