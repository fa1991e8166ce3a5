import SignalView.Proofs.Syntax.Parts

/-!
# Nesting

How deeply constructs are nested, when those that are part of a chain do not count: operators
without parentheses between them, the receivers of members and calls, what is constructed, the class
that a class extends, decorators, and patterns within patterns. A class expression and its class are
one construct, and so are a method and its function.
-/

namespace SignalView

/-! ## Branches -/

/-- A part of a construct, whether it counts as nested in it, and whether it is a pattern. -/
structure Branch where
  part : Node
  isCounted : Bool
  isPattern : Bool

namespace Branch

def counted (parts : List Node) : List Branch := parts.map (⟨·, true, false⟩)

def chained (parts : List Node) : List Branch := parts.map (⟨·, false, false⟩)

def patterns (parts : List Node) : List Branch := parts.map (⟨·, true, true⟩)

def subpatterns (parts : List Node) : List Branch := parts.map (⟨·, false, true⟩)

end Branch

open Branch Slot

def Param.branches (p : Param Node) : List Branch :=
  chained p.decorators ++ patterns p.pattern.toList ++ counted p.initial.toList

def Callable.branches (f : Callable Node) : List Branch :=
  f.params.flatMap (·.branches) ++ counted f.body.toList

def Arrow.branches (f : Arrow Node) : List Branch :=
  f.params.flatMap (·.branches) ++ counted [f.body.node]

/-- The value of a property, in a pattern or elsewhere. -/
def Property.valueBranches (inPattern : Bool) (p : Property Node) : List Branch :=
  if inPattern then subpatterns p.value.toList
  else
    match p.kind with
    | .method | .getter | .setter => chained p.value.toList
    | .init | .shorthand | .spread => counted p.value.toList

def Property.branches (inPattern : Bool) (p : Property Node) : List Branch :=
  counted p.key.toList ++ p.valueBranches inPattern

def ClassMember.branches (m : ClassMember Node) : List Branch :=
  chained m.decorators ++ counted m.key.toList ++
    (if m.kind = .property then counted m.value.toList else chained m.value.toList) ++
    counted m.block.toList

def ClassShape.branches (c : ClassShape Node) : List Branch :=
  chained c.decorators ++ chained c.superClass.toList ++ c.members.flatMap (·.branches)

def Declarator.branches (d : Declarator Node) : List Branch :=
  patterns [d.target] ++ counted d.init.toList

def TryShape.branches (t : TryShape Node) : List Branch :=
  counted [t.block] ++ patterns t.param.toList ++ counted t.handler.toList ++
    counted t.finalizer.toList

/-- Whether the node is a binary operator with its operands, or a cast. -/
def Node.isOperation : Node → Bool
  | .plain _ (.binary _ _ _) | .plain _ (.cast _ _ _) => true
  | _ => false

namespace Plain

def branches (inPattern : Bool) : Plain Node → List Branch
  | .taggedTemplate tag _ quasi => chained [tag] ++ counted [quasi]
  | .array elements => if inPattern then subpatterns elements else counted elements
  | .object properties => properties.flatMap (·.branches inPattern)
  | .function f | .functionDeclaration f _ => f.branches
  | .arrow f => f.branches
  | .binary _ left right =>
    chained [left] ++ if right.isOperation then chained [right] else counted [right]
  | .call callee _ args _ => chained [callee] ++ counted args
  | .new callee _ args => chained [callee] ++ counted (args.getD [])
  | .member receiver key _ => chained [receiver] ++ counted key.children
  | .spread argument => if inPattern then subpatterns [argument] else counted [argument]
  | .cast inner _ _ => chained [inner]
  | .nonNull inner => chained [inner]
  | .assignmentPattern target initial =>
    (if inPattern then subpatterns [target] else counted [target]) ++ counted [initial]
  | .variableDeclaration _ declarators _ => declarators.flatMap (·.branches)
  | .tryCatch t => t.branches
  | .classDeclaration c => c.branches
  | form => counted form.children

end Plain

namespace Surface

def branches : Surface Node → List Branch
  | .classExpression declaration => chained [declaration]
  | .component f => f.branches
  | form => counted form.children

end Surface

section Parts

variable {place : Place} {child : Node} {parts : List Node}

@[simp]
theorem Branch.map_part_counted : (counted parts).map part = parts := by
  simp [counted, Function.comp_def]

@[simp]
theorem Branch.map_part_chained : (chained parts).map part = parts := by
  simp [chained, Function.comp_def]

@[simp]
theorem Branch.map_part_patterns : (patterns parts).map part = parts := by
  simp [patterns, Function.comp_def]

@[simp]
theorem Branch.map_part_subpatterns : (subpatterns parts).map part = parts := by
  simp [subpatterns, Function.comp_def]

@[simp]
theorem Param.map_part_branches (p : Param Node) : p.branches.map part = p.children := by
  simp [Param.branches, Param.children]

@[simp]
theorem Callable.map_part_branches (f : Callable Node) : f.branches.map part = f.children := by
  simp [Callable.branches, Callable.children, List.map_flatMap]

@[simp]
theorem Arrow.map_part_branches (f : Arrow Node) : f.branches.map part = f.children := by
  simp [Arrow.branches, Arrow.children, List.map_flatMap]

theorem Property.mem_branches {p : Property Node} (h : ⟨place, some child⟩ ∈ p.slots)
    (inPattern : Bool) : child ∈ (p.branches inPattern).map part := by
  have hvalue : (p.valueBranches inPattern).map part = p.value.toList := by
    unfold valueBranches
    split
    · exact map_part_subpatterns
    · split
      · exact map_part_chained
      · exact map_part_chained
      · exact map_part_chained
      · exact map_part_counted
      · exact map_part_counted
      · exact map_part_counted
  simp only [slots, List.mem_append, mem_held] at h
  simp only [branches, List.map_append, map_part_counted, hvalue, List.mem_append,
    Option.mem_toList]
  exact h.imp And.right And.right

theorem ClassMember.mem_branches {m : ClassMember Node} (h : ⟨place, some child⟩ ∈ m.slots) :
    child ∈ m.branches.map part := by
  have hvalue : (if m.kind = .property then counted m.value.toList
      else chained m.value.toList).map part = m.value.toList := by
    split
    · exact map_part_counted
    · exact map_part_chained
  simp only [slots, List.mem_append, mem_filled, mem_held] at h
  simp only [branches, List.map_append, map_part_chained, map_part_counted, hvalue, List.mem_append,
    Option.mem_toList]
  exact h.imp (Or.imp (Or.imp And.right And.right) And.right) And.right

theorem ClassShape.mem_branches {c : ClassShape Node} (h : ⟨place, some child⟩ ∈ c.slots) :
    child ∈ c.branches.map part := by
  simp only [slots, List.mem_append, mem_filled, List.mem_flatMap, Option.mem_toList] at h
  simp only [branches, List.map_append, map_part_chained, List.map_flatMap, List.mem_append,
    List.mem_flatMap, Option.mem_toList]
  obtain (⟨-, hdecorator⟩ | ⟨-, hsuper⟩) | ⟨m, hm, hslot⟩ := h
  · exact .inl (.inl hdecorator)
  · exact .inl (.inr hsuper)
  · exact .inr ⟨m, hm, m.mem_branches hslot⟩

/-- Whatever stands in a construct is entered from it. -/
theorem Plain.mem_branches {form : Plain Node} (h : ⟨place, some child⟩ ∈ form.slots)
    (inPattern : Bool) : child ∈ (form.branches inPattern).map part := by
  cases form with
  | object properties =>
    obtain ⟨p, hp, hslot⟩ := List.mem_flatMap.mp h
    simp only [branches, List.map_flatMap, List.mem_flatMap]
    exact ⟨p, hp, p.mem_branches hslot inPattern⟩
  | function f | functionDeclaration f => simpa [branches] using f.mem_children h
  | arrow f => simpa [branches] using f.mem_children h
  | classDeclaration c => exact c.mem_branches h
  | binary op left right => 
    obtain ⟨-, hchild⟩ : place = .expression ∧ (child = left ∨ child = right) := by
      simpa [slots] using h
    cases hright : right.isOperation <;> simpa [branches, hright] using hchild
  | variableDeclaration keyword declarators isDeclare =>
    simp_all [slots, branches, Declarator.slots, Declarator.branches, List.map_flatMap]
    grind
  | tryCatch t =>
    simp_all [slots, branches, TryShape.slots, TryShape.branches]
    grind
  | array | spread | assignmentPattern =>
    cases inPattern <;> simp_all [slots, branches]
  | member receiver key optional =>
    cases key <;> simp_all [slots, branches, MemberKey.slots, MemberKey.children]
    grind
  | taggedTemplate | call | new | cast | nonNull => simp_all [slots, branches]
  | exportDefault value =>
    cases value <;> simp_all [slots, branches, children, DefaultExport.slots, DefaultExport.node]
  | switch | enum =>
    simp_all [slots, branches, children, SwitchCase.slots, SwitchCase.children]
    grind
  | forLoop | forIn | whileLoop | doWhile | ifElse =>
    simp_all [slots, branches, children]
    grind
  | _ => simp_all [slots, branches, children]

theorem Surface.mem_branches {form : Surface Node} (h : ⟨place, some child⟩ ∈ form.slots) :
    child ∈ form.branches.map part := by
  have hchild := form.mem_children h
  cases form with
  | component f => simpa [branches, children] using hchild
  | text => simp [children] at hchild
  | _ => simpa [branches, children] using hchild


end Parts

/-! ## Paths -/

namespace Node

/-- A way from a node down to another one, and how many of the nodes on it count. -/
inductive Path : Bool → Node → Nat → Node → Prop
  | here (inPattern : Bool) (node : Node) : Path inPattern node 1 node
  | plain {inPattern : Bool} {range : Range} {form : Plain Node} {branch : Branch} {count : Nat}
      {inner : Node} (hbranch : branch ∈ form.branches inPattern)
      (h : Path branch.isPattern branch.part count inner) :
      Path inPattern (.plain range form) (count + branch.isCounted.toNat) inner
  | surface {inPattern : Bool} {range : Range} {form : Surface Node} {branch : Branch} {count : Nat}
      {inner : Node} (hbranch : branch ∈ form.branches)
      (h : Path branch.isPattern branch.part count inner) :
      Path inPattern (.surface range form) (count + branch.isCounted.toNat) inner

/-- On every way down from the node there are at most some nodes that count. -/
def Nested (inPattern : Bool) (n : Nat) (node : Node) : Prop :=
  ∀ ⦃count inner⦄, node.Path inPattern count inner → count ≤ n

end Node

/-- The part is not too deeply nested for a construct with at most some nodes on each way down. -/
def Branch.Within (n : Nat) (branch : Branch) : Prop :=
  branch.part.Nested branch.isPattern (n - branch.isCounted.toNat)

/-- None of some parts is too deeply nested for a construct. -/
def BranchesWithin (n : Nat) (branches : List Branch) : Prop := ∀ branch ∈ branches, branch.Within n

namespace BranchesWithin

variable {α : Type} {n : Nat} {parts : List Node}

@[simp]
theorem nil : BranchesWithin n [] := List.forall_mem_nil _

@[simp]
theorem append_iff {branches others : List Branch} :
    BranchesWithin n (branches ++ others) ↔ BranchesWithin n branches ∧ BranchesWithin n others :=
  List.forall_mem_append

@[simp]
theorem flatMap_iff {items : List α} {branches : α → List Branch} :
    BranchesWithin n (items.flatMap branches) ↔ ∀ item ∈ items, BranchesWithin n (branches item) :=
  List.forall_mem_flatMap

@[simp]
theorem counted_iff :
    BranchesWithin n (counted parts) ↔ ∀ part ∈ parts, part.Nested false (n - 1) := by
  simp [BranchesWithin, counted, Branch.Within]

@[simp]
theorem chained_iff :
    BranchesWithin n (chained parts) ↔ ∀ part ∈ parts, part.Nested false n := by
  simp [BranchesWithin, chained, Branch.Within]

@[simp]
theorem patterns_iff :
    BranchesWithin n (patterns parts) ↔ ∀ part ∈ parts, part.Nested true (n - 1) := by
  simp [BranchesWithin, patterns, Branch.Within]

@[simp]
theorem subpatterns_iff :
    BranchesWithin n (subpatterns parts) ↔ ∀ part ∈ parts, part.Nested true n := by
  simp [BranchesWithin, subpatterns, Branch.Within]

end BranchesWithin

namespace Node

variable {inPattern : Bool} {m n count : Nat} {node inner : Node} {range : Range}

theorem Path.pos (h : node.Path inPattern count inner) : 0 < count := by
  induction h with
  | here => exact Nat.one_pos
  | plain | surface => omega

/-- Everything in a node is on a way down from it. -/
theorem Contains.exists_path (h : node.Contains inner) (inPattern : Bool) :
    ∃ count, node.Path inPattern count inner := by
  induction h generalizing inPattern with
  | self node => exact ⟨1, .here inPattern node⟩
  | plain hpart _ ih =>
    obtain ⟨branch, hbranch, rfl⟩ := List.mem_map.mp (Plain.mem_branches hpart inPattern)
    obtain ⟨count, hpath⟩ := ih branch.isPattern
    exact ⟨_, .plain hbranch hpath⟩
  | surface hpart _ ih =>
    obtain ⟨branch, hbranch, rfl⟩ := List.mem_map.mp (Surface.mem_branches hpart)
    obtain ⟨count, hpath⟩ := ih branch.isPattern
    exact ⟨_, .surface hbranch hpath⟩

namespace Nested

theorem mono (h : node.Nested inPattern m) (hmn : m ≤ n) : node.Nested inPattern n :=
  fun _ _ hpath ↦ Nat.le_trans (h hpath) hmn

theorem pos (h : node.Nested inPattern n) : 0 < n := h (.here inPattern node)

theorem plain {form : Plain Node} (hn : 0 < n) (h : BranchesWithin n (form.branches inPattern)) :
    (Node.plain range form).Nested inPattern n := by
  intro count inner hpath
  cases hpath with
  | here => exact hn
  | plain hbranch hpath =>
    have hle := h _ hbranch hpath
    have hpos := hpath.pos
    omega

theorem surface {form : Surface Node} (hn : 0 < n) (h : BranchesWithin n form.branches) :
    (Node.surface range form).Nested inPattern n := by
  intro count inner hpath
  cases hpath with
  | here => exact hn
  | surface hbranch hpath =>
    have hle := h _ hbranch hpath
    have hpos := hpath.pos
    omega

theorem plain_branches {form : Plain Node} (h : (Node.plain range form).Nested inPattern n) :
    BranchesWithin n (form.branches inPattern) :=
  fun _ hbranch _ _ hpath ↦ Nat.le_sub_of_add_le (h (.plain hbranch hpath))

theorem surface_branches {form : Surface Node} (h : (Node.surface range form).Nested inPattern n) :
    BranchesWithin n form.branches :=
  fun _ hbranch _ _ hpath ↦ Nat.le_sub_of_add_le (h (.surface hbranch hpath))

theorem startingAt (h : node.Nested inPattern n) (start : Position) :
    (node.startingAt start).Nested inPattern n := by
  cases node with
  | plain range form => exact plain h.pos h.plain_branches
  | surface range form => exact surface h.pos h.surface_branches

/-- A construct of which every part counts has one level more than its parts. -/
theorem of_children {form : Plain Node}
    (hbranches : form.branches inPattern = counted form.children)
    (h : ∀ child ∈ form.children, child.Nested false n) :
    (Node.plain range form).Nested inPattern (n + 1) := by
  refine plain n.succ_pos ?_
  rw [hbranches]
  exact BranchesWithin.counted_iff.mpr h

theorem of_surface_children {form : Surface Node}
    (hbranches : form.branches = counted form.children)
    (h : ∀ child ∈ form.children, child.Nested false n) :
    (Node.surface range form).Nested inPattern (n + 1) := by
  refine surface n.succ_pos ?_
  rw [hbranches]
  exact BranchesWithin.counted_iff.mpr h

end Nested

end Node

end SignalView
