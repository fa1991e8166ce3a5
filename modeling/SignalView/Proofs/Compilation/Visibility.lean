import SignalView.Proofs.Compilation.Outcome
import SignalView.Proofs.Lowering.Scopes

/-!
# What stays visible

A statement that has been lowered leaves the scopes that it found, and behind it a name means what
it meant in front of it, unless the statement declares the name in the scope in which it stands.
Nothing that is declared inside a construct with a scope of its own is seen by what follows. The
bodies of `while` and `do` loops have no such scope.
-/

namespace SignalView

/-! ## Restored contexts -/

/-- The second state is in the context of the first: in the same scopes, of which only the current
one may have new symbols, under some names, and in the same component. -/
structure LoweringState.Restored (names : List Bytes) (s t : LoweringState) : Prop where
  kind : t.symbols.current.kind = s.symbols.current.kind
  current : ∃ kept added, t.symbols.current.symbols = kept ++ added ∧
    List.Forall₂ Symbol.Marks s.symbols.current.symbols kept ∧
    ∀ symbol ∈ added, symbol.name ∈ names
  depth : t.symbols.depth = s.symbols.depth
  enclosing : List.Forall₂ (fun outer after ↦ after.kind = outer.kind ∧
    List.Forall₂ Symbol.Marks outer.symbols after.symbols) s.symbols.enclosing t.symbols.enclosing
  component : Option.Rel ComponentFacts.Grows s.current t.current
  visible : ∀ name ∉ names, Option.Rel Symbol.Marks (s.symbols.lookup name) (t.symbols.lookup name)

theorem Symbol.Extend.split {names : Set Bytes} {before after : List Symbol}
    (h : Symbol.Extend names before after) :
    ∃ kept added, after = kept ++ added ∧ List.Forall₂ Symbol.Marks before kept ∧
      ∀ symbol ∈ added, symbol.name ∈ names := by
  induction h with
  | @added symbols hnames => exact ⟨[], symbols, rfl, .nil, hnames⟩
  | @kept _ t _ _ hmarks _ ih =>
    obtain ⟨kept, added, rfl, hkept, hadded⟩ := ih
    exact ⟨t :: kept, added, rfl, .cons hmarks hkept, hadded⟩

theorem LoweringState.Extends.restored {names : List Bytes} {s t : LoweringState}
    (h : s.Extends {name | name ∈ names} t) : s.Restored names t where
  kind := h.symbols.current.kind
  current := h.symbols.current.symbols.split
  depth := h.symbols.depth_eq
  enclosing := h.symbols.enclosing.imp fun _ _ houter ↦
    ⟨houter.kind, Symbol.Extend.empty_iff.mp houter.symbols⟩
  component := h.current
  visible _ hname := h.symbols.lookup hname

/-! ## Constructs with scopes of their own -/

def Node.isBlock : Node → Bool
  | .plain _ (.block _) => true
  | _ => false

/-- Whatever a construct declares inside is in scopes of its own, so that at most its name is
declared around it. -/
inductive Node.Encloses : Node → List Bytes → Prop
  | block (range : Range) (body : List Node) : Encloses (.plain range (.block body)) []
  | forLoop (range : Range) (init test update : Option Node) (body : Node) :
    Encloses (.plain range (.forLoop init test update body)) []
  | forIn (range : Range) (left right body : Node) (isOf isAwait : Bool) :
    Encloses (.plain range (.forIn left right body isOf isAwait)) []
  | switch (range : Range) (discriminant : Node) (cases : List (SwitchCase Node)) :
    Encloses (.plain range (.switch discriminant cases)) []
  | tryCatch (range : Range) (t : TryShape Node) (hblock : t.block.isBlock)
    (hfinalizer : ∀ finalizer ∈ t.finalizer, finalizer.isBlock) :
    Encloses (.plain range (.tryCatch t)) []
  | module (range : Range) (keyword name : Bytes) (body : Option (List Node)) (isDeclare : Bool) :
    Encloses (.plain range (.module keyword name body isDeclare)) []
  | function (range : Range) (f : Callable Node) (isDeclare : Bool) :
    Encloses (.plain range (.functionDeclaration f isDeclare)) [f.name]
  | class_ (range : Range) (c : ClassShape Node) :
    Encloses (.plain range (.classDeclaration c)) [c.name]
  | component (range : Range) (f : Callable Node) :
    Encloses (.surface range (.component f)) [f.name]

theorem Node.scopeNames_of_isBlock {node : Node} (h : node.isBlock) : node.scopeNames = [] := by
  unfold isBlock at h
  split at h
  · rfl
  · cases h

theorem Node.Encloses.scopeNames_eq {node : Node} {names : List Bytes} (h : node.Encloses names) :
    node.scopeNames = names := by
  cases h with
  | tryCatch _ t hblock hfinalizer =>
    have hnone : t.block.scopeNames = [] := scopeNames_of_isBlock hblock
    obtain ⟨block, _, _, _, _ | finalizer⟩ := t
    · exact hnone
    · change block.scopeNames ++ finalizer.scopeNames = []
      rw [hnone, scopeNames_of_isBlock (hfinalizer _ rfl), List.append_nil]
  | _ => rfl

/-! ## Programs -/

theorem ViewProgram.ofNode_extends {options : ViewProgram.Options} {root : Node}
    {program : ViewProgram} {state : LoweringState}
    (h : ofNode options root = (.ok program, state)) :
    LoweringState.Extends Set.univ {} state := by
  have hkeeps : (ofItems options root.children).Keeps Set.univ := by
    refine .bind (.mapM fun item _ ↦ ?_) fun _ ↦ .bind .state fun _ ↦ ?_
    · exact (Lowering.moduleItem_keeps (lowering_restores _ _ _) item).mono (Set.subset_univ _)
    · exact (Lower.Keeps.remark _ _ _).bind fun _ ↦ .pure _
  exact hkeeps h

/-- Lowering leaves the context that it found, and a construct with scopes of its own hides what it
declares from all that follows. A program ends in the global scope and in no component. The levels
that are left are handed down, so there is no count of them to go back to. -/
theorem lowering_leaves_context (options : ViewProgram.Options) {l : Lowering} {level : Nat}
    (hl : l = lowering options.runtimeModule options.maxDepth level) :
    (∀ node s t view, l.statement node s = (.ok view, t) ∨ l.moduleItem node s = (.ok view, t) →
      s.Restored node.scopeNames t ∧ ∀ names, node.Encloses names → s.Restored names t) ∧
    (∀ node s t view, l.expression node s = (.ok view, t) → s.Restored [] t) ∧
    ∀ root program state, ViewProgram.ofNode options root = (.ok program, state) →
      state.symbols.enclosing = [] ∧ state.symbols.current.kind = .global ∧
        state.current = none := by
  have hrestores : l.Restores := hl ▸ lowering_restores _ _ _
  refine ⟨fun node s t view hrun ↦ ?_, fun node s t view hrun ↦ ?_, ?_⟩
  · have hnode : s.Restored node.scopeNames t := by
      obtain hrun | hrun := hrun
      · exact (hrestores.statement node hrun).restored
      · exact (Lowering.moduleItem_keeps hrestores node hrun).restored
    exact ⟨hnode, fun names hnames ↦ hnames.scopeNames_eq ▸ hnode⟩
  · exact (hrestores.expression node hrun).restored
  · intro root program state hrun
    obtain ⟨⟨hcurrent, henclosing⟩, hcomponent⟩ := ViewProgram.ofNode_extends hrun
    refine ⟨List.forall₂_nil_left_iff.mp henclosing, hcurrent.kind, ?_⟩
    exact ComponentFacts.Grows.eq_none hcomponent

/-- A block that declares `a` to be `b`, in a scope in which `b` is declared. -/
theorem lowering_leaves_context_block :
    ∃ l s t view, l = lowering ViewProgram.defaultRuntime 100 3 ∧
      l.statement (.plain {} (.block [.plain {} (.variableDeclaration (bytes "let")
        [⟨.plain {} (.identifier (bytes "a")), [], some (.plain {} (.identifier (bytes "b"))), false⟩]
          false)])) s = (.ok view, t) ∧
      (s.symbols.lookup (bytes "b")).isSome ∧ s.Restored [] t := by
  let b : Symbol := { name := bytes "b", kind := .constant }
  let s : LoweringState := { symbols := { current := { kind := .global, symbols := [b] } } }
  let l := lowering ViewProgram.defaultRuntime 100 3
  obtain ⟨view, t, hrun⟩ : ∃ view t, l.statement (.plain {} (.block [.plain {}
      (.variableDeclaration (bytes "let") [⟨.plain {} (.identifier (bytes "a")), [],
        some (.plain {} (.identifier (bytes "b"))), false⟩] false)])) s = (.ok view, t) :=
    ⟨_, _, rfl⟩
  refine ⟨l, s, t, view, rfl, hrun, by decide, ?_⟩
  have hl : l = lowering ViewProgram.defaultRuntime 100 3 := rfl
  exact ((lowering_leaves_context {} hl).1 _ _ _ _ (.inl hrun)).2 [] (.block _ _)

namespace Compilation

/-- Whether a tree is a `while` loop and another statement, and the loop leaves a name visible that
nothing has declared in front of it. -/
def leavesVisible (name : Bytes) (root : Node) : Bool :=
  match root.children with
  | [.plain range (.whileLoop test body), _] =>
    match (lowering ViewProgram.defaultRuntime 100 100).moduleItem
        (.plain range (.whileLoop test body)) {} with
    | (.ok _, state) => (state.symbols.lookup name).isSome
    | (.error _, _) => false
  | _ => false

/-- What the body of a `while` loop declares is visible to the statement behind the loop. -/
theorem ReadAs.visible_behind_while :
    ∃ tokens root, ReadAs {} (bytes "while (0) var signal = 1;\nsignal(0);") tokens root ∧
      ∃ range test body behind state view,
        root.children = [.plain range (.whileLoop test body), behind] ∧
        (lowering ViewProgram.defaultRuntime 100 100).moduleItem
          (.plain range (.whileLoop test body)) {} = (.ok view, state) ∧
        SymbolTable.lookup {} (bytes "signal") = none ∧
        (state.symbols.lookup (bytes "signal")).isSome := by
  have hreads : reads {} (bytes "while (0) var signal = 1;\nsignal(0);") (fun _ ↦
      leavesVisible (bytes "signal")) = true := by
    decide +kernel
  obtain ⟨tokens, root, hread, hvisible⟩ := exists_of_reads hreads
  refine ⟨tokens, root, hread, ?_⟩
  unfold leavesVisible at hvisible
  split at hvisible
  · next range test body behind hchildren =>
    split at hvisible
    · next view state hrun =>
      exact ⟨range, test, body, behind, state, view, hchildren, hrun, rfl, hvisible⟩
    · cases hvisible
  · cases hvisible

end Compilation

end SignalView
