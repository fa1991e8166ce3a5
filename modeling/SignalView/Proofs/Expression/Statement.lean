import SignalView.Proofs.Expression.Passed

/-!
# Programs that are one expression

Among the statements only an expression statement gives a node of that kind, so a program whose tree
is one expression statement was read as one expression from its first token to its last.
-/

namespace SignalView

open Parse

namespace Grammar

variable {g : Grammar}

/-! ## Statements of other kinds -/

/-- The node is no expression statement. -/
def isDeclarative : Node → Bool
  | .plain _ (.expressionStatement _) => false
  | _ => true

theorem block_gets : g.block.Gets (isDeclarative · = true) :=
  .last fun _ ↦ .last fun _ ↦ .last fun _ ↦ .node fun _ ↦ rfl

theorem variableDeclaration_gets (place : VariablePlace) :
    (g.variableDeclaration place).Gets (isDeclarative · = true) := by
  unfold variableDeclaration
  refine .last fun start ↦ .last fun _ ↦ .last fun declarators ↦ ?_
  exact .ite (.last fun _ ↦ .node fun range ↦ rfl) (.node fun range ↦ rfl)

theorem functionDeclaration_gets (start : Token) (mayBeAnonymous isAsync isDeclare : Bool) :
    (g.functionDeclaration start mayBeAnonymous isAsync isDeclare).Gets
      (isDeclarative · = true) := by
  unfold functionDeclaration
  refine .last fun _ ↦ .last fun isGenerator ↦ .last fun isNamed ↦ .ite (.last fun _ ↦ ?_) ?_
  all_goals
    refine .last fun name ↦ .last fun f ↦ .last fun isOpen ↦ .last fun body ↦ ?_
    exact .ite (.last fun _ ↦ .node fun range ↦ rfl) (.node fun range ↦ rfl)

theorem plainFunction_gets (isDeclare : Bool) :
    (g.plainFunction isDeclare).Gets (isDeclarative · = true) :=
  .last fun _ ↦ .last fun _ ↦ functionDeclaration_gets _ _ _ _

theorem asyncFunction_gets (isDeclare : Bool) :
    (g.asyncFunction isDeclare).Gets (isDeclarative · = true) :=
  .last fun _ ↦ .last fun _ ↦ .last fun _ ↦ functionDeclaration_gets _ _ _ _

theorem classDeclaration_gets (decorators : List Node) (isAbstract isDeclare : Bool) :
    (g.classDeclaration decorators isAbstract isDeclare).Gets (isDeclarative · = true) := by
  unfold classDeclaration
  refine .last fun start ↦ .last fun _ ↦ .last fun isName ↦ .last fun isImplements ↦ ?_
  refine .last fun name ↦ .last fun typeParameters ↦ .last fun parent ↦ .last fun implemented ↦ ?_
  refine .ite (.last fun types ↦ ?_) (.last fun types ↦ ?_)
  all_goals exact .last fun _ ↦ .last fun members ↦ .last fun _ ↦ .node fun range ↦ rfl

theorem maybeAbstractClass_gets (decorators : List Node) :
    (g.maybeAbstractClass decorators).Gets (isDeclarative · = true) :=
  .last fun _ ↦ classDeclaration_gets _ _ _

theorem decorated_gets : g.decorated.Gets (isDeclarative · = true) := by
  unfold decorated
  refine .last fun decorators ↦ .last fun start ↦ .last fun isExported ↦ .ite ?_ ?_
  · refine .last fun isDefault ↦ .last fun declaration ↦ ?_
    exact .ite (.node fun range ↦ rfl) (.node fun range ↦ rfl)
  · exact maybeAbstractClass_gets _

theorem interface_gets (isDeclare : Bool) :
    (g.interface isDeclare).Gets (isDeclarative · = true) := by
  unfold interface
  refine .last fun start ↦ .last fun _ ↦ .last fun name ↦ .last fun typeParameters ↦ ?_
  refine .last fun isExtended ↦ .ite (.last fun types ↦ ?_) (.last fun types ↦ ?_)
  all_goals exact .last fun _ ↦ .last fun members ↦ .last fun _ ↦ .node fun range ↦ rfl

theorem typeAlias_gets (isDeclare : Bool) :
    (g.typeAlias isDeclare).Gets (isDeclarative · = true) := by
  unfold typeAlias
  refine .last fun start ↦ .last fun _ ↦ .last fun name ↦ .last fun typeParameters ↦ ?_
  exact .last fun _ ↦ .last fun type ↦ .last fun _ ↦ .node fun range ↦ rfl

theorem enumeration_gets (isConst isDeclare : Bool) :
    (g.enumeration isConst isDeclare).Gets (isDeclarative · = true) := by
  unfold enumeration
  refine .ite (.last fun start ↦ ?_) (.last fun start ↦ ?_)
  all_goals
    exact .last fun _ ↦ .last fun name ↦ .last fun _ ↦ .last fun members ↦ .last fun _ ↦
      .node fun range ↦ rfl

theorem namespaceDeclaration_gets (isDeclare : Bool) :
    (g.namespaceDeclaration isDeclare).Gets (isDeclarative · = true) := by
  unfold namespaceDeclaration
  refine .last fun start ↦ .last fun isGlobal ↦ .last fun _ ↦ ?_
  refine .ite (.last fun name ↦ ?_) (.last fun name ↦ ?_)
  all_goals
    refine .last fun isOpen ↦ .ite ?_ (.last fun _ ↦ .node fun range ↦ rfl)
    exact .last fun body ↦ .last fun _ ↦ .node fun range ↦ rfl

theorem ambient_gets : g.ambient.Gets (isDeclarative · = true) := by
  unfold ambient
  refine .last fun token ↦ ?_
  split
  · exact variableDeclaration_gets _
  · exact variableDeclaration_gets _
  · refine .last fun isEnum ↦ .ite (.last fun _ ↦ enumeration_gets _ _) ?_
    exact variableDeclaration_gets _
  · exact plainFunction_gets _
  · exact asyncFunction_gets _
  · exact classDeclaration_gets _ _ _
  · exact .last fun _ ↦ classDeclaration_gets _ _ _
  · exact interface_gets _
  · exact typeAlias_gets _
  · exact enumeration_gets _ _
  · exact namespaceDeclaration_gets _
  · exact namespaceDeclaration_gets _
  · exact .last fun isGlobal ↦ .ite (namespaceDeclaration_gets _) (.fail _ _)

theorem ambientDeclaration_gets : g.ambientDeclaration.Gets (isDeclarative · = true) := by
  unfold ambientDeclaration
  refine .last fun start ↦ .last fun _ ↦ ambient_gets.bind fun node hnode ↦ .pure ?_
  cases node with
  | plain range form => cases form <;> exact hnode
  | surface range form => rfl

theorem componentDeclaration_gets : g.componentDeclaration.Gets (isDeclarative · = true) := by
  unfold componentDeclaration
  refine .last fun start ↦ .last fun _ ↦ .last fun name ↦ .last fun f ↦ .last fun isOpen ↦ ?_
  refine .ite (.last fun _ ↦ ?_) ?_
  all_goals exact .last fun body ↦ .surface fun range ↦ rfl

theorem importDeclaration_gets : g.importDeclaration.Gets (isDeclarative · = true) := by
  unfold importDeclaration
  refine .last fun start ↦ .last fun _ ↦ .last fun first ↦ .last fun isPath ↦ .ite ?_ ?_
  · exact .last fun _ ↦ .node fun range ↦ rfl
  · refine .last fun typeOnly ↦ .last fun name ↦ ?_
    refine .ite (.last fun names ↦ ?_) (.last fun names ↦ ?_)
    all_goals
      refine .last fun isFrom ↦ .ite (.last fun _ ↦ ?_) ?_
      all_goals exact .last fun source ↦ .last fun _ ↦ .last fun _ ↦ .node fun range ↦ rfl

theorem exportAll_gets (start : Token) : (exportAll start).Gets (isDeclarative · = true) := by
  unfold exportAll
  refine .last fun typeOnly ↦ .last fun _ ↦ .last fun name ↦ .last fun isFrom ↦ ?_
  refine .ite (.last fun _ ↦ ?_) ?_
  all_goals exact .last fun source ↦ .last fun _ ↦ .node fun range ↦ rfl

theorem exportedDeclaration_gets (start : Token) :
    (g.exportedDeclaration start).Gets (isDeclarative · = true) := by
  unfold exportedDeclaration
  refine .last fun token ↦ .ite (.last fun _ ↦ .last fun declaration ↦ ?_)
    (.last fun declaration ↦ ?_)
  all_goals
    split
    · exact .failAt _ _ _
    · exact .node fun range ↦ rfl

theorem exportDeclaration_gets : g.exportDeclaration.Gets (isDeclarative · = true) := by
  unfold exportDeclaration
  refine .last fun start ↦ .last fun _ ↦ .last fun ofTypes ↦ .last fun isDefault ↦ .ite ?_ ?_
  · exact .last fun value ↦ .node fun range ↦ rfl
  refine .last fun isStar ↦ .last fun isTypeStar ↦ .ite (exportAll_gets start) ?_
  refine .last fun isBrace ↦ .last fun isTypeBrace ↦ .ite ?_ (exportedDeclaration_gets start)
  refine .last fun typeOnly ↦ .last fun _ ↦ .last fun specifiers ↦ .last fun _ ↦ ?_
  exact .last fun source ↦ .last fun _ ↦ .node fun range ↦ rfl

theorem countedLoop_gets (start : Token) (init : Option Node) :
    (g.countedLoop start init).Gets (isDeclarative · = true) := by
  unfold countedLoop
  refine .last fun _ ↦ .last fun test ↦ .last fun _ ↦ .last fun update ↦ .last fun _ ↦ ?_
  exact .last fun body ↦ .node fun range ↦ rfl

theorem forStatement_gets : g.forStatement.Gets (isDeclarative · = true) := by
  unfold forStatement
  refine .last fun start ↦ .last fun _ ↦ .last fun isAwait ↦ .last fun _ ↦ .last fun isEmpty ↦ ?_
  refine .ite (countedLoop_gets start none) (.last fun init ↦ .last fun isOf ↦ .last fun isIn ↦ ?_)
  refine .ite (.last fun isOf ↦ .last fun _ ↦ ?_) (countedLoop_gets start (some init))
  refine .ite (.last fun right ↦ ?_) (.last fun right ↦ ?_)
  all_goals exact .last fun _ ↦ .last fun body ↦ .node fun range ↦ rfl

theorem throwStatement_gets : g.throwStatement.Gets (isDeclarative · = true) := by
  unfold throwStatement
  refine .last fun start ↦ .last fun _ ↦ .last fun isBroken ↦ .ite (.last fun _ ↦ ?_) ?_
  all_goals exact .last fun argument ↦ .last fun _ ↦ .node fun range ↦ rfl

theorem tryStatement_gets : g.tryStatement.Gets (isDeclarative · = true) := by
  unfold tryStatement
  refine .last fun start ↦ .last fun _ ↦ .last fun block ↦ .last fun clause ↦ ?_
  refine .last fun finalizer ↦ .ite (.last fun _ ↦ .node fun range ↦ rfl) (.node fun range ↦ rfl)

/-! ## Looking at what follows a contextual word -/

theorem atVariables_looks : atVariables.Looks := by
  refine Looks.current.bind fun token ↦ ?_
  split
  · exact .pure _
  · exact .pure _
  · exact (Looks.markAhead 1 _).bind fun _ ↦ (Looks.markAhead 1 _).bind fun _ ↦
      (Looks.nameAhead 1).bind fun _ ↦ .pure _
  · exact .pure _

theorem atAsyncFunction_looks : atAsyncFunction.Looks :=
  (Looks.wordAhead 1 _).bind fun _ ↦ (Looks.peek 1).bind fun _ ↦ .pure _

theorem atTypeAlias_looks : atTypeAlias.Looks :=
  (Looks.nameAhead 1).bind fun _ ↦ (Looks.markAhead 2 _).bind fun _ ↦
    (Looks.markAhead 2 _).bind fun _ ↦ (Looks.markAhead 2 _).bind fun _ ↦ .pure _

theorem atComponent_looks : atComponent.Looks :=
  (Looks.nameAhead 1).bind fun _ ↦ (Looks.markAhead 2 _).bind fun _ ↦
    (Looks.markAhead 2 _).bind fun _ ↦ .pure _

theorem peek_looks {α : Type} (offset : Nat) (read : Token → α) :
    (do return read (← peek offset) : Parse α).Looks :=
  (Looks.peek offset).bind fun _ ↦ .pure _

/-! ## All statements -/

variable {context : ParseContext} {cursor cursor' : TokenCursor} {range : Range}
  {expression : Node}

theorem contextual_eq_ok {fits : Parse Bool} {declaration : Parse Node} (hfits : fits.Looks)
    (hdeclaration : declaration.Gets (isDeclarative · = true))
    (h : g.contextual fits declaration context cursor =
      .ok (.plain range (.expressionStatement expression)) cursor') :
    g.expressionStatement context cursor =
      .ok (.plain range (.expressionStatement expression)) cursor' := by
  obtain ⟨found, place, hfound, h⟩ := bind_eq_ok h
  rw [hfits.eq_of_ok hfound] at h
  split at h
  · cases hdeclaration.of_ok h
  · exact h

/-- A statement that is an expression was read as one. -/
theorem statementStep_eq_ok
    (h : g.statementStep context cursor =
      .ok (.plain range (.expressionStatement expression)) cursor') :
    g.expressionStatement { context with depth := context.depth + 1 } cursor =
      .ok (.plain range (.expressionStatement expression)) cursor' := by
  have h := nested_eq_ok h
  generalize ({ context with depth := context.depth + 1 } : ParseContext) = inner at h ⊢
  rw [bind_of_ok current_eq] at h
  have declarative : ∀ {action : Parse Node} {place}, action.Gets (isDeclarative · = true) →
      action inner place = .ok (.plain range (.expressionStatement expression)) cursor' →
      g.expressionStatement inner cursor =
        .ok (.plain range (.expressionStatement expression)) cursor' :=
    fun hgets hrun ↦ absurd (hgets.of_ok hrun) nofun
  generalize cursor.after.head?.getD inner.final = token at h
  generalize token.kind = kind at h
  split at h
  · exact declarative block_gets h
  · exact declarative (.last fun _ ↦ .node fun range ↦ rfl) h
  · refine declarative (.last fun isEnum ↦ .ite (.last fun _ ↦ ?_) ?_) h
    · exact enumeration_gets _ _
    · exact variableDeclaration_gets _
  · exact declarative (variableDeclaration_gets _) h
  · exact contextual_eq_ok atVariables_looks (variableDeclaration_gets _) h
  · exact declarative (plainFunction_gets _) h
  · exact contextual_eq_ok atAsyncFunction_looks (asyncFunction_gets _) h
  · exact declarative (classDeclaration_gets _ _ _) h
  · exact contextual_eq_ok (.wordAhead 1 _) (maybeAbstractClass_gets _) h
  · exact declarative decorated_gets h
  · exact contextual_eq_ok (.nameAhead 1) (interface_gets _) h
  · exact contextual_eq_ok atTypeAlias_looks (typeAlias_gets _) h
  · exact declarative (enumeration_gets _ _) h
  · exact contextual_eq_ok (peek_looks 1 _) (namespaceDeclaration_gets _) h
  · exact contextual_eq_ok (peek_looks 1 _) (namespaceDeclaration_gets _) h
  · exact contextual_eq_ok (peek_looks 1 _) ambientDeclaration_gets h
  · exact contextual_eq_ok atComponent_looks componentDeclaration_gets h
  · obtain ⟨isCall, place, hcall, hrest⟩ := bind_eq_ok h
    obtain ⟨isMember, behind, hmember, hrest⟩ := bind_eq_ok hrest
    rw [(Looks.markAhead 1 _).eq_of_ok hmember, (Looks.markAhead 1 _).eq_of_ok hcall] at hrest
    split at hrest
    · exact hrest
    · exact declarative importDeclaration_gets hrest
  · exact declarative exportDeclaration_gets h
  · refine declarative ?_ h
    unfold ifStatement
    exact .last fun _ ↦ .last fun _ ↦ .last fun _ ↦ .last fun _ ↦ .last fun _ ↦
      .node fun range ↦ rfl
  · refine declarative ?_ h
    unfold switchStatement
    exact .last fun _ ↦ .last fun _ ↦ .last fun _ ↦ .last fun _ ↦ .last fun _ ↦ .last fun _ ↦
      .node fun range ↦ rfl
  · exact declarative forStatement_gets h
  · exact declarative (.last fun _ ↦ .last fun _ ↦ .last fun _ ↦ .last fun _ ↦
      .node fun range ↦ rfl) h
  · exact declarative (.last fun _ ↦ .last fun _ ↦ .last fun _ ↦ .last fun _ ↦ .last fun _ ↦
      .last fun _ ↦ .node fun range ↦ rfl) h
  · exact declarative (.last fun _ ↦ .last fun _ ↦ .last fun _ ↦ .last fun _ ↦ .last fun _ ↦
      .last fun _ ↦ .node fun range ↦ rfl) h
  · exact declarative (.last fun _ ↦ .last fun _ ↦ .last fun _ ↦ .last fun _ ↦ .last fun _ ↦
      .last fun _ ↦ .node fun range ↦ rfl) h
  · exact declarative (.last fun _ ↦ .last fun _ ↦ .last fun _ ↦ .last fun _ ↦ .last fun _ ↦
      .last fun _ ↦ .last fun _ ↦ .node fun range ↦ rfl) h
  · exact declarative throwStatement_gets h
  · exact declarative tryStatement_gets h
  · exact declarative (.last fun _ ↦ .last fun _ ↦ .node fun range ↦ rfl) h
  · refine contextual_eq_ok (.markAhead 1 _) ?_ h
    exact .last fun _ ↦ .last fun _ ↦ .last fun _ ↦ .last fun _ ↦ .node fun range ↦ rfl
  · exact h

end Grammar

namespace Program

variable {statement : Parse Node} {options : Options} {context : ParseContext} {rounds : Nat}
  {progress result : Progress}

/-! ## Programs of one statement -/

/-- Reading on adds to what has been read. -/
theorem statements_length_le
    (h : statements statement options context rounds progress = .ok result) :
    progress.body.length ≤ result.body.length ∧
      progress.errors.length ≤ result.errors.length := by
  induction rounds generalizing progress with
  | zero =>
    cases h
    exact ⟨Nat.le_refl _, Nat.le_refl _⟩
  | succ rounds ih =>
    unfold statements at h
    split at h
    · cases h
      exact ⟨Nat.le_refl _, Nat.le_refl _⟩
    · split at h
      · obtain ⟨hbody, herrors⟩ := ih h
        simp only [List.length_append, List.length_singleton] at hbody
        exact ⟨by omega, herrors⟩
      · split at h
        · dsimp only at h
          split at h
          · cases h
            simp
          · obtain ⟨hbody, herrors⟩ := ih h
            simp only [List.length_append, List.length_singleton] at herrors
            exact ⟨hbody, by omega⟩
        · cases h

/-- Reading on without a failure goes on behind a statement. -/
theorem statements_step
    (h : statements statement options context (rounds + 1) progress = .ok result)
    (hafter : progress.cursor.after ≠ []) (herrors : result.errors = []) :
    ∃ node cursor, statement context progress.cursor = .ok node cursor ∧
      statements statement options context rounds
        { progress with body := progress.body ++ [node], cursor := cursor } = .ok result := by
  unfold statements at h
  rw [if_neg (by simpa using hafter)] at h
  split at h
  · next node cursor hrun => exact ⟨node, cursor, hrun, h⟩
  · exfalso
    split at h
    · dsimp only at h
      split at h
      · cases h
        simp at herrors
      · obtain ⟨-, hlength⟩ := statements_length_le h
        simp [herrors] at hlength
    · cases h

/-- A program of one statement is read by that statement to the end. -/
theorem statements_eq_singleton {start : TokenCursor} {node : Node}
    (h : statements statement options context (start.after.length + 1) { cursor := start } =
      .ok result)
    (hbody : result.body = [node]) (herrors : result.errors = []) :
    ∃ cursor, statement context start = .ok node cursor ∧ cursor.after = [] := by
  have hafter : start.after ≠ [] := by
    intro hafter
    unfold statements at h
    rw [if_pos (by simp [hafter])] at h
    cases h
    cases hbody
  obtain ⟨first, cursor, hfirst, hrest⟩ := statements_step h hafter herrors
  obtain ⟨rounds, hrounds⟩ : ∃ r, start.after.length = r + 1 :=
    Nat.exists_eq_succ_of_ne_zero (by simpa using hafter)
  rw [hrounds] at hrest
  by_cases hend : cursor.after = []
  · unfold statements at hrest
    rw [if_pos (by simp [hend])] at hrest
    cases hrest
    obtain rfl := List.singleton_inj.mp hbody
    exact ⟨cursor, hfirst, hend⟩
  · obtain ⟨second, _, -, hrest⟩ := statements_step hrest hend herrors
    obtain ⟨hlength, -⟩ := statements_length_le hrest
    simp [hbody] at hlength

end Program

namespace Term

variable {t : Term} {node : Node} {front : List Token} {final : Token} {options : Program.Options}
  {range range' : Range}

/-! ## From the tree to the tokens -/

theorem semicolon_passes {context : ParseContext} {cursor cursor' : TokenCursor} {done : Unit}
    (hfinal : context.final.kind = .eof) (hspelled : Spelled cursor.after)
    (h : semicolon context cursor = .ok done cursor') :
    ∃ signs, Passes cursor cursor' signs ∧ endings signs = [] := by
  obtain ⟨accepted, place, haccept, hrest⟩ := bind_eq_ok h
  rcases acceptMark_passes hfinal hspelled haccept nofun with ⟨rfl, hpasses⟩ | ⟨rfl, rfl⟩
  · cases hrest
    exact ⟨_, hpasses, rfl⟩
  · rw [if_neg Bool.false_ne_true, bind_of_ok (atMark_eq _ hfinal)] at hrest
    obtain ⟨_, _, hend, hlast⟩ := bind_eq_ok hrest
    rw [atEnd, at_eq _ hfinal] at hend
    cases hend
    rw [bind_of_ok onNewLine_eq] at hlast
    split at hlast
    · cases hlast
      exact ⟨[], .refl _, rfl⟩
    · obtain ⟨_, _, -, hlast⟩ := bind_eq_ok hlast
      cases hlast

theorem expressionStatement_traces {g : Grammar} {context : ParseContext}
    {cursor cursor' : TokenCursor} (hg : Tracing g)
    (h : g.expressionStatement context cursor =
      .ok (.plain range (.expressionStatement node)) cursor')
    (hfinal : context.final.kind = .eof) (hspelled : Spelled cursor.after)
    (hdepicts : t.Depicts node) (hplain : t.HasPlainNames) :
    Passes cursor cursor' t.signs ∧ Fits .assignment t := by
  rw [Grammar.expressionStatement, bind_of_ok current_eq] at h
  obtain ⟨expression, middle, hexpression, hrest⟩ := bind_eq_ok h
  obtain ⟨_, behind, hsemicolon, hlast⟩ := bind_eq_ok hrest
  cases hlast
  obtain ⟨hpasses, hfits⟩ :=
    expression_traces hg hfinal hspelled hexpression hdepicts hplain
  obtain ⟨signs, hpassesEnd, hsigns⟩ :=
    semicolon_passes hfinal (hpasses.spelled hspelled) hsemicolon
  refine ⟨(hpasses.trans hpassesEnd).congr ?_, hfits⟩
  rw [endings_append, hsigns, List.append_nil]

/-- A program whose tree is a plain term has the tokens of the term, which fits the grammar. -/
theorem fits_of_parse (hfinal : final.kind = .eof) (hspelled : Spelled front)
    (h : Program.parse options (front ++ [final]) =
      .ok ⟨.surface range (.program [.plain range' (.expressionStatement node)]), []⟩)
    (hdepicts : t.Depicts node) (hplain : t.HasPlainNames) :
    (∀ token ∈ front, token.kind ≠ .mark .tagOpen) ∧
      endings (front.map Token.sign) = endings t.signs ∧ Fits .assignment t := by
  simp only [Program.parse, Program.splitFinal_concat hfinal] at h
  generalize hrun : Program.statements _ _ _ _ _ = outcome at h
  cases outcome with
  | error failure => cases h
  | ok progress =>
    obtain ⟨hroot, herrors⟩ := Program.Parsed.mk.inj (Except.ok.inj h)
    have hbody := Surface.program.inj (Node.surface.inj hroot).2
    obtain ⟨cursor, hstatement, hend⟩ := Program.statements_eq_singleton hrun hbody herrors
    obtain ⟨⟨tokens, htokens, hkinds, hendings⟩, hfits⟩ := expressionStatement_traces
      (tracing_grammar _) (Grammar.statementStep_eq_ok hstatement) hfinal hspelled hdepicts hplain
    rw [hend, List.append_nil] at htokens
    subst htokens
    exact ⟨hkinds, hendings, hfits⟩

/-! ## From the tokens to the tree -/

theorem headKind_append {signs : List Sign} (h : signs ≠ []) (rest : List Sign) :
    headKind (signs ++ rest) = headKind signs := by
  cases signs with
  | nil => exact absurd rfl h
  | cons sign signs => rfl

/-- No colon follows the name that a term starts with, so the name is no label. -/
def NoLabel (t : Term) : Prop :=
  headKind t.signs = .identifier → ∀ rest, headKind rest ≠ .mark .colon →
    headKind (t.signs.tail ++ rest) ≠ .mark .colon

theorem NoLabel.of_front {whole part : Term} (h : part.NoLabel) (hpart : 0 < part.signs.length)
    (sign : Sign) (hsigns : ∃ behind, whole.signs = part.signs ++ sign :: behind)
    (hsign : sign.kind ≠ .mark .colon) : whole.NoLabel := by
  obtain ⟨behind, hsigns⟩ := hsigns
  intro hname rest _
  have hne : part.signs ≠ [] := List.ne_nil_of_length_pos hpart
  rw [hsigns, List.tail_append_of_ne_nil hne, List.append_assoc]
  apply h
  · rwa [hsigns, headKind_append hne] at hname
  · exact hsign

theorem Fits.noLabel {rank : Rank} (h : Fits rank t) (hrank : rank ≠ .element) : t.NoLabel := by
  induction h with
  | name _ => exact fun _ _ hrest ↦ hrest
  | number _ isBigint => cases isBigint <;> exact nofun
  | string _ | paren _ _ | array _ _ | spread _ _ => exact nofun
  | unary op _ _ => cases op <;> exact nofun
  | call h _ ih _ =>
    exact (ih nofun).of_front (h.length_pos nofun) Mark.openParen.sign
      ⟨_, List.append_assoc _ _ _⟩ nofun
  | index h _ ih _ =>
    exact (ih nofun).of_front (h.length_pos nofun) Mark.openBracket.sign
      ⟨_, List.append_assoc _ _ _⟩ nofun
  | member _ h ih => exact (ih nofun).of_front (h.length_pos nofun) Mark.dot.sign ⟨_, rfl⟩ nofun
  | @binary _ op _ _ _ h _ ih _ =>
    refine (ih nofun).of_front (h.length_pos nofun) op.sign ⟨_, rfl⟩ ?_
    cases op <;> nofun
  | conditional h _ _ ih _ _ =>
    exact (ih nofun).of_front (h.length_pos nofun) Mark.question.sign
      ⟨_, List.append_assoc _ _ _⟩ nofun
  | ofOperand _ ih | ofUnary _ ih | ofBinary _ ih | ofAssignment _ ih => exact ih nofun
  | ofItem _ _ | hole => exact absurd rfl hrank

/-- A statement that starts with a term is an expression. -/
theorem statementStep_gives {g : Grammar} {context : ParseContext} {cursor : TokenCursor}
    {rest : List Sign} (hfits : Fits .assignment t) (hsigns : cursor.signs = t.signs ++ rest)
    (hfinal : context.final.kind = .eof) (hdepth : (context.depth : Int) < context.maxDepth)
    (hrest : headKind rest ≠ .mark .colon) {P : Node → Prop} {signs : List Sign}
    (h : g.expressionStatement.Gives { context with depth := context.depth + 1 } cursor P signs) :
    g.statementStep.Gives context cursor P signs := by
  refine Gives.nested ?_ hdepth
  have hfinal' : ({ context with depth := context.depth + 1 } : ParseContext).final.kind = .eof :=
    hfinal
  generalize ({ context with depth := context.depth + 1 } : ParseContext) = inner at hfinal' h ⊢
  obtain ⟨node, behind, hrun, hnode, hbehind⟩ := h
  refine ⟨node, behind, ?_, hnode, hbehind⟩
  rw [bind_of_ok current_eq, current_kind hfinal']
  obtain ⟨sign, more, htsigns, hstarts⟩ : StartsAs .assignment t := hfits.startsAs
  have hne : t.signs ≠ [] := by simp [htsigns]
  have hhead : headKind cursor.signs = sign.kind := by rw [hsigns, htsigns]; rfl
  rw [hhead]
  have hlabel : sign.kind = .identifier → markAhead 1 .colon inner cursor = .ok false cursor := by
    intro hname
    refine congrArg (ParseOutcome.ok · cursor) (beq_false_of_ne ?_)
    rw [peek_kind hfinal' 1, List.drop_one, hsigns, List.tail_append_of_ne_nil hne]
    exact hfits.noLabel nofun (by rw [htsigns]; exact hname) rest hrest
  generalize sign.kind = kind at hstarts hlabel
  revert hlabel
  refine hstarts.elim (fun hlabel ↦ ?_) (fun _ ↦ hrun) (fun _ ↦ hrun) (fun _ ↦ hrun)
    (fun _ ↦ hrun) (fun _ ↦ hrun) (fun op _ ↦ ?_)
  · change g.contextual (markAhead 1 .colon) g.labeledStatement inner cursor = _
    rw [Grammar.contextual, bind_of_ok (hlabel rfl)]
    exact hrun
  · cases op <;> exact hrun

theorem listSigns_noArrow {ts : List Term}
    (h : ∀ t ∈ ts, ∀ sign ∈ t.signs, sign.kind ≠ .mark .arrow) :
    ∀ sign ∈ listSigns ts, sign.kind ≠ .mark .arrow := by
  induction ts with
  | nil => simp [listSigns]
  | cons t ts ih =>
    have hgap : ∀ sign ∈ gapSigns t ts, sign.kind ≠ .mark .arrow := by
      unfold gapSigns
      split <;> simp
    rw [listSigns]
    simp only [List.forall_mem_append]
    exact ⟨⟨h t (by simp), hgap⟩, ih fun t hmem ↦ h t (by simp [hmem])⟩

theorem Fits.noArrow {rank : Rank} (h : Fits rank t) :
    ∀ sign ∈ t.signs, sign.kind ≠ .mark .arrow := by
  have hleading : ∀ op : PrefixOp, op.sign.kind ≠ .mark .arrow := by
    intro op
    cases op <;> nofun
  have hbetween : ∀ op : InfixOp, op.sign.kind ≠ .mark .arrow := by
    intro op
    cases op <;> nofun
  induction h with
  | number _ isBigint => cases isBigint <;> simp [signs]
  | name _ | string _ | hole => simp [signs]
  | paren _ ih | spread _ ih => simpa [signs, or_imp, forall_and] using ih
  | array _ ih => simpa [signs, or_imp, forall_and] using listSigns_noArrow ih
  | call _ _ ih ihargs =>
    simpa [signs, or_imp, forall_and] using And.intro ih (listSigns_noArrow ihargs)
  | index _ _ ih ihkey => simpa [signs, or_imp, forall_and] using And.intro ih ihkey
  | member _ _ ih => simpa [signs, or_imp, forall_and] using ih
  | unary op _ ih => simpa [signs, or_imp, forall_and] using And.intro (hleading op) ih
  | @binary _ op _ _ _ _ _ ihleft ihright =>
    simpa [signs, or_imp, forall_and] using And.intro ihleft (And.intro (hbetween op) ihright)
  | conditional _ _ _ ihtest ihconsequent ihalternate =>
    simpa [signs, or_imp, forall_and] using
      And.intro ihtest (And.intro ihconsequent ihalternate)
  | ofOperand _ ih | ofUnary _ ih | ofBinary _ ih | ofAssignment _ ih | ofItem _ ih => exact ih

theorem semicolon_gives {context : ParseContext} {cursor : TokenCursor}
    (hfinal : context.final.kind = .eof)
    (h : cursor.signs = [] ∨ cursor.signs = [Mark.semicolon.sign]) :
    semicolon.Gives context cursor (fun _ ↦ True) [] := by
  rcases h with h | h
  · refine ⟨(), cursor, ?_, trivial, h⟩
    have hnone : acceptMark .semicolon context cursor = .ok false cursor := by
      apply accept_eq_false hfinal
      rw [h]
      nofun
    have hend : atEnd context cursor = .ok true cursor := by
      rw [atEnd, at_eq _ hfinal, h]
      rfl
    rw [semicolon, bind_of_ok hnone, if_neg Bool.false_ne_true, bind_of_ok (atMark_eq _ hfinal),
      bind_of_ok hend, bind_of_ok onNewLine_eq, Bool.or_true, Bool.true_or]
    rfl
  · exact Parse.semicolon_gives h

/-- The tokens of a term, perhaps with a semicolon behind them, are read as an expression. -/
theorem expressionStatement_gives {level : Nat} {context : ParseContext} {cursor : TokenCursor}
    {tail : List Sign} (hfits : Fits .assignment t)
    (htail : tail = [] ∨ tail = [Mark.semicolon.sign]) (hahead : t.Ahead tail context cursor)
    (hlevel : 4 * t.signs.length ≤ level)
    (hdepth : (context.depth + t.signs.length : Int) ≤ context.maxDepth) :
    (grammar level).expressionStatement.Gives context cursor
      (fun statement ↦ ∃ range node,
        statement = .plain range (.expressionStatement node) ∧ t.Depicts node) [] := by
  have hfollows : Follows 0 (headKind tail) := by
    rcases htail with rfl | rfl
    · exact .inl (by decide)
    · exact .inl (by decide)
  have hcomma : headKind tail ≠ .mark .comma := by
    rcases htail with rfl | rfl <;> nofun
  refine current_gives_token.bind fun start place _ hplace ↦ ?_
  have hplace := hahead.part (List.nil_append _).symm (hplace.trans hahead.signs)
  refine (hfits.readsAs.expression hplace hlevel hdepth hfollows hcomma).bind
    fun node behind hnode hbehind ↦ ?_
  refine (semicolon_gives hahead.final_kind (by rwa [hbehind])).bind fun _ last _ hlast ↦ ?_
  exact node_gives hlast fun range ↦ ⟨range, node, rfl, hnode⟩

/-- The tokens of a term, perhaps with a semicolon behind them, are read as a program of one
expression. -/
theorem Fits.parse (hfits : Fits .assignment t) (hfinal : final.kind = .eof) {tail : List Sign}
    (htail : tail = [] ∨ tail = [Mark.semicolon.sign])
    (hsigns : front.map Token.sign = t.signs ++ tail)
    (hdepth : (t.signs.length + 1 : Int) ≤ options.maxDepth) :
    ∃ range range' node, Program.parse options (front ++ [final]) =
        .ok ⟨.surface range (.program [.plain range' (.expressionStatement node)]), []⟩ ∧
      t.Depicts node := by
  simp only [Program.parse, Program.splitFinal_concat hfinal]
  have hlength : t.signs.length ≤ front.length := by
    have := congrArg List.length hsigns
    simp only [List.length_map, List.length_append] at this
    omega
  have hpos := hfits.length_pos nofun
  obtain ⟨rounds, hrounds⟩ : ∃ r, front.length = r + 1 := ⟨front.length - 1, by omega⟩
  obtain ⟨level, hlevel⟩ : ∃ l, levelsPerToken * (front.length + 1) = l + 1 :=
    ⟨levelsPerToken * (front.length + 1) - 1, by simp only [levelsPerToken]; omega⟩
  obtain ⟨_, behind, hrun, ⟨range', node, rfl, hnode⟩, hbehind⟩ :
      (grammar (level + 1)).statement.Gives { final := final, maxDepth := options.maxDepth }
        { after := front } (fun statement ↦ ∃ range node,
          statement = .plain range (.expressionStatement node) ∧ t.Depicts node) [] := by
    have hcursor : ({ after := front } : TokenCursor).signs = t.signs ++ tail := hsigns
    refine statementStep_gives hfits hcursor hfinal (by dsimp only; omega) ?_ ?_
    · rcases htail with rfl | rfl <;> nofun
    · refine expressionStatement_gives hfits htail ⟨hcursor, ?_, hfinal, rfl⟩ ?_ ?_
      · rw [hcursor]
        simp only [List.forall_mem_append]
        refine ⟨hfits.noArrow, ?_⟩
        rcases htail with rfl | rfl <;> simp
      · simp only [levelsPerToken] at hlevel
        omega
      · dsimp only
        omega
  have hempty : behind.after = [] := List.map_eq_nil_iff.mp hbehind
  have hne : front ≠ [] := List.ne_nil_of_length_pos (by omega)
  rw [hlevel, Program.statements, if_neg (by simpa using hne), hrun, hrounds]
  dsimp only
  rw [Program.statements, if_pos (by simp [hempty])]
  exact ⟨_, range', node, rfl, hnode⟩

end Term

end SignalView
