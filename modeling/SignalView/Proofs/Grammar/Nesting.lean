import SignalView.Grammar.Program
import SignalView.Proofs.Grammar.Levels
import SignalView.Proofs.Syntax.Nesting

/-!
# How deeply programs are nested

The limit on nesting bounds the ways down a tree on which chained constructs do not count. Between
two guards there are a few constructs only, unless they are chained, so each level of nesting is
good for a fixed number of them.
-/

namespace SignalView.Grammar

open Parse Branch

/-- What the branch points of a grammar give with some levels of nesting left. What is guarded has a
bound, and everything that is read between two guards exceeds it by a little. -/
structure NestsAt (g : Grammar) (levels n : Nat) : Prop where
  statement : g.statement.Under levels (Node.Nested false n)
  assignment : g.assignment.Under levels (Node.Nested false n)
  element : g.element.Under levels (Node.Nested false n)
  unary : g.unary.Under levels (Node.Nested false (n + 4))
  binary (least : Nat) : (g.binary least).Under levels fun node ↦
    node.Nested false (n + 5) ∧ (node.isOperation = false → node.Nested false (n + 4))
  construction : g.construction.Under levels (Node.Nested false (n + 3))
  primary : g.primary.Under levels (Node.Nested false (n + 3))
  bindingTarget : g.bindingTarget.Under levels (Node.Nested true (n + 2))

section NestsAt

variable {g : Grammar} {levels n : Nat} (h : g.NestsAt levels n)
include h

/-! ## Operands -/

theorem expression_under : g.expression.Under levels (Node.Nested false (n + 1)) := by
  unfold expression
  refine .skip fun start ↦ h.assignment.bind fun first hfirst ↦ .guard ?_ ?_
  · refine (Under.manyWhile h.assignment).bind fun rest hrest ↦ .node fun range ↦ ?_
    exact .of_children rfl (List.forall_mem_cons.mpr ⟨hfirst, hrest⟩)
  · exact .pure (hfirst.mono (by omega))

omit h in
theorem spreadOr_under {part otherwise : Parse Node} {m : Nat}
    (hpart : part.Under levels (Node.Nested false m))
    (hother : otherwise.Under levels (Node.Nested false (m + 1))) :
    (spreadOr part otherwise).Under levels (Node.Nested false (m + 1)) := by
  refine .skip fun start ↦ .guard (hpart.bind fun argument hargument ↦ .node fun range ↦ ?_) hother
  exact .of_children rfl (by simpa [Plain.children] using hargument)

theorem item_under :
    (spreadOr g.assignment g.assignment).Under levels (Node.Nested false (n + 1)) :=
  spreadOr_under h.assignment (h.assignment.mono fun _ hnode ↦ hnode.mono (by omega))

theorem arguments_under :
    g.arguments.Under levels fun args ↦ ∀ arg ∈ args, arg.Nested false (n + 1) := by
  unfold arguments
  refine .skip fun _ ↦ (Under.allowingIn (.commaList (item_under h))).bind fun args hargs ↦ ?_
  exact .skip fun _ ↦ .pure hargs

theorem templateLiteral_under : g.templateLiteral.Under levels (Node.Nested false (n + 2)) := by
  unfold templateLiteral
  refine .skip fun start ↦ .guard (.node fun range ↦ ?_) (.skip fun head ↦ ?_)
  · exact .of_children rfl (by simp [Plain.children])
  · refine (Under.allowingIn (.iterate (P := fun parts : List Bytes × List Node ↦
      ∀ hole ∈ parts.2, hole.Nested false (n + 1)) (fun parts hparts ↦ ?_) g.rounds (by simp))).bind
      fun parts hparts ↦ .node fun range ↦ .of_children rfl hparts
    refine (expression_under h).bind fun hole hhole ↦ .skip fun piece ↦ .guard (.pure ?_)
      (.skip fun tail ↦ .pure ?_)
    · exact Under.forall_mem_concat hparts hhole
    · exact Under.forall_mem_concat hparts hhole

section Chains

variable {receiver : Node} (hreceiver : receiver.Nested false (n + 3))
include hreceiver

omit h in
theorem call_nested {args : List Node} (hargs : ∀ arg ∈ args, arg.Nested false (n + 1))
    (range : Range) (typeArguments : List Bytes) (optional : Bool) :
    (Node.plain range (.call receiver typeArguments args optional)).Nested false (n + 3) := by
  refine .plain (by omega) ?_
  simpa [Plain.branches, or_imp, forall_and] using
    ⟨hreceiver, fun arg harg ↦ (hargs arg harg).mono (Nat.le_succ _)⟩

omit h in
theorem member_nested {key : MemberKey Node}
    (hkey : ∀ index ∈ key.children, index.Nested false (n + 1)) (range : Range) (optional : Bool) :
    (Node.plain range (.member receiver key optional)).Nested false (n + 3) := by
  refine .plain (by omega) ?_
  simpa [Plain.branches, or_imp, forall_and] using
    ⟨hreceiver, fun index hindex ↦ (hkey index hindex).mono (Nat.le_succ _)⟩

omit h in
theorem taggedTemplate_nested {quasi : Node} (hquasi : quasi.Nested false (n + 2)) (range : Range)
    (typeArguments : List Bytes) :
    (Node.plain range (.taggedTemplate receiver typeArguments quasi)).Nested false (n + 3) := by
  refine .plain (by omega) ?_
  simpa [Plain.branches, or_imp, forall_and] using ⟨hreceiver, hquasi⟩

theorem optionalLink_under (start : Token) :
    (g.optionalLink start receiver).Under levels (Node.Nested false (n + 3)) := by
  unfold optionalLink
  refine .guard ((arguments_under h).bind fun args hargs ↦ .node fun range ↦ ?_) (.guard ?_ ?_)
  · exact call_nested hreceiver hargs range _ _
  · refine (expression_under h).bind fun index hindex ↦ .skip fun _ ↦ .node fun range ↦ ?_
    exact member_nested hreceiver (by simpa [MemberKey.children] using hindex) range _
  · refine .skip fun name ↦ .node fun range ↦ ?_
    exact member_nested hreceiver (by simp [MemberKey.children]) range _

theorem genericLink_under (start : Token) :
    (g.genericLink start receiver).Under levels fun next ↦
      ∀ node ∈ next, node.Nested false (n + 3) := by
  unfold genericLink
  refine .skip fun kind ↦ ?_
  split
  · refine .skip fun _ ↦ (arguments_under h).bind fun args hargs ↦ ?_
    refine (Under.node fun range ↦ call_nested hreceiver hargs range _ _).bind fun _ hnode ↦ ?_
    exact .pure (by simpa using hnode)
  · refine .skip fun _ ↦ (templateLiteral_under h).bind fun quasi hquasi ↦ ?_
    refine (Under.node fun range ↦ taggedTemplate_nested hreceiver hquasi range _).bind ?_
    exact fun _ hnode ↦ .pure (by simpa using hnode)
  · refine .skip fun _ ↦ (templateLiteral_under h).bind fun quasi hquasi ↦ ?_
    refine (Under.node fun range ↦ taggedTemplate_nested hreceiver hquasi range _).bind ?_
    exact fun _ hnode ↦ .pure (by simpa using hnode)
  · exact .pure (by simp)

theorem link_under (start : Token) (calls : Bool) :
    (g.link start calls receiver).Under levels fun next ↦
      ∀ node ∈ next, node.Nested false (n + 3) := by
  have hsome {node : Parse Node} (hnode : node.Under levels (Node.Nested false (n + 3))) :
      (do return some (← node) : Parse (Option Node)).Under levels fun next ↦
        ∀ node ∈ next, node.Nested false (n + 3) :=
    hnode.bind fun _ hnode ↦ .pure (by simpa using hnode)
  unfold link
  refine .skip fun token ↦ ?_
  split
  · refine .skip fun _ ↦ .skip fun name ↦ hsome (.node fun range ↦ ?_)
    exact member_nested hreceiver (by simp [MemberKey.children]) range _
  · exact .skip fun _ ↦ hsome (optionalLink_under h hreceiver start)
  · refine .skip fun _ ↦ (Under.allowingIn (expression_under h)).bind fun index hindex ↦ ?_
    refine .skip fun _ ↦ hsome (.node fun range ↦ ?_)
    exact member_nested hreceiver (by simpa [MemberKey.children] using hindex) range _
  · refine .ite ((arguments_under h).bind fun args hargs ↦ hsome (.node fun range ↦ ?_)) ?_
    · exact call_nested hreceiver hargs range _ _
    · exact .pure (by simp)
  · exact .ite (genericLink_under h hreceiver start) (.pure (by simp))
  · refine (templateLiteral_under h).bind fun quasi hquasi ↦ hsome (.node fun range ↦ ?_)
    exact taggedTemplate_nested hreceiver hquasi range _
  · refine (templateLiteral_under h).bind fun quasi hquasi ↦ hsome (.node fun range ↦ ?_)
    exact taggedTemplate_nested hreceiver hquasi range _
  · refine .guard (.skip fun _ ↦ hsome (.node fun range ↦ ?_)) (.pure (by simp))
    exact .plain (by omega) (by simpa [Plain.branches] using hreceiver)
  · exact .pure (by simp)

theorem chain_under (start : Token) (calls : Bool) :
    (g.chain start calls receiver).Under levels (Node.Nested false (n + 3)) := by
  refine .iterate (fun receiver hreceiver ↦ ?_) g.rounds hreceiver
  refine (link_under h hreceiver start calls).bind fun next hnext ↦ ?_
  cases next with
  | none => exact .pure hreceiver
  | some next => exact .pure (hnext next rfl)

end Chains

theorem operand_under : g.operand.Under levels (Node.Nested false (n + 3)) :=
  .guard h.construction h.primary

theorem leftHandSide_under : g.leftHandSide.Under levels (Node.Nested false (n + 3)) := by
  refine .skip fun start ↦ (operand_under h).bind fun first hfirst ↦ ?_
  exact chain_under h hfirst start true

theorem decorators_under :
    g.decorators.Under levels fun nodes ↦ ∀ node ∈ nodes, node.Nested false (n + 3) :=
  .manyWhile (leftHandSide_under h)

theorem constructionStep_under : g.constructionStep.Under levels (Node.Nested false (n + 3)) := by
  unfold constructionStep
  refine .skip fun start ↦ .skip fun _ ↦ .guard ?_ (.skip fun calleeStart ↦ ?_)
  · have hkeyword : (node start (.identifier (bytes "new"))).Under levels
        (Node.Nested false (n + 3)) :=
      .node fun range ↦ .of_children rfl (by simp [Plain.children])
    refine hkeyword.bind fun keyword hkeyword ↦ .skip fun name ↦ .node fun range ↦ ?_
    exact member_nested hkeyword (by simp [MemberKey.children]) range _
  · refine (operand_under h).bind fun first hfirst ↦ ?_
    refine (chain_under h hfirst calleeStart false).bind fun callee hcallee ↦ ?_
    refine .skip fun _ ↦ .choice .any .any fun typeArguments _ ↦ ?_
    refine (Under.optionally (arguments_under h)).bind fun args hargs ↦ .node fun range ↦ ?_
    refine .plain (by omega) ?_
    have hall : ∀ arg ∈ args.getD [], arg.Nested false (n + 2) := by
      cases args with
      | none => simp
      | some args => exact fun arg harg ↦ (hargs args rfl arg harg).mono (Nat.le_succ _)
    simpa [Plain.branches, or_imp, forall_and] using ⟨hcallee, hall⟩

/-! ## Keys and patterns -/

omit h in
theorem leaf_under {inPattern : Bool} {start : Token} {form : Plain Node}
    (hleaf : form.branches inPattern = []) :
    (node start form).Under levels (Node.Nested inPattern (n + 1)) :=
  .node fun range ↦ .plain n.succ_pos (by simp [hleaf])

theorem propertyKey_under (rules : KeyRules) :
    (g.propertyKey rules).Under levels fun result ↦ result.1.Nested false (n + 1) := by
  unfold propertyKey
  refine .skip fun start ↦ .guard ?_ (.ite ?_ (.ite ?_ (.ite ?_ (.fail _ _))))
  · exact h.assignment.bind fun key hkey ↦ .skip fun _ ↦ .pure (hkey.mono (Nat.le_succ n))
  · exact (leaf_under rfl).bind fun key hkey ↦ .skip fun _ ↦ .pure hkey
  · exact .skip fun _ ↦ (leaf_under rfl).bind fun key hkey ↦ .pure hkey
  · exact .skip fun _ ↦ (leaf_under rfl).bind fun key hkey ↦ .pure hkey

theorem withDefault_under {inPattern : Bool} (start : Token) {target : Node}
    (htarget : target.Nested inPattern (if inPattern then n + 2 else n + 1)) :
    (g.withDefault start target).Under levels (Node.Nested inPattern (n + 2)) := by
  refine .guard (h.assignment.bind fun initial hinitial ↦ .node fun range ↦ ?_) (.pure ?_)
  · refine .plain (by omega) ?_
    have hinitial := hinitial.mono (Nat.le_succ n)
    cases inPattern <;>
      simpa [Plain.branches, or_imp, forall_and] using ⟨htarget, hinitial⟩
  · cases inPattern
    · exact htarget.mono (Nat.le_succ _)
    · exact htarget

theorem shorthandProperty_under (inPattern : Bool) (start : Token) {key : Node}
    (hkey : key.Nested false (n + 1)) (computed : Bool) (message : String) :
    (g.shorthandProperty start key computed message).Under levels fun p ↦
      BranchesWithin (if inPattern then n + 2 else n + 3) (p.branches inPattern) := by
  unfold shorthandProperty
  split
  · have htarget : (node start (.identifier ‹_›)).Under levels
        (Node.Nested inPattern (n + 1)) := leaf_under rfl
    refine htarget.bind fun target htarget ↦ ?_
    refine (withDefault_under h start (htarget.mono (by split <;> omega))).bind
      fun value hvalue ↦ .pure ?_
    have hkey := hkey.mono (Nat.le_succ (n + 1))
    cases inPattern <;>
      simp_all [Property.branches, Property.valueBranches]
  · exact .fail _ _

theorem bindingElement_under : g.bindingElement.Under levels (Node.Nested true (n + 2)) :=
  .skip fun start ↦ h.bindingTarget.bind fun _ htarget ↦ withDefault_under h start htarget

omit h in
theorem arrayElements_under {inPattern : Bool} {element : Parse Node}
    (helement : element.Under levels (Node.Nested inPattern (n + 1))) :
    (g.arrayElements element).Under levels fun nodes ↦
      ∀ node ∈ nodes, node.Nested inPattern (n + 1) := by
  refine .looseList (.skip fun start ↦ .guard ?_ ?_)
  · exact (leaf_under rfl).bind fun _ hnode ↦ .pure hnode
  · exact helement.bind fun _ hnode ↦ .pure hnode

theorem patternProperty_under :
    g.patternProperty.Under levels fun p ↦ BranchesWithin (n + 2) (p.branches true) := by
  unfold patternProperty
  refine .guard (h.bindingTarget.bind fun value hvalue ↦ .pure ?_) (.skip fun start ↦ ?_)
  · simpa [Property.branches, Property.valueBranches] using hvalue
  · refine (propertyKey_under h _).bind ?_
    rintro ⟨key, computed⟩ hkey
    refine .guard ?_ ?_
    · refine (bindingElement_under h).bind fun value hvalue ↦ .pure ?_
      simpa [Property.branches, Property.valueBranches, or_imp, forall_and] using ⟨hkey, hvalue⟩
    · exact shorthandProperty_under h true start hkey computed _

theorem bindingTargetStep_under : g.bindingTargetStep.Under levels (Node.Nested true (n + 2)) := by
  unfold bindingTargetStep
  refine .skip fun start ↦ .guard ?_ (.guard ?_ (.skip fun name ↦ leaf_under rfl))
  · have hspread : (spreadOr g.bindingTarget g.bindingElement).Under levels
        (Node.Nested true (n + 2)) := by
      refine .skip fun start ↦ .guard (h.bindingTarget.bind fun argument hargument ↦ ?_)
        (bindingElement_under h)
      refine .node fun range ↦ .plain (by omega) ?_
      simpa [Plain.branches] using hargument
    refine (arrayElements_under hspread).bind fun elements helements ↦ .skip fun _ ↦ ?_
    exact .node fun range ↦ .plain (by omega) (by simpa [Plain.branches] using helements)
  · refine (Under.commaList (patternProperty_under h)).bind fun properties hproperties ↦ ?_
    refine .skip fun _ ↦ .node fun range ↦ .plain (by omega) ?_
    simpa [Plain.branches, List.forall_mem_flatMap] using hproperties

/-! ## Functions -/

theorem param_under : g.param.Under levels fun p ↦ BranchesWithin (n + 3) p.branches := by
  unfold param
  refine (decorators_under h).bind fun decorators hdecorators ↦ ?_
  refine .skip fun modifiers ↦ .skip fun rest ↦ .skip fun start ↦ .skip fun isThis ↦ ?_
  refine .choice (leaf_under rfl) h.bindingTarget fun pattern hpattern ↦ ?_
  refine .skip fun optional ↦ .skip fun type ↦ ?_
  refine (Under.optionally h.assignment).bind fun initial hinitial ↦ .pure ?_
  have hinitial (node : Node) (hnode : node ∈ initial) : node.Nested false (n + 2) :=
    (hinitial node hnode).mono (by omega)
  simpa [Param.branches] using ⟨hdecorators, hpattern, hinitial⟩

theorem params_under :
    g.params.Under levels fun params ↦ ∀ p ∈ params, BranchesWithin (n + 3) p.branches := by
  refine .skip fun _ ↦ (Under.commaList (param_under h)).bind fun params hparams ↦ ?_
  exact .skip fun _ ↦ .pure hparams

theorem block_under : g.block.Under levels (Node.Nested false (n + 1)) := by
  refine .skip fun start ↦ (Under.manyWhile h.statement).bind fun body hbody ↦ .skip fun _ ↦ ?_
  exact .node fun range ↦ .of_children rfl hbody

theorem signature_under {f : Callable Node} :
    (g.signature f).Under levels fun signature ↦
      (∀ p ∈ signature.params, BranchesWithin (n + 3) p.branches) ∧ signature.body = f.body := by
  refine .skip fun typeParameters ↦ (params_under h).bind fun params hparams ↦ ?_
  exact .skip fun returnType ↦ .pure ⟨hparams, rfl⟩

omit h in
theorem callable_within {f : Callable Node}
    (hparams : ∀ p ∈ f.params, BranchesWithin (n + 3) p.branches)
    (hbody : ∀ body ∈ f.body, body.Nested false (n + 1)) : BranchesWithin (n + 3) f.branches := by
  have hbody (body : Node) (hmem : body ∈ f.body) : body.Nested false (n + 2) :=
    (hbody body hmem).mono (Nat.le_succ _)
  simpa [Callable.branches] using ⟨hparams, hbody⟩

theorem functionRest_under (bodyOptional : Bool) {f : Callable Node} (hnone : f.body = none) :
    (g.functionRest bodyOptional f).Under levels fun f ↦ BranchesWithin (n + 3) f.branches := by
  unfold functionRest
  refine (signature_under h).bind ?_
  rintro signature ⟨hparams, hbody⟩
  refine .guard ?_ (.ite ?_ (.fail _ _))
  · refine (block_under h).bind fun body hbody ↦ .pure (callable_within hparams ?_)
    simpa using hbody
  · exact .skip fun _ ↦ .pure (callable_within hparams (by simp [hbody, hnone]))

theorem methodFunction_under (bodyOptional isAsync isGenerator : Bool) :
    (g.methodFunction bodyOptional isAsync isGenerator).Under levels (Node.Nested false (n + 3)) :=
  .skip fun start ↦ (functionRest_under h bodyOptional rfl).bind fun f hf ↦
    .node fun range ↦ .plain (by omega) hf

/-! ## Classes -/

omit h in
theorem classMember_within {m : ClassMember Node}
    (hdecorators : ∀ node ∈ m.decorators, node.Nested false (n + 3))
    (hkey : ∀ key ∈ m.key, key.Nested false (n + 1))
    (hvalue : ∀ value ∈ m.value, value.Nested false (if m.kind = .property then n else n + 3))
    (hblock : ∀ block ∈ m.block, block.Nested false (n + 1)) :
    BranchesWithin (n + 3) m.branches := by
  have hkey (key : Node) (hmem : key ∈ m.key) : key.Nested false (n + 2) :=
    (hkey key hmem).mono (Nat.le_succ _)
  have hblock (block : Node) (hmem : block ∈ m.block) : block.Nested false (n + 2) :=
    (hblock block hmem).mono (Nat.le_succ _)
  have hvalue : BranchesWithin (n + 3) (if m.kind = .property then counted m.value.toList
      else chained m.value.toList) := by
    by_cases hkind : m.kind = .property
    · rw [if_pos hkind] at hvalue ⊢
      simpa using fun value hmem ↦ (hvalue value hmem).mono (by omega : n ≤ n + 2)
    · rw [if_neg hkind] at hvalue ⊢
      simpa using hvalue
  simpa [ClassMember.branches] using ⟨hdecorators, hkey, hvalue, hblock⟩

theorem namedMember_under {member : ClassMember Node}
    (hdecorators : ∀ node ∈ member.decorators, node.Nested false (n + 3))
    (hblock : member.block = none) :
    (g.namedMember member).Under levels fun m ↦ BranchesWithin (n + 3) m.branches := by
  unfold namedMember
  refine .skip fun isAsync ↦ .skip fun named ↦ .whenSo ?_
  refine .skip fun isGenerator ↦ .skip fun accessor ↦ .skip fun start ↦ ?_
  refine (propertyKey_under h _).bind ?_
  rintro ⟨key, computed⟩ hkey
  refine .skip ?_
  rintro ⟨optional, definite⟩
  refine .guard ?_ (.ite (.fail _ _) (.skip fun type ↦ ?_))
  · refine (methodFunction_under h true _ _).bind fun value hvalue ↦ .pure ?_
    refine classMember_within hdecorators (by simpa using hkey) ?_ (by simp [hblock])
    dsimp only
    have hkind (kind : MemberKind) :
        (if kind == .property then .method else kind) ≠ .property := by
      split <;> simp_all
    rw [if_neg (hkind _)]
    simpa using hvalue
  · refine (Under.optionally h.assignment).bind fun value hvalue ↦ .skip fun _ ↦ .pure ?_
    exact classMember_within hdecorators (by simpa using hkey) hvalue (by simp [hblock])

theorem classMember_under :
    g.classMember.Under levels fun m ↦ BranchesWithin (n + 3) m.branches := by
  unfold classMember
  refine (decorators_under h).bind fun decorators hdecorators ↦ .skip fun modifiers ↦ ?_
  refine .skip fun opens ↦ .ite ?_ (.skip fun _ ↦ .skip fun _ ↦ .skip fun _ ↦ .ite ?_ ?_)
  · refine (block_under h).bind fun block hblock ↦ .pure ?_
    exact classMember_within hdecorators (by simp) (by simp) (by simpa using hblock)
  · refine .skip fun type ↦ .skip fun _ ↦ .pure ?_
    exact classMember_within hdecorators (by simp) (by simp) (by simp)
  · exact namedMember_under h hdecorators rfl

theorem classBody_under :
    g.classBody.Under levels fun members ↦ ∀ m ∈ members, BranchesWithin (n + 3) m.branches := by
  unfold classBody
  refine .iterate (fun members hmembers ↦ .guard ?_ (.pure hmembers)) g.rounds (by simp)
  refine .guard (.pure hmembers) ((classMember_under h).bind fun member hmember ↦ .pure ?_)
  exact Under.forall_mem_concat hmembers hmember

theorem superClass_under :
    g.superClass.Under levels fun result ↦ ∀ node ∈ result.1, node.Nested false (n + 3) := by
  unfold superClass
  refine .guard (.skip fun start ↦ h.primary.bind fun first hfirst ↦ ?_) (.pure (by simp))
  refine (chain_under h hfirst start true).bind fun parent hparent ↦ .skip fun _ ↦ ?_
  exact .choice .any .any fun typeArguments _ ↦ .pure (by simpa using hparent)

theorem classDeclaration_under {decorators : List Node}
    (hdecorators : ∀ node ∈ decorators, node.Nested false (n + 3)) (isAbstract isDeclare : Bool) :
    (g.classDeclaration decorators isAbstract isDeclare).Under levels
      (Node.Nested false (n + 3)) := by
  unfold classDeclaration
  refine .skip fun start ↦ .skip fun _ ↦ .skip fun isNamed ↦ .skip fun _ ↦ .skip fun name ↦ ?_
  refine .skip fun typeParameters ↦ (superClass_under h).bind ?_
  rintro ⟨parent, typeArguments⟩ hparent
  refine .skip fun _ ↦ .choice .any .any fun implemented _ ↦ .skip fun _ ↦ ?_
  refine (classBody_under h).bind fun members hmembers ↦ .skip fun _ ↦ .node fun range ↦ ?_
  refine .plain (by omega) ?_
  simpa [Plain.branches, ClassShape.branches] using ⟨hdecorators, hparent, hmembers⟩

/-! ## Primary expressions -/

theorem arrayLiteral_under : g.arrayLiteral.Under levels (Node.Nested false (n + 2)) := by
  unfold arrayLiteral
  refine .skip fun start ↦ .skip fun _ ↦ ?_
  refine (Under.allowingIn (arrayElements_under (item_under h))).bind fun elements helements ↦ ?_
  exact .skip fun _ ↦ .node fun range ↦ .of_children rfl helements

omit h in
theorem accessorProperty_under :
    accessorProperty.Under levels fun kind ↦ kind ∈ [.init, .getter, .setter] := by
  refine .skip fun token ↦ .skip fun _ ↦ .ite (.skip fun _ ↦ .pure ?_) (.pure (by simp))
  split <;> simp

omit h in
theorem property_within {p : Property Node} (hkey : ∀ key ∈ p.key, key.Nested false (n + 1))
    (hvalue : BranchesWithin (n + 3) (p.valueBranches false)) :
    BranchesWithin (n + 3) (p.branches false) := by
  have hkey (key : Node) (hmem : key ∈ p.key) : key.Nested false (n + 2) :=
    (hkey key hmem).mono (Nat.le_succ _)
  simpa [Property.branches] using ⟨hkey, hvalue⟩

theorem keyedProperty_under :
    g.keyedProperty.Under levels fun p ↦ BranchesWithin (n + 3) (p.branches false) := by
  unfold keyedProperty
  refine .skip fun isAsync ↦ .skip fun _ ↦ .skip fun _ ↦ .whenSo ?_
  refine .skip fun isGenerator ↦ accessorProperty_under.bind fun kind hkind ↦ .skip fun start ↦ ?_
  refine (propertyKey_under h _).bind ?_
  rintro ⟨key, computed⟩ hkey
  refine .guard ?_ ?_
  · refine (methodFunction_under h false _ _).bind fun value hvalue ↦ .pure ?_
    refine property_within (by simpa using hkey) ?_
    obtain rfl | rfl | rfl : kind = .init ∨ kind = .getter ∨ kind = .setter := by simpa using hkind
    all_goals simpa [Property.valueBranches] using hvalue
  · refine .ite (.fail _ _) (.guard (h.assignment.bind fun value hvalue ↦ .pure ?_) ?_)
    · have hvalue := hvalue.mono (by omega : n ≤ n + 2)
      exact property_within (by simpa using hkey) (by simpa [Property.valueBranches] using hvalue)
    · exact shorthandProperty_under h false start hkey computed _

theorem literalProperty_under :
    g.literalProperty.Under levels fun p ↦ BranchesWithin (n + 3) (p.branches false) := by
  refine .guard (h.assignment.bind fun value hvalue ↦ .pure ?_) (keyedProperty_under h)
  have hvalue := hvalue.mono (by omega : n ≤ n + 2)
  simpa [Property.branches, Property.valueBranches] using hvalue

theorem objectLiteral_under : g.objectLiteral.Under levels (Node.Nested false (n + 3)) := by
  refine .skip fun start ↦ .skip fun _ ↦ ?_
  refine (Under.allowingIn (.commaList (literalProperty_under h))).bind fun properties hprops ↦ ?_
  refine .skip fun _ ↦ .node fun range ↦ .plain (by omega) ?_
  simpa [Plain.branches] using hprops

theorem functionExpression_under :
    g.functionExpression.Under levels (Node.Nested false (n + 3)) := by
  unfold functionExpression
  refine .skip fun start ↦ .skip fun isAsync ↦ .skip fun _ ↦ .skip fun isGenerator ↦ ?_
  refine .skip fun name ↦ (functionRest_under h false rfl).bind fun f hf ↦ ?_
  exact .node fun range ↦ .plain (by omega) hf

theorem classExpression_under : g.classExpression.Under levels (Node.Nested false (n + 3)) := by
  refine .skip fun start ↦ (decorators_under h).bind fun decorators hdecorators ↦ ?_
  refine (classDeclaration_under h hdecorators false false).bind fun declaration hdeclaration ↦ ?_
  exact .surface fun range ↦ .surface (by omega) (by simpa [Surface.branches] using hdeclaration)

theorem parenthesized_under : g.parenthesized.Under levels (Node.Nested false (n + 2)) := by
  refine .skip fun start ↦ .skip fun _ ↦ (Under.allowingIn (expression_under h)).bind ?_
  refine fun inner hinner ↦ .skip fun _ ↦ .node fun range ↦ .of_children rfl ?_
  simpa [Plain.children] using hinner

omit h in
theorem nameExpression_under (start : Token) :
    (nameExpression start).Under levels (Node.Nested false (n + 3)) :=
  .ite (.skip fun _ ↦ leaf_under rfl) (.fail _ _)

theorem primaryStep_under : g.primaryStep.Under levels (Node.Nested false (n + 3)) := by
  have hleaf (start : Token) {form : Plain Node} (hform : form.branches false = []) :
      (leaf start form).Under levels (Node.Nested false (n + 3)) := .skip fun _ ↦ leaf_under hform
  unfold primaryStep
  refine .skip fun start ↦ ?_
  split
  · exact hleaf start rfl
  · exact hleaf start rfl
  · exact hleaf start rfl
  · exact (templateLiteral_under h).mono fun _ hnode ↦ hnode.mono (Nat.le_succ _)
  · exact (templateLiteral_under h).mono fun _ hnode ↦ hnode.mono (Nat.le_succ _)
  · exact hleaf start rfl
  · exact hleaf start rfl
  · exact hleaf start rfl
  · exact hleaf start rfl
  · exact hleaf start rfl
  · exact hleaf start rfl
  · exact hleaf start rfl
  · exact (parenthesized_under h).mono fun _ hnode ↦ hnode.mono (Nat.le_succ _)
  · exact (arrayLiteral_under h).mono fun _ hnode ↦ hnode.mono (Nat.le_succ _)
  · exact objectLiteral_under h
  · exact functionExpression_under h
  · refine .skip fun _ ↦ .skip fun _ ↦ .ite (functionExpression_under h) ?_
    exact nameExpression_under start
  · exact classExpression_under h
  · exact classExpression_under h
  · exact h.element.mono fun _ hnode ↦ hnode.mono (by omega)
  · exact nameExpression_under start

/-! ## Operators -/

theorem incremented_under : g.incremented.Under levels (Node.Nested false (n + 4)) := by
  unfold incremented
  refine .skip fun start ↦ (leftHandSide_under h).bind fun operand hoperand ↦ ?_
  refine .skip fun _ ↦ .skip fun _ ↦ .ite (.skip fun op ↦ .node fun range ↦ ?_) (.pure ?_)
  · exact .of_children rfl (by simpa [Plain.children] using hoperand)
  · exact hoperand.mono (Nat.le_succ _)

omit h in
theorem cast_nested {left : Node} (hleft : left.Nested false (n + 5)) (range : Range)
    (type keyword : Bytes) : (Node.plain range (.cast left type keyword)).Nested false (n + 5) :=
  .plain (by omega) (by simpa [Plain.branches] using hleft)

omit h in
theorem binary_nested {left right : Node} (hleft : left.Nested false (n + 5))
    (hright : right.Nested false (n + 5))
    (hoperand : right.isOperation = false → right.Nested false (n + 4)) (range : Range)
    (op : Bytes) : (Node.plain range (.binary op left right)).Nested false (n + 5) := by
  refine .plain (by omega) ?_
  cases hoperation : right.isOperation with
  | false => simpa [Plain.branches, hoperation] using ⟨hleft, hoperand hoperation⟩
  | true => simpa [Plain.branches, hoperation] using ⟨hleft, hright⟩

theorem binaryLink_under (least : Nat) (start : Token) {left : Node}
    (hleft : left.Nested false (n + 5)) :
    (g.binaryLink least start left).Under levels fun next ↦
      ∀ node ∈ next, node.isOperation = true ∧ node.Nested false (n + 5) := by
  have hsome {form : Plain Node} (hoperation : ∀ range, (Node.plain range form).isOperation = true)
      (hform : ∀ range, (Node.plain range form).Nested false (n + 5)) :
      (do return some (← node start form) : Parse (Option Node)).Under levels fun next ↦
        ∀ node ∈ next, node.isOperation = true ∧ node.Nested false (n + 5) :=
    (Under.node (Q := fun node ↦ node.isOperation = true ∧ node.Nested false (n + 5)) fun range ↦
      ⟨hoperation range, hform range⟩).bind fun _ hnode ↦ .pure (by simpa using hnode)
  unfold binaryLink
  refine .skip fun token ↦ .ite (.pure (by simp)) (.skip fun _ ↦ ?_)
  refine .ite (.pure (by simp)) (.ite ?_ ?_)
  · refine .ite (.pure (by simp)) (.skip fun _ ↦ .skip fun type ↦ ?_)
    exact hsome (fun _ ↦ rfl) fun range ↦ cast_nested hleft range type _
  · refine .skip fun _ ↦ (h.binary _).bind ?_
    rintro right ⟨hright, hoperand⟩
    exact hsome (fun _ ↦ rfl) fun range ↦ binary_nested hleft hright hoperand range _

theorem binaryStep_under (least : Nat) : (g.binaryStep least).Under levels fun node ↦
    node.Nested false (n + 5) ∧ (node.isOperation = false → node.Nested false (n + 4)) := by
  unfold binaryStep
  refine .skip fun start ↦ h.unary.bind fun first hfirst ↦ ?_
  refine .iterate (fun left hleft ↦ ?_) g.rounds ⟨hfirst.mono (Nat.le_succ _), fun _ ↦ hfirst⟩
  refine (binaryLink_under h least start hleft.1).bind fun next hnext ↦ ?_
  cases next with
  | none => exact .pure hleft
  | some next =>
    obtain ⟨hoperation, hnested⟩ := hnext next rfl
    exact .pure ⟨hnested, fun hnone ↦ by simp [hoperation] at hnone⟩

theorem conditional_under : g.conditional.Under levels (Node.Nested false (n + 6)) := by
  unfold conditional
  refine .skip fun start ↦ (h.binary 1).bind fun test htest ↦ .guard ?_ (.pure ?_)
  · refine (Under.allowingIn h.assignment).bind fun consequent hconsequent ↦ .skip fun _ ↦ ?_
    refine h.assignment.bind fun alternate halternate ↦ .node fun range ↦ .of_children rfl ?_
    have hconsequent := hconsequent.mono (by omega : n ≤ n + 5)
    have halternate := halternate.mono (by omega : n ≤ n + 5)
    simpa [Plain.children] using ⟨htest.1, hconsequent, halternate⟩
  · exact htest.1.mono (Nat.le_succ _)

theorem arrowParams_under : g.arrowParams.Under levels fun result ↦
    ∀ p ∈ result.1, BranchesWithin (n + 3) p.branches := by
  unfold arrowParams
  refine .guard ((params_under h).bind fun params hparams ↦ .skip fun _ ↦ .pure hparams) ?_
  refine .skip fun start ↦ .skip fun name ↦ ?_
  have hname : (node start (.identifier name)).Under levels (Node.Nested true (n + 2)) :=
    leaf_under rfl
  exact hname.bind fun pattern hpattern ↦ .pure (by simpa [Param.branches] using hpattern)

theorem arrowFunction_under (isAsync : Bool) :
    (g.arrowFunction isAsync).Under levels (Node.Nested false (n + 3)) := by
  unfold arrowFunction
  refine .choice .any .any fun start _ ↦ .skip fun typeParameters ↦ ?_
  refine (arrowParams_under h).bind ?_
  rintro ⟨params, returnType⟩ hparams
  refine .skip fun _ ↦ .skip fun _ ↦ ?_
  have harrow (body : ArrowBody Node) (hbody : body.node.Nested false (n + 1)) :
      (node start (.arrow ⟨typeParameters, params, returnType, body, isAsync⟩)).Under levels
        (Node.Nested false (n + 3)) := by
    refine .node fun range ↦ .plain (by omega) ?_
    have hbody := hbody.mono (Nat.le_succ _)
    simpa [Plain.branches, Arrow.branches] using ⟨hparams, hbody⟩
  refine .ite ((Under.allowingIn (block_under h)).bind fun body hbody ↦ ?_)
    (h.assignment.bind fun body hbody ↦ ?_)
  · exact harrow (.block body) hbody
  · exact harrow (.expression body) (hbody.mono (Nat.le_succ n))

theorem yielding_under : g.yielding.Under levels (Node.Nested false (n + 1)) := by
  unfold yielding
  refine .skip fun start ↦ .skip fun _ ↦ .skip fun delegate ↦ .skip fun next ↦ ?_
  refine (Under.optionally h.assignment).bind fun argument hargument ↦ .node fun range ↦ ?_
  exact .of_children rfl (by simpa [Plain.children] using hargument)

end NestsAt

/-! ## From one level to the next -/

/-- Seven constructs fit between one level of nesting and the next. -/
def Nests (g : Grammar) : Prop := ∀ levels, g.NestsAt levels (7 * levels)

variable {g : Grammar} (h : g.Nests)
include h

theorem assignmentStep_under (levels : Nat) :
    g.assignmentStep.Under levels (Node.Nested false (7 * levels)) := by
  refine .nested fun fewer hlevels ↦ ?_
  subst hlevels
  have h := h fewer
  have hmono {action : Parse Node} {m : Nat} (haction : action.Under fewer (Node.Nested false m))
      (hm : m ≤ 7 * fewer + 7) : action.Under fewer (Node.Nested false (7 * fewer + 7)) :=
    haction.mono fun _ hnode ↦ hnode.mono hm
  refine .skip fun start ↦ .guard (.skip fun _ ↦ ?_) (.guard ?_ (.guard ?_ ?_))
  · exact hmono (arrowFunction_under h true) (by omega)
  · exact hmono (arrowFunction_under h false) (by omega)
  · exact hmono (yielding_under h) (by omega)
  · refine (conditional_under h).bind fun target htarget ↦ .skip fun token ↦ ?_
    have hdone : (pure target : Parse Node).Under fewer (Node.Nested false (7 * fewer + 7)) :=
      .pure (htarget.mono (Nat.le_succ _))
    split
    · refine .ite (.skip fun op ↦ h.assignment.bind fun value hvalue ↦ .node fun range ↦ ?_) hdone
      have hvalue := hvalue.mono (by omega : 7 * fewer ≤ 7 * fewer + 6)
      exact .of_children rfl (by simpa [Plain.children] using ⟨htarget, hvalue⟩)
    · exact hdone

theorem unaryStep_under (levels : Nat) :
    g.unaryStep.Under levels (Node.Nested false (7 * levels + 4)) := by
  have hoperator {start : Token} {form : Node → Plain Node}
      (hform : ∀ operand, (form operand).branches false = counted [operand]) :
      (Parse.nested do
        advance
        let operand ← g.unary
        node start (form operand)).Under levels (Node.Nested false (7 * levels + 4)) := by
    refine .nested fun fewer hlevels ↦ .skip fun _ ↦ ?_
    refine (h fewer).unary.bind fun operand hoperand ↦ .node fun range ↦ .plain (by omega) ?_
    have hoperand := hoperand.mono (by omega : 7 * fewer + 4 ≤ 7 * levels + 3)
    simpa [hform] using hoperand
  have hincremented := incremented_under (h levels)
  unfold unaryStep
  refine .skip fun start ↦ ?_
  split
  · exact hoperator fun _ ↦ rfl
  · exact hoperator fun _ ↦ rfl
  · exact hoperator fun _ ↦ rfl
  · exact hoperator fun _ ↦ rfl
  · exact hoperator fun _ ↦ rfl
  · exact hoperator fun _ ↦ rfl
  · exact hoperator fun _ ↦ rfl
  · exact hoperator fun _ ↦ rfl
  · exact hoperator fun _ ↦ rfl
  · exact .skip fun _ ↦ .ite hincremented (hoperator fun _ ↦ rfl)
  · exact hincremented

end SignalView.Grammar
