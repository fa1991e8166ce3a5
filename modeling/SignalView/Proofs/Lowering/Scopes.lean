import SignalView.Proofs.Lowering.Outcome
import SignalView.Proofs.Scope.Extension

/-!
# Lowering keeps scopes

Scopes are opened and closed by hand in many constructs. Whatever an action of the lowering does, if
it gives a value then the table has been extended: the scopes that are open are the ones that were
open before, and new symbols are in the current one only. What can be new there is known from the
syntax of a statement; an expression declares nothing.
-/

namespace SignalView

/-! ## Patterns -/

namespace Node

theorem boundNames_identifier (range : Range) (name : Bytes) :
    (Node.plain range (.identifier name)).boundNames = [name] := by
  rw [boundNames]

theorem boundNames_array (range : Range) (elements : List Node) :
    (Node.plain range (.array elements)).boundNames = elements.flatMap (·.boundNames) := by
  simp [boundNames, Plain.subpatterns]

theorem boundNames_of_name? {node : Node} {name : Bytes} (h : node.name? = some name) :
    node.boundNames = [name] := by
  unfold name? at h
  split at h
  · cases h
    exact boundNames_identifier _ _
  · cases h

theorem mem_boundNames_of_name? {node : Node} {name : Bytes} (h : node.name? = some name) :
    name ∈ node.boundNames := by
  rw [boundNames_of_name? h]
  exact List.mem_cons_self

end Node

/-! ## States -/

/-- The second facts are the first with more found out. -/
structure ComponentFacts.Grows (f g : ComponentFacts) : Prop where
  dependencies : f.dependencies <+: g.dependencies
  usesSignals : f.usesSignals → g.usesSignals
  hasListeners : f.hasListeners → g.hasListeners

namespace ComponentFacts.Grows

variable {f g h : ComponentFacts}

theorem refl (f : ComponentFacts) : f.Grows f := ⟨List.prefix_rfl, id, id⟩

theorem trans (hfg : f.Grows g) (hgh : g.Grows h) : f.Grows h where
  dependencies := hfg.dependencies.trans hgh.dependencies
  usesSignals := hgh.usesSignals ∘ hfg.usesSignals
  hasListeners := hgh.hasListeners ∘ hfg.hasListeners

variable {first second third : Option ComponentFacts}

theorem option_refl (current : Option ComponentFacts) : Option.Rel Grows current current := by
  cases current with
  | none => exact .none
  | some facts => exact .some (.refl facts)

theorem option_trans (hfirst : Option.Rel Grows first second)
    (hsecond : Option.Rel Grows second third) : Option.Rel Grows first third := by
  cases hfirst with
  | none => exact hsecond
  | some hgrows =>
    cases hsecond with
    | some hgrows' => exact .some (hgrows.trans hgrows')

theorem eq_none (h : Option.Rel Grows none second) : second = none := by
  cases h
  rfl

end ComponentFacts.Grows

/-- The second state comes from the first in the same scope of the same component. -/
structure LoweringState.Extends (names : Set Bytes) (s t : LoweringState) : Prop where
  symbols : s.symbols.Extends names t.symbols
  current : Option.Rel ComponentFacts.Grows s.current t.current

namespace LoweringState.Extends

variable {names more : Set Bytes} {s t u : LoweringState}

theorem of_eq (hsymbols : t.symbols = s.symbols) (hcurrent : t.current = s.current) :
    s.Extends names t := by
  exact ⟨hsymbols ▸ .refl _, hcurrent ▸ ComponentFacts.Grows.option_refl _⟩

theorem refl (s : LoweringState) : s.Extends names s := of_eq rfl rfl

theorem trans (h : s.Extends names t) (h' : t.Extends names u) : s.Extends names u :=
  ⟨h.symbols.trans h'.symbols, ComponentFacts.Grows.option_trans h.current h'.current⟩

theorem mono (h : s.Extends names t) (hmore : names ⊆ more) : s.Extends more t :=
  ⟨h.symbols.mono hmore, h.current⟩

end LoweringState.Extends

/-! ## Actions -/

namespace Lower

variable {α β : Type} {names more : Set Bytes} {action : Lower α} {next : α → Lower β}

theorem inScope_eq_ok {kind : ScopeKind} {s t : LoweringState} {value : α} :
    inScope kind action s = (.ok value, t) ↔
      ∃ middle, action { s with symbols := s.symbols.enter kind } = (.ok value, middle) ∧
        t = { middle with symbols := middle.symbols.exit } := by
  change (action >>= fun value ↦ (modify _ >>= fun _ ↦ pure value)) _ = _ ↔ _
  rw [bind_eq_ok]
  constructor
  · rintro ⟨_, middle, haction, ⟨⟩⟩
    exact ⟨middle, haction, rfl⟩
  · rintro ⟨middle, haction, rfl⟩
    exact ⟨value, middle, haction, rfl⟩

theorem collectingFacts_eq_ok {s t : LoweringState} {result : α × ComponentFacts} :
    Lowering.collectingFacts action s = (.ok result, t) ↔
      ∃ middle, action { s with current := some {} } = (.ok result.1, middle) ∧
        result.2 = middle.current.getD {} ∧ t = { middle with current := s.current } := by
  change (action >>= fun value ↦ (state >>= fun u ↦
    (modify _ >>= fun _ ↦ pure (value, u.current.getD {})))) _ = _ ↔ _
  rw [bind_eq_ok]
  constructor
  · rintro ⟨value, middle, haction, ⟨⟩⟩
    exact ⟨middle, haction, rfl, rfl⟩
  · rintro ⟨middle, haction, hfacts, rfl⟩
    obtain ⟨value, facts⟩ := result
    subst hfacts
    exact ⟨value, middle, haction, rfl⟩

/-- When the action gives a value, the scopes are the same ones as before, and what is new in the
current one has some of the names. -/
def Keeps (names : Set Bytes) (action : Lower α) : Prop :=
  ∀ ⦃s value t⦄, action s = (.ok value, t) → s.Extends names t

namespace Keeps

theorem mono (h : action.Keeps names) (hmore : names ⊆ more) : action.Keeps more :=
  fun _ _ _ hrun ↦ (h hrun).mono hmore

theorem pure (value : α) : (Pure.pure value : Lower α).Keeps names := by
  intro s _ t hrun
  cases hrun
  exact .refl s

theorem bind (h : action.Keeps names) (hnext : ∀ value, (next value).Keeps names) :
    (action >>= next).Keeps names := by
  intro s result t hrun
  obtain ⟨value, middle, hvalue, hresult⟩ := bind_eq_ok.mp hrun
  exact (h hvalue).trans (hnext value hresult)

theorem ite {c : Prop} [Decidable c] {other : Lower α} (h : action.Keeps names)
    (hother : other.Keeps names) : (if c then action else other).Keeps names := by
  split
  · exact h
  · exact hother

/-- An action that may be left out goes in front of the rest. -/
theorem iteThen {c : Prop} [Decidable c] {action : Lower Unit} {next : Unit → Lower β}
    (h : action.Keeps names) (hnext : (next ()).Keeps names) :
    (if c then action >>= next else next ()).Keeps names :=
  ite (h.bind fun _ ↦ hnext) hnext

theorem fail (failure : Failure) : (Lower.fail failure : Lower α).Keeps names := by
  intro s _ t hrun
  cases hrun

theorem failAt (code : String) (message : Bytes) (line column : Nat) :
    (Lower.failAt code message line column : Lower α).Keeps names :=
  fail _

theorem state : Lower.state.Keeps names := by
  intro s _ t hrun
  cases hrun
  exact .refl s

/-! ## Changes of the state -/

theorem modify {change : LoweringState → LoweringState}
    (h : ∀ s : LoweringState, s.Extends names (change s)) :
    (Lower.modify change).Keeps names := by
  intro s _ t hrun
  cases hrun
  exact h s

theorem remark (level : Log.Level) (phase : Phase) (message : Bytes) :
    (Lower.remark level phase message).Keeps names :=
  modify fun _ ↦ .of_eq rfl rfl

theorem report (diagnostic : Diagnostic) : (Lower.report diagnostic).Keeps names :=
  (remark _ _ _).bind fun _ ↦ modify fun _ ↦ .of_eq rfl rfl

theorem noteFact {change : ComponentFacts → ComponentFacts}
    (h : ∀ facts : ComponentFacts, facts.Grows (change facts)) :
    (Lower.noteFact change).Keeps names := by
  refine modify fun s ↦ ⟨.refl _, ?_⟩
  cases s.current with
  | none => exact .none
  | some facts => exact .some (h facts)

theorem noteDependencies (more : List Bytes) : (Lower.noteDependencies more).Keeps names :=
  noteFact fun _ ↦ ⟨List.prefix_append _ _, id, id⟩

theorem noteListener : Lower.noteListener.Keeps names :=
  noteFact fun _ ↦ ⟨List.prefix_rfl, id, fun _ ↦ rfl⟩

theorem noteSignals : Lower.noteSignals.Keeps names :=
  noteFact fun _ ↦ ⟨List.prefix_rfl, fun _ ↦ rfl, id⟩

theorem markUsed (name : Bytes) : (Lower.markUsed name).Keeps names :=
  modify fun s ↦ ⟨s.symbols.markUsed_extends name, ComponentFacts.Grows.option_refl _⟩

/-- A scope that is opened is closed again, and what was declared in it goes with it. -/
theorem inScope (h : action.Keeps Set.univ) (kind : ScopeKind) :
    (Lower.inScope kind action).Keeps names := by
  intro s value t hrun
  obtain ⟨middle, haction, rfl⟩ := inScope_eq_ok.mp hrun
  exact ⟨(h haction).symbols.exit, (h haction).current⟩

/-- The facts about the enclosing component wait while those about another one are collected. -/
theorem collectingFacts (h : action.Keeps names) :
    (Lowering.collectingFacts action).Keeps names := by
  intro s result t hrun
  obtain ⟨middle, haction, -, rfl⟩ := collectingFacts_eq_ok.mp hrun
  exact ⟨(h haction).symbols, ComponentFacts.Grows.option_refl _⟩

/-! ## Lists and options -/

variable {f : α → Lower β}

theorem mapM {items : List α} (h : ∀ item ∈ items, (f item).Keeps names) :
    (items.mapM f).Keeps names := by
  induction items with
  | nil => exact pure []
  | cons item items ih =>
    rw [List.mapM_cons]
    refine (h item List.mem_cons_self).bind fun _ ↦ ?_
    exact (ih fun _ hmem ↦ h _ (List.mem_cons_of_mem _ hmem)).bind fun _ ↦ pure _

theorem forM {items : List α} {f : α → Lower PUnit} (h : ∀ item ∈ items, (f item).Keeps names) :
    (items.forM f).Keeps names := by
  induction items with
  | nil => exact pure _
  | cons item items ih =>
    refine (h item List.mem_cons_self).bind fun _ ↦ ?_
    exact ih fun _ hmem ↦ h _ (List.mem_cons_of_mem _ hmem)

theorem optionMapM {item : Option α} (h : ∀ value ∈ item, (f value).Keeps names) :
    (item.mapM f).Keeps names := by
  cases item with
  | none => exact pure none
  | some item => exact (h item rfl).bind fun _ ↦ pure _

theorem optionForM {item : Option α} {f : α → Lower PUnit}
    (h : ∀ value ∈ item, (f value).Keeps names) : (item.forM f).Keeps names := by
  cases item with
  | none => exact pure _
  | some item => exact h item rfl

end Keeps

/-! ## Names -/

theorem declare_keeps (keyword : Bytes) {name : Bytes} (hname : name ∈ names) (kind : SymbolKind)
    (type : Bytes) (line column : Nat) :
    (declare keyword name kind type line column).Keeps names := by
  refine .ite (.pure _) fun s _ t hrun ↦ ?_
  obtain ⟨_, _, ⟨⟩, hrun⟩ := bind_eq_ok.mp hrun
  cases htable : s.symbols.declare? { name, kind, type, line, column } with
  | some table =>
    simp only [htable] at hrun
    cases hrun
    exact ⟨SymbolTable.extends_declare? htable hname, ComponentFacts.Grows.option_refl _⟩
  | none =>
    simp only [htable] at hrun
    exact Keeps.ite (.report _) (.pure _) hrun

theorem declarePattern_keeps (keyword : Bytes) (kind : SymbolKind) (type : Bytes) {pattern : Node}
    (hnames : ∀ name ∈ pattern.boundNames, name ∈ names) :
    (declarePattern keyword kind type pattern).Keeps names := by
  unfold declarePattern
  split
  · next name hname =>
    exact declare_keeps _ (hnames name (Node.mem_boundNames_of_name? hname)) _ _ _ _
  · exact .forM fun name hname ↦ declare_keeps _ (hnames name hname) _ _ _ _

theorem declareParams_keeps (params : List (Param Node)) :
    (declareParams params).Keeps Set.univ :=
  .forM fun _ _ ↦ .optionForM fun _ _ ↦ declarePattern_keeps _ _ _ fun _ _ ↦ Set.mem_univ _

theorem declareSignalPair_keeps (keyword type : Bytes) (index : Nat) {elements : List Node}
    (hnames : ∀ element ∈ elements, ∀ name ∈ element.boundNames, name ∈ names) :
    (declareSignalPair keyword type index elements).Keeps names := by
  induction elements generalizing index with
  | nil => exact .pure _
  | cons element rest ih =>
    rw [List.forall_mem_cons] at hnames
    have hdeclare {name : Bytes} (hname : element.name? = some name) (kind : SymbolKind)
        (type : Bytes) : (declare keyword name kind type element.line element.column).Keeps names :=
      declare_keeps _ (hnames.1 name (Node.mem_boundNames_of_name? hname)) _ _ _ _
    unfold declareSignalPair
    split
    · next hname => exact (hdeclare hname _ _).bind fun _ ↦ ih _ hnames.2
    · next hname => exact (hdeclare hname _ _).bind fun _ ↦ ih _ hnames.2
    · exact (declarePattern_keeps _ _ _ hnames.1).bind fun _ ↦ ih _ hnames.2

theorem declareSignals_keeps (keyword : Bytes) {declarator : Declarator Node}
    (hnames : ∀ name ∈ declarator.target.boundNames, name ∈ names) :
    (declareSignals keyword declarator).Keeps names := by
  unfold declareSignals
  split
  · refine Keeps.state.bind fun s ↦ ?_
    split
    · next htarget =>
      rw [htarget, Node.boundNames_array] at hnames
      refine (declareSignalPair_keeps _ _ _ fun element helement name hname ↦ ?_).bind
        fun _ ↦ .pure _
      exact hnames name (List.mem_flatMap.mpr ⟨element, helement, hname⟩)
    · next htarget =>
      rw [htarget, Node.boundNames_identifier] at hnames
      exact (declare_keeps _ (hnames _ List.mem_cons_self) _ _ _ _).bind fun _ ↦ .pure _
    · exact .pure _
  · exact .pure _

theorem resolve_keeps (name : Bytes) : (resolve name).Keeps names := by
  refine Keeps.state.bind fun s ↦ ?_
  split
  · refine (Keeps.markUsed _).bind fun _ ↦ ?_
    split
    · exact .ite (Keeps.noteSignals.bind fun _ ↦ .pure _) (.pure _)
    · exact .pure _
  · refine .ite (Keeps.bind (.modify fun _ ↦ .of_eq rfl rfl) fun _ ↦ ?_) (.pure _)
    exact Keeps.noteSignals.bind fun _ ↦ .pure _

end Lower

/-! ## What a statement declares -/

/-- The names that a statement can declare in the scope in which it stands. A block, a `for` loop, a
`switch` and a namespace have scopes of their own, and so have functions, classes and components
behind their names; the bodies of other loops and of conditionals stand in the scope around them. -/
def Node.scopeNames : Node → List Bytes
  | .plain _ (.variableDeclaration _ declarators _) => declarators.flatMap (·.target.boundNames)
  | .plain _ (.functionDeclaration f _) => [f.name]
  | .plain _ (.classDeclaration c) => [c.name]
  | .plain _ (.interface name _ _ _ _) => [name]
  | .plain _ (.typeAlias name _ _ _) => [name]
  | .plain _ (.enum name _ _ _) => [name]
  | .plain _ (.imports clause) =>
    clause.specifiers.map (·.localName) ++ [clause.defaultName, clause.namespaceName]
  | .plain _ (.exportNamed (some declaration) _ _ _) => declaration.scopeNames
  | .plain _ (.exportDefault (.declaration declaration)) => declaration.scopeNames
  | .plain _ (.ifElse _ consequent none) => consequent.scopeNames
  | .plain _ (.ifElse _ consequent (some alternate)) =>
    consequent.scopeNames ++ alternate.scopeNames
  | .plain _ (.whileLoop _ body) => body.scopeNames
  | .plain _ (.doWhile body _) => body.scopeNames
  | .plain _ (.labeled _ body) => body.scopeNames
  | .plain _ (.tryCatch ⟨block, _, _, _, none⟩) => block.scopeNames
  | .plain _ (.tryCatch ⟨block, _, _, _, some finalizer⟩) =>
    block.scopeNames ++ finalizer.scopeNames
  | .surface _ (.component f) => [f.name]
  | _ => []
termination_by structural node => node

open Lower

namespace Lowering

/-- The entry points keep the scopes; statements declare what their syntax says at most. -/
structure Restores (l : Lowering) : Prop where
  statement (node : Node) : (l.statement node).Keeps {name | name ∈ node.scopeNames}
  expression (node : Node) {names : Set Bytes} : (l.expression node).Keeps names
  element (node : Node) {names : Set Bytes} : (l.element node).Keeps names

section Restored

variable {names : Set Bytes} {l : Lowering} (h : l.Restores)

include h

/-! ## Expressions -/

theorem Restores.body (node : Node) : (l.statement node).Keeps Set.univ :=
  (h.statement node).mono (Set.subset_univ _)

theorem expressions_keeps (nodes : List Node) : (l.expressions nodes).Keeps names :=
  .mapM fun node _ ↦ h.expression node

theorem optionalExpression_keeps (node : Option Node) :
    (l.optionalExpression node).Keeps names :=
  .optionMapM fun node _ ↦ h.expression node

/-- A block with a scope of its own declares nothing around it. -/
theorem block_keeps (node : Node) :
    (l.block true node).Keeps {name | name ∈ node.scopeNames} := by
  unfold block
  split
  · exact (Keeps.inScope (.mapM fun node _ ↦ h.body node) .block).bind fun _ ↦ .pure _
  · exact h.statement _

theorem openBlock_keeps (node : Node) : (l.block false node).Keeps Set.univ := by
  unfold block
  split
  · exact (Keeps.mapM fun node _ ↦ h.body node).bind fun _ ↦ .pure _
  · exact h.body _

theorem params_keeps (ps : List (Param Node)) : (l.params ps).Keeps names := by
  refine .mapM fun p _ ↦ (expressions_keeps h _).bind fun _ ↦ ?_
  refine (optionalExpression_keeps h _).bind fun _ ↦ ?_
  exact (optionalExpression_keeps h _).bind fun _ ↦ .pure _

theorem callable_keeps (f : Callable Node) : (l.callable f).Keeps Set.univ := by
  refine (declareParams_keeps _).bind fun _ ↦ (params_keeps h _).bind fun _ ↦ ?_
  exact (Keeps.optionMapM fun body _ ↦ openBlock_keeps h body).bind fun _ ↦ .pure _

theorem functionExpression_keeps (line column : Nat) (f : Callable Node) :
    (l.functionExpression line column f).Keeps names := by
  refine Keeps.inScope ?_ .function
  exact (declare_keeps _ (Set.mem_univ _) _ _ _ _).bind fun _ ↦ callable_keeps h f

theorem arrowBody_keeps (body : ArrowBody Node) : (l.arrowBody body).Keeps Set.univ := by
  cases body with
  | block body => exact (openBlock_keeps h body).bind fun _ ↦ .pure _
  | expression value => exact (h.expression value).bind fun _ ↦ .pure _

theorem arrow_keeps (f : Arrow Node) : (l.arrow f).Keeps names := by
  refine Keeps.inScope ((declareParams_keeps _).bind fun _ ↦ ?_) .function
  exact (params_keeps h _).bind fun _ ↦ (arrowBody_keeps h _).bind fun _ ↦ .pure _

theorem propertyKey_keeps (computed : Bool) (key : Node) :
    (l.propertyKey computed key).Keeps names := by
  unfold propertyKey
  split
  · exact .pure _
  · exact h.expression _

theorem property_keeps (p : Property Node) : (l.property p).Keeps names := by
  refine (Keeps.optionMapM fun key _ ↦ propertyKey_keeps h _ key).bind fun _ ↦ ?_
  exact (optionalExpression_keeps h _).bind fun _ ↦ .pure _

theorem memberKey_keeps (key : MemberKey Node) : (l.memberKey key).Keeps names := by
  cases key with
  | named name => exact .pure _
  | computed index => exact (h.expression index).bind fun _ ↦ .pure _

theorem classMember_keeps (m : ClassMember Node) : (l.classMember m).Keeps Set.univ := by
  refine (expressions_keeps h _).bind fun _ ↦ ?_
  refine (Keeps.optionMapM fun key _ ↦ propertyKey_keeps h _ key).bind fun _ ↦ ?_
  refine (optionalExpression_keeps h _).bind fun _ ↦ ?_
  refine (Keeps.optionMapM fun block _ ↦ ?_).bind fun _ ↦ .pure _
  exact (block_keeps h block).mono (Set.subset_univ _)

theorem classShape_keeps (c : ClassShape Node) : (l.classShape c).Keeps names := by
  refine (expressions_keeps h _).bind fun _ ↦ (optionalExpression_keeps h _).bind fun _ ↦ ?_
  exact (Keeps.inScope (.mapM fun m _ ↦ classMember_keeps h m) .function).bind fun _ ↦ .pure _

theorem plainExpression_keeps (node : Node) (form : Plain Node) :
    (l.plainExpression node form).Keeps names := by
  cases form with
  | identifier name => exact (resolve_keeps name).bind fun _ ↦ .pure _
  | number | string | regex | boolean | null | this | super | omitted => exact .pure _
  | unary | await | spread | paren | cast | nonNull =>
    exact (h.expression _).bind fun _ ↦ .pure _
  | taggedTemplate | binary | assignment | assignmentPattern =>
    exact (h.expression _).bind fun _ ↦ (h.expression _).bind fun _ ↦ .pure _
  | template | array | sequence => exact (expressions_keeps h _).bind fun _ ↦ .pure _
  | object properties => exact (Keeps.mapM fun p _ ↦ property_keeps h p).bind fun _ ↦ .pure _
  | function f => exact (functionExpression_keeps h _ _ f).bind fun _ ↦ .pure _
  | arrow f => exact (arrow_keeps h f).bind fun _ ↦ .pure _
  | yield => exact (optionalExpression_keeps h _).bind fun _ ↦ .pure _
  | conditional test consequent alternate =>
    refine (h.expression test).bind fun _ ↦ (h.expression consequent).bind fun _ ↦ ?_
    exact (h.expression alternate).bind fun _ ↦ .pure _
  | call callee _ args =>
    exact (h.expression callee).bind fun _ ↦ (expressions_keeps h args).bind fun _ ↦ .pure _
  | new callee =>
    refine (h.expression callee).bind fun _ ↦ ?_
    exact (Keeps.optionMapM fun args _ ↦ expressions_keeps h args).bind fun _ ↦ .pure _
  | member receiver key =>
    exact (h.expression receiver).bind fun _ ↦ (memberKey_keeps h key).bind fun _ ↦ .pure _
  | _ => exact .failAt _ _ _ _

theorem expressionStep_keeps (node : Node) : (l.expressionStep node).Keeps names := by
  unfold expressionStep
  split
  · exact (plainExpression_keeps h _ _).bind fun _ ↦ .pure _
  · split
    · exact (classShape_keeps h _).bind fun _ ↦ .pure _
    · exact h.element _
    · exact h.element _
    · exact .pure _
    · exact h.expression _
    · exact .pure _
    · exact .failAt _ _ _ _

/-! ## Markup -/

theorem attributeValue_keeps (node : Node) : (l.attributeValue node).Keeps names := by
  unfold attributeValue
  split <;> exact h.expression _

theorem spreadAttribute_keeps (value : Option Node) : (l.spreadAttribute value).Keeps names :=
  (optionalExpression_keeps h value).bind fun _ ↦ .pure _

theorem elementAttribute_keeps (name : Bytes) (value : Option Node) (c : Classification) :
    (l.elementAttribute name value c).Keeps names := by
  have hvalue (value : Node) : (l.attributeValue value).Keeps names := attributeValue_keeps h value
  cases value with
  | none => exact .pure _
  | some value =>
    refine .ite ?_ (.ite ?_ ?_)
    · exact (hvalue value).bind fun _ ↦ Keeps.noteListener.bind fun _ ↦ .pure _
    · exact (Keeps.noteDependencies _).bind fun _ ↦ (hvalue value).bind fun _ ↦ .pure _
    · exact (hvalue value).bind fun _ ↦ .pure _

theorem elementAttributes_keeps (tag : Bytes) (seen : List Bytes) (nodes : List Node) :
    (l.elementAttributes tag seen nodes).Keeps names := by
  induction nodes generalizing seen with
  | nil => exact .pure _
  | cons node rest ih =>
    cases node with
    | plain => exact ih _
    | surface range form =>
      cases form with
      | attr name value isSpread =>
        refine .ite ?_ (.iteThen (.failAt _ _ _ _) (Keeps.state.bind fun _ ↦ ?_))
        · exact (spreadAttribute_keeps h _).bind fun _ ↦ (ih _).bind fun _ ↦ .pure _
        · exact (elementAttribute_keeps h _ _ _).bind fun _ ↦ (ih _).bind fun _ ↦ .pure _
      | _ => exact ih _

theorem callProp_keeps (name : Bytes) (value : Option Node) :
    (l.callProp name value).Keeps names := by
  refine Keeps.state.bind fun _ ↦ .iteThen .noteListener ?_
  exact (Keeps.optionMapM fun part _ ↦ attributeValue_keeps h part).bind fun _ ↦ .pure _

theorem callProps_keeps (nodes : List Node) : (l.callProps nodes).Keeps names := by
  induction nodes with
  | nil => exact .pure _
  | cons node rest ih =>
    cases node with
    | plain => exact ih
    | surface range form =>
      cases form with
      | attr name value isSpread =>
        refine .ite ?_ ?_
        · exact (spreadAttribute_keeps h _).bind fun _ ↦ ih.bind fun _ ↦ .pure _
        · exact (callProp_keeps h _ _).bind fun _ ↦ ih.bind fun _ ↦ .pure _
      | _ => exact ih

theorem markupChild_keeps (node : Node) : (l.markupChild node).Keeps names := by
  unfold markupChild
  split
  · exact .pure _
  · split
    · exact .pure _
    · refine Keeps.state.bind fun _ ↦ (Keeps.noteDependencies _).bind fun _ ↦ ?_
      exact (h.expression _).bind fun _ ↦ .pure _
  · exact (h.expression _).bind fun _ ↦ .pure _

theorem markupChildren_keeps (nodes : List Node) : (l.markupChildren nodes).Keeps names :=
  (Keeps.mapM fun node _ ↦ markupChild_keeps h node).bind fun _ ↦ .pure _

theorem elementStep_keeps (node : Node) : (l.elementStep node).Keeps names := by
  unfold elementStep
  split
  · refine .iteThen (.failAt _ _ _ _) (.bind (.modify fun _ ↦ .of_eq rfl rfl) fun _ ↦ ?_)
    refine .ite (.bind ?_ fun _ ↦ .pure _) (.bind ?_ fun _ ↦ .pure _)
    · refine (Keeps.markUsed _).bind fun _ ↦ (callProps_keeps h _).bind fun _ ↦ ?_
      exact (markupChildren_keeps h _).bind fun _ ↦ .pure _
    · refine (elementAttributes_keeps h _ _ _).bind fun _ ↦ ?_
      exact (markupChildren_keeps h _).bind fun _ ↦ .pure _
  · refine .bind (.modify fun _ ↦ .of_eq rfl rfl) fun _ ↦ ?_
    exact (markupChildren_keeps h _).bind fun _ ↦ .pure _
  · exact .failAt _ _ _ _

/-! ## Components -/

omit h in
theorem acceptDetected_keeps (binding : Bytes) (node : Node) :
    (acceptDetected binding node).Keeps names :=
  .bind (.forM fun _ _ ↦ .report _) fun _ ↦ .bind (.remark _ _ _) fun _ ↦ .pure _

omit h in
theorem checkParams_keeps (name : Bytes) (line column : Nat) (seen : List Bytes)
    (params : List (Param Node)) : (checkParams name line column seen params).Keeps names := by
  induction params generalizing seen with
  | nil => exact .pure _
  | cons param rest ih =>
    unfold checkParams
    split
    · exact .failAt _ _ _ _
    · refine .iteThen (.failAt _ _ _ _) (.iteThen (.failAt _ _ _ _) ?_)
      split
      · exact .failAt _ _ _ _
      · exact ih _

omit h in
theorem register_keeps (c : Component Node) : (register c).Keeps names :=
  Keeps.state.bind fun _ ↦ .iteThen (.failAt _ _ _ _) (.modify fun _ ↦ .of_eq rfl rfl)

theorem componentParts_keeps (c : Component Node) : (l.componentParts c).Keeps Set.univ := by
  refine (declareParams_keeps _).bind fun _ ↦ (params_keeps h _).bind fun _ ↦ ?_
  refine (Keeps.optionMapM fun block _ ↦ openBlock_keeps h block).bind fun _ ↦ ?_
  refine .ite (.bind (.pure _) fun _ ↦ .pure _) ?_
  exact (optionalExpression_keeps h _).bind fun _ ↦ .pure _

theorem component_keeps (c : Component Node) : (l.component c).Keeps names := by
  refine (register_keeps c).bind fun _ ↦ (checkParams_keeps _ _ _ _ _).bind fun _ ↦ ?_
  refine (Keeps.collectingFacts (.inScope (componentParts_keeps h c) _)).bind fun _ ↦ ?_
  refine .bind (.modify fun _ ↦ .of_eq rfl rfl) fun _ ↦ ?_
  exact (Keeps.remark _ _ _).bind fun _ ↦ .pure _

theorem boundComponent_keeps (binding : Bytes) (detection : Detection) (node : Node) :
    (l.boundComponent binding detection node).Keeps names := by
  unfold boundComponent
  split
  · exact component_keeps h _
  · exact component_keeps h _
  · exact h.expression _

/-! ## Statements -/

theorem functionDeclaration_keeps (atModule : Bool) (node : Node) {f : Callable Node}
    (hname : f.name ∈ names) (isDeclare : Bool) :
    (l.functionDeclaration atModule node f isDeclare).Keeps names := by
  have hplain : (l.plainFunction node.line node.column f isDeclare).Keeps names := by
    refine (declare_keeps _ hname _ _ _ _).bind fun _ ↦ ?_
    exact (Keeps.inScope (callable_keeps h f) .function).bind fun _ ↦ .pure _
  refine .ite ((acceptDetected_keeps _ _).bind fun found ↦ ?_) hplain
  cases found with
  | none => exact hplain
  | some detection => exact (declare_keeps _ hname _ _ _ _).bind fun _ ↦ component_keeps h _

theorem componentDeclarator_keeps (keyword : Bytes) {d : Declarator Node}
    (hnames : ∀ name ∈ d.target.boundNames, name ∈ names) :
    (l.componentDeclarator? keyword d).Keeps names := by
  unfold componentDeclarator?
  split
  · next name init hname _ =>
    have hname : name ∈ names := hnames name (Node.mem_boundNames_of_name? hname)
    refine .ite (.pure _) ((acceptDetected_keeps _ _).bind fun found ↦ ?_)
    cases found with
    | none => exact .pure _
    | some detection =>
      refine (declare_keeps _ hname _ _ _ _).bind fun _ ↦ ?_
      refine (boundComponent_keeps h _ _ _).bind fun _ ↦ ?_
      exact (h.expression _).bind fun _ ↦ .pure _
  · exact .pure _

theorem declarator_keeps (atModule : Bool) (keyword : Bytes) {d : Declarator Node}
    (hnames : ∀ name ∈ d.target.boundNames, name ∈ names) :
    (l.declarator atModule keyword d).Keeps names := by
  have hplain : (l.plainDeclarator keyword d).Keeps names := by
    refine (declareSignals_keeps keyword hnames).bind fun _ ↦ ?_
    refine .iteThen (declarePattern_keeps _ _ _ hnames) ((h.expression _).bind fun _ ↦ ?_)
    exact (optionalExpression_keeps h _).bind fun _ ↦ .pure _
  refine .ite ((componentDeclarator_keeps h keyword hnames).bind fun found ↦ ?_) hplain
  cases found with
  | none => exact hplain
  | some lowered => exact .pure _

theorem variableDeclaration_keeps (atModule : Bool) (keyword : Bytes)
    (declarators : List (Declarator Node)) (isDeclare : Bool)
    (hnames : ∀ name ∈ declarators.flatMap (·.target.boundNames), name ∈ names) :
    (l.variableDeclaration atModule keyword declarators isDeclare).Keeps names := by
  refine .bind (.mapM fun d hd ↦ declarator_keeps h atModule keyword fun name hname ↦ ?_)
    fun _ ↦ .pure _
  exact hnames name (List.mem_flatMap.mpr ⟨d, hd, hname⟩)

omit h in
theorem importClause_keeps (line column : Nat) {clause : ImportClause}
    (hnames : ∀ name ∈ clause.specifiers.map (·.localName) ++
      [clause.defaultName, clause.namespaceName], name ∈ names) :
    (l.importClause line column clause).Keeps names := by
  refine .bind (.mapM fun spec hspec ↦ ?_) fun _ ↦ ?_
  · have hname : spec.localName ∈ names :=
      hnames _ (List.mem_append_left _ (List.mem_map_of_mem hspec))
    refine (declare_keeps _ hname _ _ _ _).bind fun _ ↦ .ite ?_ (.pure _)
    exact .bind (.modify fun _ ↦ .of_eq rfl rfl) fun _ ↦ .pure _
  · refine (declare_keeps _ (hnames _ (by simp)) _ _ _ _).bind fun _ ↦ ?_
    exact (declare_keeps _ (hnames _ (by simp)) _ _ _ _).bind fun _ ↦ .pure _

omit h in
theorem mem_ownName (name : Bytes) : name ∈ {other | other ∈ [name]} := List.mem_singleton.mpr rfl

theorem moduleItem_keeps (node : Node) :
    (l.moduleItem node).Keeps {name | name ∈ node.scopeNames} := by
  fun_induction moduleItem l node with
  | case1 range clause => exact (importClause_keeps _ _ fun _ hname ↦ hname).bind fun _ ↦ .pure _
  | case2 =>
    rename_i ih
    refine ih.bind fun _ ↦ .bind (.pure _) fun _ ↦ ?_
    exact (Keeps.forM fun _ _ ↦ .markUsed _).bind fun _ ↦ .pure _
  | case3 =>
    refine .bind (.pure _) fun _ ↦ ?_
    exact (Keeps.forM fun _ _ ↦ .markUsed _).bind fun _ ↦ .pure _
  | case4 =>
    rename_i ih
    exact ih.bind fun _ ↦ .bind (.pure _) fun _ ↦ .pure _
  | case5 => exact (h.expression _).bind fun _ ↦ .bind (.pure _) fun _ ↦ .pure _
  | case6 => exact functionDeclaration_keeps h _ _ (mem_ownName _) _
  | case7 =>
    exact (variableDeclaration_keeps h _ _ _ _ fun _ hname ↦ hname).bind fun _ ↦ .pure _
  | case8 =>
    refine .bind (.forM fun _ _ ↦ .ite (.remark _ _ _) (.pure _)) fun _ ↦ ?_
    exact h.statement _
  | case9 => exact h.statement _

theorem switchCase_keeps (c : SwitchCase Node) : (l.switchCase c).Keeps Set.univ := by
  refine (optionalExpression_keeps h _).bind fun _ ↦ ?_
  exact (Keeps.mapM fun node _ ↦ h.body node).bind fun _ ↦ .pure _

theorem catchClause_keeps (t : TryShape Node) (handler : Node) :
    (l.catchClause t handler).Keeps names := by
  refine Keeps.inScope (.bind (.optionForM fun _ _ ↦ ?_) fun _ ↦ ?_) .block
  · exact declarePattern_keeps _ _ _ fun _ _ ↦ Set.mem_univ _
  · refine (optionalExpression_keeps h _).bind fun _ ↦ ?_
    exact (openBlock_keeps h handler).bind fun _ ↦ .pure _

theorem tryShape_keeps {t : TryShape Node}
    (hblock : ∀ name ∈ t.block.scopeNames, name ∈ names)
    (hfinalizer : ∀ finalizer ∈ t.finalizer, ∀ name ∈ finalizer.scopeNames, name ∈ names) :
    (l.tryShape t).Keeps names := by
  refine ((block_keeps h t.block).mono hblock).bind fun _ ↦ ?_
  refine (Keeps.optionMapM fun handler _ ↦ catchClause_keeps h t handler).bind fun _ ↦ ?_
  refine (Keeps.optionMapM fun finalizer hmem ↦ ?_).bind fun _ ↦ .pure _
  exact (block_keeps h finalizer).mono (hfinalizer finalizer hmem)

theorem plainStatement_keeps (node : Node) (range : Range) (form : Plain Node) :
    (l.plainStatement node form).Keeps {name | name ∈ (Node.plain range form).scopeNames} := by
  cases form with
  | jump | empty | debugger | exportAll => exact .pure _
  | interface | typeAlias =>
    exact (declare_keeps _ (mem_ownName _) _ _ _ _).bind fun _ ↦ .pure _
  | expressionStatement | throw => exact (h.expression _).bind fun _ ↦ .pure _
  | returnValue argument => exact (optionalExpression_keeps h _).bind fun _ ↦ .pure _
  | labeled label body => exact (h.statement body).bind fun _ ↦ .pure _
  | variableDeclaration keyword declarators isDeclare =>
    exact variableDeclaration_keeps h _ _ _ _ fun _ hname ↦ hname
  | ifElse test consequent alternate =>
    refine (h.expression test).bind fun _ ↦ ?_
    cases alternate with
    | none => exact (h.statement consequent).bind fun _ ↦ .bind (.pure _) fun _ ↦ .pure _
    | some alternate =>
      have hfirst := (h.statement consequent).mono fun name hname ↦
        show name ∈ consequent.scopeNames ++ alternate.scopeNames from
          List.mem_append_left _ hname
      have hsecond := (h.statement alternate).mono fun name hname ↦
        show name ∈ consequent.scopeNames ++ alternate.scopeNames from
          List.mem_append_right _ hname
      exact hfirst.bind fun _ ↦ .bind (hsecond.bind fun _ ↦ .pure _) fun _ ↦ .pure _
  | switch discriminant cases =>
    refine (h.expression discriminant).bind fun _ ↦ ?_
    exact (Keeps.inScope (.mapM fun c _ ↦ switchCase_keeps h c) .block).bind fun _ ↦ .pure _
  | forLoop init test update body =>
    refine Keeps.inScope ?_ .block
    refine (Keeps.optionMapM fun node _ ↦ h.body node).bind fun _ ↦ ?_
    refine (optionalExpression_keeps h _).bind fun _ ↦ ?_
    refine (optionalExpression_keeps h _).bind fun _ ↦ ?_
    exact (h.body body).bind fun _ ↦ .pure _
  | forIn left right body isOf isAwait =>
    refine (h.expression right).bind fun _ ↦ Keeps.inScope ?_ .block
    exact (h.body left).bind fun _ ↦ (h.body body).bind fun _ ↦ .pure _
  | whileLoop test body =>
    exact (h.expression test).bind fun _ ↦ (h.statement body).bind fun _ ↦ .pure _
  | doWhile body test =>
    exact (h.statement body).bind fun _ ↦ (h.expression test).bind fun _ ↦ .pure _
  | tryCatch t =>
    refine (tryShape_keeps h ?_ ?_).bind fun _ ↦ .pure _
    · obtain ⟨block, _, _, _, _ | finalizer⟩ := t
      · exact fun _ hname ↦ hname
      · exact fun _ hname ↦ List.mem_append_left _ hname
    · obtain ⟨block, _, _, _, _ | finalizer⟩ := t
      · simp
      · rintro _ ⟨⟩ name hname
        exact List.mem_append_right _ hname
  | classDeclaration c =>
    refine (declare_keeps _ (mem_ownName _) _ _ _ _).bind fun _ ↦ ?_
    exact (classShape_keeps h c).bind fun _ ↦ .pure _
  | enum name members isConst isDeclare =>
    refine (declare_keeps _ (mem_ownName _) _ _ _ _).bind fun _ ↦ ?_
    refine (Keeps.mapM fun m _ ↦ ?_).bind fun _ ↦ .pure _
    exact (optionalExpression_keeps h _).bind fun _ ↦ .pure _
  | module keyword name body isDeclare =>
    refine Keeps.inScope ?_ .block
    exact (Keeps.optionMapM fun items _ ↦ .mapM fun node _ ↦ h.body node).bind fun _ ↦ .pure _
  | _ => exact .failAt _ _ _ _

theorem statementStep_keeps (node : Node) :
    (l.statementStep node).Keeps {name | name ∈ node.scopeNames} := by
  unfold statementStep
  split
  · exact block_keeps h _
  · exact functionDeclaration_keeps h _ _ List.mem_cons_self _
  · exact moduleItem_keeps h _
  · exact moduleItem_keeps h _
  · exact moduleItem_keeps h _
  · exact (plainStatement_keeps h _ _ _).bind fun _ ↦ .pure _
  · refine (declare_keeps _ (mem_ownName _) _ _ _ _).bind fun _ ↦ component_keeps h _
  · exact .failAt _ _ _ _

end Restored

end Lowering

/-- Entry points of any number of levels keep the scopes. -/
theorem lowering_restores (runtimeModule : Bytes) (limit : Int) (level : Nat) :
    (lowering runtimeModule limit level).Restores := by
  induction level with
  | zero => exact ⟨fun _ ↦ .fail _, fun _ _ ↦ .fail _, fun _ _ ↦ .fail _⟩
  | succ level ih =>
    exact {
      statement := Lowering.statementStep_keeps ih
      expression := fun node _ ↦ Lowering.expressionStep_keeps ih node
      element := fun node _ ↦ Lowering.elementStep_keeps ih node }

end SignalView
