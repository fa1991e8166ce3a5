import SignalView.Proofs.Grammar.Statements
import SignalView.Proofs.Grammar.Values
import SignalView.Proofs.Syntax.TypeTexts

/-!
# Types in expressions

Where the grammar keeps a type, it keeps what its rules for types give. Whatever is known of the
texts that these rules give, is known of all types in the constructs that are read.
-/

namespace SignalView

/-- The rules of a grammar for types give texts of a kind, and its entry points give constructs in
which all types are of that kind. The text of a type that is missing is of that kind as well. -/
structure Tape.Annotates (tape : Tape) (g : Grammar) (T : Bytes → Prop) : Prop where
  nil : T []
  type (p : Nat) : tape.Provides p g.type T
  typeParameters (p : Nat) : tape.Provides p g.typeParameters T
  typeArguments (p : Nat) : tape.Provides p g.typeArguments fun args ↦ ∀ arg ∈ args, T arg
  typeMember (p : Nat) : tape.Provides p g.typeMember T
  typeMembers (p : Nat) : tape.Provides p g.typeMembers fun texts ↦ ∀ text ∈ texts, T text
  statement (p : Nat) : tape.Provides p g.statement (Node.Typed T)
  assignment (p : Nat) : tape.Provides p g.assignment (Node.Typed T)
  binary (p least : Nat) : tape.Provides p (g.binary least) (Node.Typed T)
  unary (p : Nat) : tape.Provides p g.unary (Node.Typed T)
  construction (p : Nat) : tape.Provides p g.construction (Node.Typed T)
  primary (p : Nat) : tape.Provides p g.primary (Node.Typed T)
  element (p : Nat) : tape.Provides p g.element (Node.Typed T)
  bindingTarget (p : Nat) : tape.Provides p g.bindingTarget (Node.Typed T)

namespace Grammar

open Parse Tape

variable {tape : Tape} {p : Nat} {g : Grammar} {T : Bytes → Prop}

/-! ## Actions without types -/

instance expectMemberName_stays {code message : String} :
    tape.Stays (expectMemberName code message) where
  provides _ := .expectMemberName fun _ _ ↦ trivial

instance take_stays : tape.Stays take where
  provides _ := .ask (.skip fun _ _ ↦ .pure trivial)

instance textIf_stays {present : Parse Bool} {f : Nat → Nat} {c : Nat → Prop} {text : Parse Bytes}
    [∀ q, Tests tape q present (f q) (c q)] [htext : tape.Stays text] :
    tape.Stays (textIf present text) where
  provides _ := .textIf (fun _ ↦ htext.provides _) trivial

instance manyWhile_stays {α : Type} {more : Parse Bool} {f : Nat → Nat} {c : Nat → Prop}
    {item : Parse α} {rounds : Nat} [∀ q, Tests tape q more (f q) (c q)] [hitem : tape.Stays item] :
    tape.Stays (manyWhile rounds more item) where
  provides _ := (Provides.manyWhile fun _ _ ↦ hitem.provides _).any

instance dottedNames_stays {name : Parse Bytes} {rounds : Nat} [tape.Stays name] :
    tape.Stays (dottedNames rounds name) where
  provides _ := .skip fun _ _ ↦ .pure trivial

section Annotates

variable (h : tape.Annotates g T)
include h

theorem annotation_typed : tape.Provides p g.annotation T := .textIf (fun _ ↦ h.type _) h.nil

theorem optionalTypeParameters_typed : tape.Provides p g.optionalTypeParameters T :=
  .textIf (fun _ ↦ h.typeParameters _) h.nil

theorem optionalTypeArguments_typed {β : Type} {Q : β → Prop} {next : List Bytes → Parse β}
    (hnext : ∀ args q, (∀ arg ∈ args, T arg) → tape.Provides q (next args) Q) :
    tape.Provides p (do
      if ← atMark .typeOpen then
        let args ← g.typeArguments
        next args
      else next []) Q :=
  .test (fun _ ↦ (h.typeArguments _).bind hnext) (hnext [] p (List.forall_mem_nil _))

/-! ## Operands -/

theorem expression_typed : tape.Provides p g.expression (Node.Typed T) := by
  refine .ask ((h.assignment p).bind fun first q hfirst ↦ .test (fun _ ↦ ?_) (.pure hfirst))
  refine (Provides.manyWhile fun r _ ↦ h.assignment _).bind fun rest r hrest ↦ .node fun range ↦ ?_
  exact .of_parts rfl (List.forall_mem_cons.mpr ⟨hfirst, hrest⟩)

omit h in
theorem spreadOr_typed {part otherwise : Parse Node}
    (hpart : ∀ q, tape.Provides q part (Node.Typed T))
    (hother : ∀ q, tape.Provides q otherwise (Node.Typed T)) :
    tape.Provides p (spreadOr part otherwise) (Node.Typed T) := by
  refine .ask (.test (fun _ ↦ (hpart _).bind fun argument q hargument ↦ .node fun range ↦ ?_) ?_)
  · exact .of_parts rfl (by simpa [Plain.children] using hargument)
  · exact hother p

theorem item_typed : tape.Provides p (spreadOr g.assignment g.assignment) (Node.Typed T) :=
  spreadOr_typed h.assignment h.assignment

theorem arguments_typed :
    tape.Provides p g.arguments fun args ↦ ∀ arg ∈ args, arg.Typed T := by
  refine .skip fun _ q ↦ (Provides.allowingIn (.commaList fun r _ ↦ item_typed h)).bind ?_
  exact fun args r hargs ↦ .skip fun _ _ ↦ .pure hargs

theorem templateLiteral_typed : tape.Provides p g.templateLiteral (Node.Typed T) := by
  refine .ask (.test (fun _ ↦ .node fun range ↦ .leaf rfl rfl) (.skip fun head q ↦ ?_))
  refine (Provides.allowingIn (.iterate (P := fun parts : List Bytes × List Node ↦
    ∀ hole ∈ parts.2, hole.Typed T) (fun parts r hparts ↦ ?_) (by simp))).bind ?_
  · refine (expression_typed h).bind fun hole s hhole ↦ .ask (.test (fun _ ↦ .pure ?_) ?_)
    · exact Under.forall_mem_concat hparts hhole
    · exact .skip fun _ _ ↦ .pure (Under.forall_mem_concat hparts hhole)
  · exact fun parts r hparts ↦ .node fun range ↦ .of_parts rfl hparts

/-! ## Chains -/

section Chains

variable {receiver : Node} (hreceiver : receiver.Typed T)
include hreceiver

omit h in
theorem call_typed {typeArguments : List Bytes} (htypes : ∀ arg ∈ typeArguments, T arg)
    {args : List Node} (hargs : ∀ arg ∈ args, arg.Typed T) (range : Range) (optional : Bool) :
    (Node.plain range (.call receiver typeArguments args optional)).Typed T :=
  .plain htypes (List.forall_mem_cons.mpr ⟨hreceiver, hargs⟩)

omit h in
theorem member_typed {key : MemberKey Node} (hkey : ∀ index ∈ key.children, index.Typed T)
    (range : Range) (optional : Bool) :
    (Node.plain range (.member receiver key optional)).Typed T :=
  .of_parts rfl (List.forall_mem_cons.mpr ⟨hreceiver, hkey⟩)

omit h in
theorem taggedTemplate_typed {typeArguments : List Bytes} (htypes : ∀ arg ∈ typeArguments, T arg)
    {quasi : Node} (hquasi : quasi.Typed T) (range : Range) :
    (Node.plain range (.taggedTemplate receiver typeArguments quasi)).Typed T :=
  .plain htypes (by simpa [Plain.children] using ⟨hreceiver, hquasi⟩)

theorem optionalLink_typed (start : Token) :
    tape.Provides p (g.optionalLink start receiver) (Node.Typed T) := by
  refine .test (fun _ ↦ ?_) (.test (fun _ ↦ ?_) (.skip fun name q ↦ .node fun range ↦ ?_))
  · refine (arguments_typed h).bind fun args q hargs ↦ .node fun range ↦ ?_
    exact call_typed hreceiver (List.forall_mem_nil _) hargs range _
  · refine (expression_typed h).bind fun index q hindex ↦ .skip fun _ _ ↦ .node fun range ↦ ?_
    exact member_typed hreceiver (by simpa [MemberKey.children] using hindex) range _
  · exact member_typed hreceiver (List.forall_mem_nil _) range _

omit h hreceiver in
/-- A link of a chain that is there. -/
theorem some_typed {action : Parse Node} (haction : tape.Provides p action (Node.Typed T)) :
    tape.Provides p (do return some (← action)) fun link ↦ ∀ node ∈ link, node.Typed T :=
  haction.bind fun _ _ hnode ↦ .pure (by simpa using hnode)

theorem genericLink_typed (start : Token) : tape.Provides p (g.genericLink start receiver)
    fun link ↦ ∀ node ∈ link, node.Typed T := by
  have htemplate : tape.Provides p (do
      let typeArguments ← g.typeArguments
      let quasi ← g.templateLiteral
      return some (← node start (.taggedTemplate receiver typeArguments quasi)))
      fun link ↦ ∀ node ∈ link, node.Typed T := by
    refine (h.typeArguments p).bind fun types q htypes ↦ ?_
    refine (templateLiteral_typed h).bind fun quasi r hquasi ↦ some_typed (.node fun range ↦ ?_)
    exact taggedTemplate_typed hreceiver htypes hquasi range
  refine .ask ?_
  split
  · refine (h.typeArguments p).bind fun types q htypes ↦ ?_
    refine (arguments_typed h).bind fun args r hargs ↦ some_typed (.node fun range ↦ ?_)
    exact call_typed hreceiver htypes hargs range _
  · exact htemplate
  · exact htemplate
  · exact .pure (by simp)

theorem link_typed (start : Token) (calls : Bool) : tape.Provides p (g.link start calls receiver)
    fun link ↦ ∀ node ∈ link, node.Typed T := by
  have hstop : tape.Provides p (pure none) fun link : Option Node ↦ ∀ node ∈ link, node.Typed T :=
    .pure (by simp)
  have htemplate : tape.Provides p (do
      let quasi ← g.templateLiteral
      return some (← node start (.taggedTemplate receiver [] quasi)))
      fun link ↦ ∀ node ∈ link, node.Typed T := by
    refine (templateLiteral_typed h).bind fun quasi r hquasi ↦ some_typed (.node fun range ↦ ?_)
    exact taggedTemplate_typed hreceiver (List.forall_mem_nil _) hquasi range
  refine .ask ?_
  split
  · refine .skip fun _ q ↦ .skip fun name r ↦ some_typed (.node fun range ↦ ?_)
    exact member_typed hreceiver (List.forall_mem_nil _) range _
  · exact .skip fun _ q ↦ some_typed (optionalLink_typed h hreceiver start)
  · refine .skip fun _ q ↦ (Provides.allowingIn (expression_typed h)).bind fun index r hindex ↦ ?_
    refine .skip fun _ s ↦ some_typed (.node fun range ↦ ?_)
    exact member_typed hreceiver (by simpa [MemberKey.children] using hindex) range _
  · refine .ite (fun _ ↦ (arguments_typed h).bind fun args q hargs ↦ ?_) fun _ ↦ hstop
    exact some_typed (.node fun range ↦
      call_typed hreceiver (List.forall_mem_nil _) hargs range _)
  · exact .ite (fun _ ↦ genericLink_typed h hreceiver start) fun _ ↦ hstop
  · exact htemplate
  · exact htemplate
  · refine .test (fun _ ↦ .skip fun _ q ↦ some_typed (.node fun range ↦ ?_)) hstop
    exact .of_parts rfl (by simpa [Plain.children] using hreceiver)
  · exact hstop

omit h in
/-- A chain of links, each of which goes on from what has been read. -/
theorem links_typed {link : Node → Parse (Option Node)} {rounds : Nat}
    (hlink : ∀ node q, node.Typed T → tape.Provides q (link node)
      fun next ↦ ∀ node ∈ next, node.Typed T) :
    tape.Provides p (iterate (fun node ↦ do
      match ← link node with
      | some next => return (next, true)
      | none => return (node, false)) rounds receiver) (Node.Typed T) := by
  refine .iterate (fun node q hnode ↦ (hlink node q hnode).bind fun next r hnext ↦ ?_) hreceiver
  cases next with
  | none => exact .pure hnode
  | some next => exact .pure (hnext next rfl)

theorem chain_typed (start : Token) (calls : Bool) :
    tape.Provides p (g.chain start calls receiver) (Node.Typed T) :=
  links_typed hreceiver fun _ _ hnode ↦ link_typed h hnode start calls

end Chains

theorem operand_typed : tape.Provides p g.operand (Node.Typed T) :=
  .test (fun _ ↦ h.construction p) (h.primary p)

theorem leftHandSide_typed : tape.Provides p g.leftHandSide (Node.Typed T) :=
  .ask ((operand_typed h).bind fun _ _ hfirst ↦ chain_typed h hfirst _ true)

theorem decorators_typed :
    tape.Provides p g.decorators fun nodes ↦ ∀ node ∈ nodes, node.Typed T :=
  .manyWhile fun _ _ ↦ leftHandSide_typed h

theorem constructionStep_typed : tape.Provides p g.constructionStep (Node.Typed T) := by
  refine .ask (.skip fun _ q ↦ .test (fun _ ↦ ?_) (.ask ?_))
  · have hkeyword (range : Range) : (Node.plain range (.identifier (bytes "new"))).Typed T :=
      .leaf rfl rfl
    refine (Provides.node hkeyword).bind fun keyword r hkeyword ↦ .skip fun name s ↦ ?_
    exact .node fun range ↦ member_typed hkeyword (List.forall_mem_nil _) range _
  · refine (operand_typed h).bind fun first r hfirst ↦ ?_
    refine (chain_typed h hfirst _ false).bind fun callee s hcallee ↦ ?_
    refine optionalTypeArguments_typed h fun types t htypes ↦ ?_
    refine (Provides.optionally fun _ ↦ arguments_typed h).bind fun args u hargs ↦ ?_
    refine .node fun range ↦ .plain htypes (List.forall_mem_cons.mpr ⟨hcallee, ?_⟩)
    cases args with
    | none => exact List.forall_mem_nil _
    | some args => exact hargs args rfl

/-! ## Keys and patterns -/

omit h in
theorem leafNode_typed {start : Token} {form : Plain Node} (htypes : form.typeTexts = [])
    (hparts : form.children = []) : tape.Provides p (node start form) (Node.Typed T) :=
  .node fun _ ↦ .leaf htypes hparts

theorem propertyKey_typed (rules : KeyRules) :
    tape.Provides p (g.propertyKey rules) fun key ↦ key.1.Typed T := by
  refine .ask (.test (fun _ ↦ ?_) (.ite (fun _ ↦ ?_) fun _ ↦ .ite (fun _ ↦ ?_) fun _ ↦ ?_))
  · exact (h.assignment _).bind fun key q hkey ↦ .skip fun _ _ ↦ .pure hkey
  · exact (leafNode_typed (T := T) rfl rfl).bind fun key q hkey ↦
      .skip fun _ _ ↦ .pure hkey
  · exact .skip fun _ q ↦ (leafNode_typed (T := T) rfl rfl).bind fun key r hkey ↦ .pure hkey
  · refine .ite (fun _ ↦ .skip fun _ q ↦ ?_) fun _ ↦ .fail _ _
    exact (leafNode_typed (T := T) rfl rfl).bind fun key r hkey ↦ .pure hkey

theorem withDefault_typed (start : Token) {target : Node} (htarget : target.Typed T) :
    tape.Provides p (g.withDefault start target) (Node.Typed T) := by
  refine .test (fun _ ↦ (h.assignment _).bind fun initial q hinitial ↦ ?_) (.pure htarget)
  exact .node fun range ↦ .of_parts rfl (by simpa [Plain.children] using ⟨htarget, hinitial⟩)

omit h in
theorem property_typed {kind : PropertyKind} {key : Node} {computed : Bool} {value : Node}
    (hkey : key.Typed T) (hvalue : value.Typed T) :
    ∀ child ∈ ({ kind := kind, key := some key, computed := computed, value := some value } :
      Property Node).children, child.Typed T := by
  cases computed <;> simp [Property.children, hkey, hvalue]

theorem shorthandProperty_typed (start : Token) {key : Node} (hkey : key.Typed T) (computed : Bool)
    (message : String) : tape.Provides p (g.shorthandProperty start key computed message)
      fun property ↦ ∀ child ∈ property.children, child.Typed T := by
  unfold shorthandProperty
  split
  · refine (leafNode_typed (T := T) rfl rfl).bind fun target q htarget ↦ ?_
    refine (withDefault_typed h start htarget).bind fun value r hvalue ↦ .pure ?_
    exact property_typed hkey hvalue
  · exact .fail _ _

theorem bindingElement_typed : tape.Provides p g.bindingElement (Node.Typed T) :=
  .ask ((h.bindingTarget p).bind fun _ _ htarget ↦ withDefault_typed h _ htarget)

omit h in
theorem arrayElements_typed {element : Parse Node}
    (helement : ∀ q, tape.Provides q element (Node.Typed T)) :
    tape.Provides p (g.arrayElements element) fun nodes ↦ ∀ node ∈ nodes, node.Typed T := by
  refine .looseList fun q _ ↦ .ask (.test (fun _ ↦ ?_) ?_)
  · exact (leafNode_typed (T := T) rfl rfl).bind fun _ r hnode ↦ .pure hnode
  · exact (helement q).bind fun _ r hnode ↦ .pure hnode

theorem patternProperty_typed : tape.Provides p g.patternProperty
    fun property ↦ ∀ child ∈ property.children, child.Typed T := by
  refine .test (fun _ ↦ (h.bindingTarget _).bind fun value q hvalue ↦ .pure ?_) (.ask ?_)
  · simpa [Property.children] using hvalue
  · refine (propertyKey_typed h _).bind ?_
    rintro ⟨key, computed⟩ q hkey
    refine .test (fun _ ↦ (bindingElement_typed h).bind fun value r hvalue ↦ .pure ?_) ?_
    · exact property_typed hkey hvalue
    · exact shorthandProperty_typed h _ hkey computed _

theorem bindingTargetStep_typed : tape.Provides p g.bindingTargetStep (Node.Typed T) := by
  refine .ask (.test (fun _ ↦ ?_) (.test (fun _ ↦ ?_) (.skip fun name q ↦ ?_)))
  · refine (arrayElements_typed fun r ↦ spreadOr_typed h.bindingTarget fun s ↦ ?_).bind ?_
    · exact bindingElement_typed h
    · exact fun elements q helements ↦ .skip fun _ _ ↦ .node fun range ↦ .of_parts rfl helements
  · refine (Provides.commaList fun r _ ↦ patternProperty_typed h).bind ?_
    refine fun properties q hproperties ↦ .skip fun _ _ ↦ .node fun range ↦ ?_
    exact .of_parts rfl (List.forall_mem_flatMap.mpr hproperties)
  · exact .node fun range ↦ .leaf rfl rfl

/-! ## Functions -/

theorem initial_typed {m : Mark} : tape.Provides p (optionally (acceptMark m) g.assignment)
    fun value ↦ ∀ node ∈ value, node.Typed T :=
  .optionally fun _ ↦ h.assignment _

theorem param_typed : tape.Provides p g.param (Param.Typed T) := by
  refine (decorators_typed h).bind fun decorators q hdecorators ↦ .skip fun modifiers r ↦ ?_
  have hthis (range : Range) : (Node.plain range (.identifier (bytes "this"))).Typed T :=
    .leaf rfl rfl
  refine .skip fun rest s ↦ .ask (.test (fun _ ↦ (Provides.node hthis).bind ?_)
    ((h.bindingTarget s).bind ?_))
  all_goals
    refine fun pattern t hpattern ↦ .skip fun optional u ↦ ?_
    refine (annotation_typed h).bind fun type v htype ↦ ?_
    refine (initial_typed h).bind fun initial w hinitial ↦ .pure ⟨htype, ?_⟩
    simpa [Param.children, or_imp, forall_and] using ⟨hdecorators, hpattern, hinitial⟩

theorem params_typed :
    tape.Provides p g.params fun params ↦ ∀ param ∈ params, param.Typed T := by
  refine .skip fun _ q ↦ (Provides.commaList fun r _ ↦ param_typed h).bind ?_
  exact fun params s hparams ↦ .skip fun _ _ ↦ .pure hparams

theorem block_typed : tape.Provides p g.block (Node.Typed T) := by
  refine .skip fun start q ↦ (Provides.manyWhile fun r _ ↦ h.statement r).bind ?_
  exact fun body r hbody ↦ .skip fun _ _ ↦ .node fun range ↦ .of_parts rfl hbody

omit h in
theorem callable_typed {f : Callable Node} (htypes : T f.typeParameters)
    (hparams : ∀ param ∈ f.params, param.Typed T) (hreturn : T f.returnType)
    (hbody : ∀ body ∈ f.body, body.Typed T) : f.Typed T := by
  refine ⟨?_, List.forall_mem_append.mpr ⟨?_, by simpa using hbody⟩⟩
  · refine List.forall_mem_cons.mpr ⟨htypes, List.forall_mem_cons.mpr ⟨hreturn, ?_⟩⟩
    exact List.forall_mem_map.mpr fun param hmem ↦ (hparams param hmem).1
  · exact List.forall_mem_flatMap.mpr fun param hmem ↦ (hparams param hmem).2

/-- The signature of a function whose body, if it has one, is yet to come. -/
theorem signature_typed (f : Callable Node) : tape.Provides p (g.signature f) fun f' ↦
    f'.body = f.body ∧ ∀ body : Option Node, (∀ node ∈ body, node.Typed T) →
      { f' with body := body }.Typed T := by
  refine (optionalTypeParameters_typed h).bind fun types q htypes ↦ ?_
  refine (params_typed h).bind fun params r hparams ↦ ?_
  refine (annotation_typed h).bind fun type s htype ↦ .pure ⟨rfl, fun body hbody ↦ ?_⟩
  exact callable_typed htypes hparams htype hbody

theorem functionRest_typed (bodyOptional : Bool) {f : Callable Node} (hf : f.body = none) :
    tape.Provides p (g.functionRest bodyOptional f) (Callable.Typed T) := by
  refine (signature_typed h f).bind fun f' q ⟨hbody, hf'⟩ ↦ .test (fun _ ↦ ?_) ?_
  · refine (block_typed h).bind fun body r hbody ↦ .pure (hf' (some body) ?_)
    simpa using hbody
  · refine .ite (fun _ ↦ .skip fun _ r ↦ .pure ?_) fun _ ↦ .fail _ _
    have hnone := hf' none (by simp)
    rwa [← hf, ← hbody] at hnone

theorem methodFunction_typed (bodyOptional isAsync isGenerator : Bool) :
    tape.Provides p (g.methodFunction bodyOptional isAsync isGenerator) (Node.Typed T) :=
  .ask ((functionRest_typed h bodyOptional rfl).bind fun _ _ hf ↦
    .node fun _ ↦ .plain hf.1 hf.2)

/-! ## Classes -/

instance accessorKind_stays : tape.Stays accessorKind := .of_reads fun _ ↦ accessorKind_skips

instance memberMarks_stays : tape.Stays memberMarks := .of_reads fun _ ↦ memberMarks_skips

omit h in
theorem classMember_parts {m : ClassMember Node} (hdecorators : ∀ node ∈ m.decorators, node.Typed T)
    (hkey : ∀ node ∈ m.key, node.Typed T) (hvalue : ∀ node ∈ m.value, node.Typed T)
    (hblock : ∀ node ∈ m.block, node.Typed T) : ∀ child ∈ m.children, child.Typed T := by
  have hkeys : ∀ node ∈ if m.computed then m.key.toList else [], node.Typed T := by
    split
    · simpa using hkey
    · exact List.forall_mem_nil _
  simpa only [ClassMember.children, List.forall_mem_append, Option.mem_toList, and_assoc] using
    ⟨hdecorators, hkeys, hvalue, hblock⟩

theorem namedMember_typed {member : ClassMember Node}
    (hdecorators : ∀ node ∈ member.decorators, node.Typed T) (hblock : member.block = none)
    (htype : member.type = []) :
    tape.Provides p (g.namedMember member) (ClassMember.Typed T) := by
  refine .ask (.ask (.whenSo fun q ↦ .skip fun isGenerator r ↦ .skip fun accessor s ↦ .ask ?_))
  refine (propertyKey_typed h _).bind ?_
  rintro ⟨key, computed⟩ t hkey
  refine .skip ?_
  rintro ⟨optional, definite⟩ u
  have hblock : ∀ node ∈ member.block, node.Typed T := by simp [hblock]
  have hkey : ∀ node ∈ some key, node.Typed T := by simpa using hkey
  refine .test (fun _ ↦ ?_) (.ite (fun _ ↦ .fail _ _) fun _ ↦ ?_)
  · refine (methodFunction_typed h _ _ _).bind fun value v hvalue ↦ .pure ⟨?_, ?_⟩
    · exact htype ▸ h.nil
    · exact classMember_parts hdecorators hkey (by simpa using hvalue) hblock
  · refine (annotation_typed h).bind fun type v htype ↦ ?_
    refine (initial_typed h).bind fun value w hvalue ↦ .skip fun _ _ ↦ .pure ⟨htype, ?_⟩
    exact classMember_parts hdecorators hkey hvalue hblock

theorem classMember_typed : tape.Provides p g.classMember (ClassMember.Typed T) := by
  refine (decorators_typed h).bind fun decorators q hdecorators ↦ .skip fun modifiers r ↦ ?_
  have hnone : ∀ node ∈ (none : Option Node), node.Typed T := by simp
  refine .ask (.ite (fun _ ↦ ?_) fun _ ↦ .ask (.ask (.ask (.ite (fun _ ↦ ?_) fun _ ↦ ?_))))
  · refine (block_typed h).bind fun block s hblock ↦ .pure ⟨h.nil, ?_⟩
    exact classMember_parts hdecorators hnone hnone (by simpa using hblock)
  · refine (h.typeMember r).bind fun type s htype ↦ .skip fun _ _ ↦ .pure ⟨htype, ?_⟩
    exact classMember_parts hdecorators hnone hnone hnone
  · exact namedMember_typed h hdecorators rfl rfl

theorem classBody_typed :
    tape.Provides p g.classBody fun members ↦ ∀ m ∈ members, m.Typed T := by
  refine .iterate (fun members q hmembers ↦ .test (fun _ ↦ ?_) (.pure hmembers)) (by simp)
  refine .test (fun _ ↦ .pure hmembers) ((classMember_typed h).bind fun m r hm ↦ .pure ?_)
  exact Under.forall_mem_concat hmembers hm

theorem superClass_typed : tape.Provides p g.superClass fun parent ↦
    (∀ node ∈ parent.1, node.Typed T) ∧ ∀ arg ∈ parent.2, T arg := by
  refine .test (fun _ ↦ .ask ?_) (.pure (by simp))
  refine (h.primary _).bind fun first q hfirst ↦ (chain_typed h hfirst _ true).bind ?_
  refine fun parent r hparent ↦ optionalTypeArguments_typed h fun types s htypes ↦ ?_
  exact .pure ⟨by simpa using hparent, htypes⟩

theorem classDeclaration_typed {decorators : List Node}
    (hdecorators : ∀ node ∈ decorators, node.Typed T) (isAbstract isDeclare : Bool) :
    tape.Provides p (g.classDeclaration decorators isAbstract isDeclare) (Node.Typed T) := by
  refine .ask (.skip fun _ q ↦ .ask (.ask (.skip fun name r ↦ ?_)))
  refine (optionalTypeParameters_typed h).bind fun types s htypes ↦ (superClass_typed h).bind ?_
  rintro ⟨parent, arguments⟩ t ⟨hparent, harguments⟩
  have hrest {q : Nat} {implemented : List Bytes} (himplemented : ∀ type ∈ implemented, T type) :
      tape.Provides q (do
        expectMark .openBrace "Expected '\x7b' to open class body"
        let members ← g.classBody
        expectMark .closeBrace "Expected '\x7d' to close class body"
        node (tape.token p) (.classDeclaration {
          name := name, typeParameters := types, superClass := parent
          superTypeArguments := arguments, implemented := implemented, members := members
          decorators := decorators, isAbstract := isAbstract, isDeclare := isDeclare }))
        (Node.Typed T) := by
    refine .skip fun _ r ↦ (classBody_typed h).bind fun members s hmembers ↦ .skip fun _ _ ↦ ?_
    refine .node fun range ↦ .plain ?_ ?_
    · simp only [Plain.typeTexts, ClassShape.typeTexts, List.cons_append, List.forall_mem_cons,
        List.forall_mem_append, List.forall_mem_map]
      exact ⟨htypes, ⟨harguments, himplemented⟩, fun m hm ↦ (hmembers m hm).1⟩
    · simp only [Plain.children, ClassShape.children, List.forall_mem_append, Option.mem_toList,
        List.forall_mem_flatMap]
      exact ⟨⟨hdecorators, hparent⟩, fun m hm ↦ (hmembers m hm).2⟩
  refine .test (fun _ ↦ ?_) (hrest (List.forall_mem_nil _))
  exact (Provides.separated h.type).bind fun implemented r himplemented ↦ hrest himplemented

/-! ## Primary expressions -/

theorem arrayLiteral_typed : tape.Provides p g.arrayLiteral (Node.Typed T) := by
  refine .ask (.skip fun _ q ↦ ?_)
  refine (Provides.allowingIn (arrayElements_typed fun r ↦ item_typed h)).bind ?_
  exact fun elements r helements ↦ .skip fun _ _ ↦ .node fun _ ↦ .of_parts rfl helements

instance accessorProperty_stays : tape.Stays accessorProperty :=
  .of_reads fun _ ↦ accessorProperty_skips

theorem keyedProperty_typed : tape.Provides p g.keyedProperty
    fun property ↦ ∀ child ∈ property.children, child.Typed T := by
  obtain ⟨follows, hfollows⟩ : ∃ b, Asks tape p propertyNameFollows b := asks_propertyNameFollows
  refine .ask (.ask (.ask (.whenSo fun q ↦ .skip fun isGenerator r ↦ .skip fun kind s ↦ .ask ?_)))
  refine (propertyKey_typed h _).bind ?_
  rintro ⟨key, computed⟩ t hkey
  refine .test (fun _ ↦ ?_) (.ite (fun _ ↦ .fail _ _) fun _ ↦ .test (fun _ ↦ ?_) ?_)
  · refine (methodFunction_typed h _ _ _).bind fun value u hvalue ↦ .pure ?_
    exact property_typed hkey hvalue
  · exact (h.assignment _).bind fun value u hvalue ↦ .pure (property_typed hkey hvalue)
  · exact shorthandProperty_typed h _ hkey computed _

theorem literalProperty_typed : tape.Provides p g.literalProperty
    fun property ↦ ∀ child ∈ property.children, child.Typed T := by
  refine .test (fun _ ↦ (h.assignment _).bind fun value q hvalue ↦ .pure ?_) (keyedProperty_typed h)
  simpa [Property.children] using hvalue

theorem objectLiteral_typed : tape.Provides p g.objectLiteral (Node.Typed T) := by
  refine .ask (.skip fun _ q ↦ ?_)
  refine (Provides.allowingIn (.commaList fun r _ ↦ literalProperty_typed h)).bind ?_
  refine fun properties r hproperties ↦ .skip fun _ _ ↦ .node fun _ ↦ .of_parts rfl ?_
  exact List.forall_mem_flatMap.mpr hproperties

theorem functionExpression_typed : tape.Provides p g.functionExpression (Node.Typed T) := by
  refine .ask (.skip fun isAsync q ↦ .skip fun _ r ↦ .skip fun isGenerator s ↦ ?_)
  refine .skip fun name t ↦ ?_
  exact (functionRest_typed h false rfl).bind fun f u hf ↦ .node fun range ↦ .plain hf.1 hf.2

theorem classExpression_typed : tape.Provides p g.classExpression (Node.Typed T) := by
  refine .ask ((decorators_typed h).bind fun decorators q hdecorators ↦ ?_)
  refine (classDeclaration_typed h hdecorators false false).bind fun declaration r hnode ↦ ?_
  exact .surface fun range ↦ .of_surface_parts rfl (by simpa [Surface.children] using hnode)

theorem parenthesized_typed : tape.Provides p g.parenthesized (Node.Typed T) := by
  refine .ask (.skip fun _ q ↦ (Provides.allowingIn (expression_typed h)).bind ?_)
  refine fun inner r hinner ↦ .skip fun _ _ ↦ .node fun _ ↦ .of_parts rfl ?_
  simpa [Plain.children] using hinner

omit h in
theorem leaf_typed (start : Token) {form : Plain Node} (htypes : form.typeTexts = [])
    (hchildren : form.children = []) : tape.Provides p (leaf start form) (Node.Typed T) :=
  .skip fun _ _ ↦ leafNode_typed htypes hchildren

omit h in
theorem nameExpression_typed (start : Token) :
    tape.Provides p (nameExpression start) (Node.Typed T) :=
  .ite (fun _ ↦ leaf_typed start rfl rfl) fun _ ↦ .fail _ _

theorem primaryStep_typed : tape.Provides p g.primaryStep (Node.Typed T) := by
  refine .ask ?_
  split
  · exact leaf_typed _ rfl rfl
  · exact leaf_typed _ rfl rfl
  · exact leaf_typed _ rfl rfl
  · exact templateLiteral_typed h
  · exact templateLiteral_typed h
  · exact leaf_typed _ rfl rfl
  · exact leaf_typed _ rfl rfl
  · exact leaf_typed _ rfl rfl
  · exact leaf_typed _ rfl rfl
  · exact leaf_typed _ rfl rfl
  · exact leaf_typed _ rfl rfl
  · exact leaf_typed _ rfl rfl
  · exact parenthesized_typed h
  · exact arrayLiteral_typed h
  · exact objectLiteral_typed h
  · exact functionExpression_typed h
  · refine .ask (.ask (.ite (fun _ ↦ ?_) fun _ ↦ nameExpression_typed _))
    exact functionExpression_typed h
  · exact classExpression_typed h
  · exact classExpression_typed h
  · exact h.element p
  · exact nameExpression_typed _

/-! ## Operators -/

theorem incremented_typed : tape.Provides p g.incremented (Node.Typed T) := by
  refine .ask ((leftHandSide_typed h).bind fun operand q hoperand ↦ .ask (.ask (.ite ?_ ?_)))
  · refine fun _ ↦ .skip fun op r ↦ .node fun _ ↦ .of_parts rfl ?_
    simpa [Plain.children] using hoperand
  · exact fun _ ↦ .pure hoperand

theorem unaryStep_typed : tape.Provides p g.unaryStep (Node.Typed T) := by
  -- an operator in front of an operand, whatever is made of the two
  have hleading {form : Node → Plain Node}
      (hform : ∀ operand, (form operand).typeTexts = [] ∧ (form operand).children = [operand]) :
      tape.Provides p (nested do
        advance
        let operand ← g.unary
        node (tape.token p) (form operand)) (Node.Typed T) := by
    refine .nested (.skip fun _ q ↦ (h.unary q).bind fun operand r hoperand ↦ .node fun _ ↦ ?_)
    refine .of_parts (hform operand).1 ?_
    rw [(hform operand).2]
    simpa using hoperand
  refine .ask ?_
  split
  all_goals first
    | exact hleading fun _ ↦ ⟨rfl, rfl⟩
    | exact .ask (.ite (fun _ ↦ incremented_typed h) fun _ ↦ hleading fun _ ↦ ⟨rfl, rfl⟩)
    | exact incremented_typed h

theorem binaryLink_typed (least : Nat) (start : Token) {left : Node} (hleft : left.Typed T) :
    tape.Provides p (g.binaryLink least start left) fun link ↦ ∀ node ∈ link, node.Typed T := by
  have hstop : tape.Provides p (pure none) fun link : Option Node ↦ ∀ node ∈ link, node.Typed T :=
    .pure (by simp)
  refine .ask (.ite (fun _ ↦ hstop) fun _ ↦ .skip fun context q ↦ .ite (fun _ ↦ ?_) fun _ ↦ ?_)
  · exact .pure (by simp)
  refine .ite (fun _ ↦ .ite (fun _ ↦ .pure (by simp)) fun _ ↦ .skip fun _ r ↦ ?_) fun _ ↦ ?_
  · refine (h.type r).bind fun type s htype ↦ some_typed (.node fun _ ↦ .plain ?_ ?_)
    · simpa [Plain.typeTexts] using htype
    · simpa [Plain.children] using hleft
  · refine .skip fun _ r ↦ (h.binary r _).bind fun right s hright ↦ some_typed (.node fun _ ↦ ?_)
    exact .of_parts rfl (by simpa [Plain.children] using ⟨hleft, hright⟩)

theorem binaryStep_typed (least : Nat) :
    tape.Provides p (g.binaryStep least) (Node.Typed T) := by
  refine .ask ((h.unary p).bind fun first q hfirst ↦ ?_)
  exact links_typed hfirst fun node r hnode ↦ binaryLink_typed h least _ hnode

theorem conditional_typed : tape.Provides p g.conditional (Node.Typed T) := by
  refine .ask ((h.binary p 1).bind fun test q htest ↦ .test (fun _ ↦ ?_) (.pure htest))
  refine (Provides.allowingIn (h.assignment _)).bind fun consequent r hconsequent ↦ ?_
  refine .skip fun _ s ↦ (h.assignment s).bind fun alternate t halternate ↦ .node fun _ ↦ ?_
  exact .of_parts rfl (by simpa [Plain.children] using ⟨htest, hconsequent, halternate⟩)

/-! ## Arrow functions and assignments -/

theorem arrowParams_typed : tape.Provides p g.arrowParams fun parts ↦
    (∀ param ∈ parts.1, param.Typed T) ∧ T parts.2 := by
  refine .test (fun _ ↦ ?_) (.ask (.skip fun name q ↦ ?_))
  · refine (params_typed h).bind fun params q hparams ↦ ?_
    exact (annotation_typed h).bind fun type r htype ↦ .pure ⟨hparams, htype⟩
  · refine (leafNode_typed (T := T) rfl rfl).bind fun pattern r hpattern ↦ .pure ⟨?_, h.nil⟩
    simpa [Param.Typed, Param.children] using ⟨h.nil, hpattern⟩

theorem arrowFunction_typed (isAsync : Bool) :
    tape.Provides p (g.arrowFunction isAsync) (Node.Typed T) := by
  refine .choose (P := fun _ ↦ True) (fun _ ↦ Stays.provides p) (fun _ ↦ Stays.provides p) ?_
  refine fun start q _ ↦ (Provides.textIf (fun _ ↦ h.typeParameters q) h.nil).bind ?_
  refine fun types r htypes ↦ (arrowParams_typed h).bind ?_
  rintro ⟨params, type⟩ s ⟨hparams, htype⟩
  have harrow (body : ArrowBody Node) (hbody : body.node.Typed T) (range : Range) :
      (Node.plain range (.arrow {
        typeParameters := types, params := params, returnType := type, body := body
        isAsync := isAsync })).Typed T := by
    refine .plain ?_ (List.forall_mem_append.mpr ⟨?_, by simpa using hbody⟩)
    · refine List.forall_mem_cons.mpr ⟨htypes, List.forall_mem_cons.mpr ⟨htype, ?_⟩⟩
      exact List.forall_mem_map.mpr fun param hmem ↦ (hparams param hmem).1
    · exact List.forall_mem_flatMap.mpr fun param hmem ↦ (hparams param hmem).2
  refine .skip fun _ t ↦ .test (fun _ ↦ ?_) ((h.assignment t).bind fun value u hvalue ↦ .ask ?_)
  · refine (Provides.allowingIn (block_typed h)).bind fun body u hbody ↦ .ask (.node fun range ↦ ?_)
    exact harrow (.block body) hbody range
  · exact .node (harrow (.expression value) hvalue)

theorem yielding_typed : tape.Provides p g.yielding (Node.Typed T) := by
  refine .ask (.skip fun _ q ↦ .skip fun delegate r ↦ .ask ?_)
  refine (Provides.optionally fun _ ↦ h.assignment r).bind fun argument s hargument ↦ ?_
  exact .node fun _ ↦ .of_parts rfl (by simpa [Plain.children] using hargument)

theorem assignmentStep_typed : tape.Provides p g.assignmentStep (Node.Typed T) := by
  refine .nested (.ask (.test (fun _ ↦ .skip fun _ q ↦ ?_) (.test (fun _ ↦ ?_) (.test ?_ ?_))))
  · exact arrowFunction_typed h true
  · exact arrowFunction_typed h false
  · exact fun _ ↦ yielding_typed h
  · refine (conditional_typed h).bind fun target q htarget ↦ .ask ?_
    split
    · refine .ite (fun _ ↦ .skip fun op r ↦ ?_) fun _ ↦ .pure htarget
      refine (h.assignment r).bind fun value s hvalue ↦ .node fun _ ↦ ?_
      exact .of_parts rfl (by simpa [Plain.children] using ⟨htarget, hvalue⟩)
    · exact .pure htarget

/-! ## Markup -/

instance tagName_stays : tape.Stays g.tagName where
  provides _ := .skip fun _ _ ↦ .test (fun _ ↦ .skip fun _ _ ↦ .pure trivial)
    (.skip fun _ _ ↦ .pure trivial)

instance attributeName_stays : tape.Stays attributeName := .of_reads fun _ ↦ attributeName_passes

theorem attributeValue_typed : tape.Provides p g.attributeValue (Node.Typed T) := by
  refine .ask (.test (fun _ ↦ leafNode_typed rfl rfl) (.test (fun _ ↦ ?_) (.test (fun _ ↦ ?_) ?_)))
  · refine .ask (.whenSo fun q ↦ (h.assignment q).bind fun inner r hinner ↦ .skip fun _ s ↦ ?_)
    exact .surface fun _ ↦ .of_surface_parts rfl (by simpa [Surface.children] using hinner)
  · exact h.element p
  · exact .fail _ _

theorem markupAttribute_typed : tape.Provides p g.markupAttribute (Node.Typed T) := by
  refine .ask (.test (fun _ ↦ .skip fun _ q ↦ ?_) (.skip fun name q ↦ ?_))
  · refine (h.assignment q).bind fun value r hvalue ↦ .skip fun _ _ ↦ .surface fun _ ↦ ?_
    exact .of_surface_parts rfl (by simpa [Surface.children] using hvalue)
  · refine (Provides.optionally fun _ ↦ attributeValue_typed h).bind fun value r hvalue ↦ ?_
    exact .surface fun _ ↦ .of_surface_parts rfl (by simpa [Surface.children] using hvalue)

theorem child_typed : tape.Provides p g.child fun part ↦ ∀ node ∈ part, node.Typed T := by
  refine .ask ?_
  split
  · refine .skip fun _ q ↦ .ite (fun _ ↦ .pure (by simp)) fun _ ↦ some_typed (.surface fun _ ↦ ?_)
    exact .of_surface_parts rfl (List.forall_mem_nil _)
  · refine .skip fun _ q ↦ .test (fun _ ↦ .pure (by simp)) ?_
    refine (spreadOr_typed h.assignment fun r ↦ expression_typed h).bind fun inner r hinner ↦ ?_
    refine .skip fun _ s ↦ some_typed (.surface fun _ ↦ .of_surface_parts rfl ?_)
    simpa [Surface.children] using hinner
  · exact some_typed (h.element p)
  · exact .fail _ _

theorem childNodes_typed :
    tape.Provides p g.childNodes fun nodes ↦ ∀ node ∈ nodes, node.Typed T := by
  refine (Provides.manyWhile fun q _ ↦ child_typed h).bind fun parts q hparts ↦ .pure ?_
  simpa using fun node hmem ↦ hparts (some node) hmem node rfl

theorem fragmentRest_typed (start : Token) :
    tape.Provides p (g.fragmentRest start) (Node.Typed T) := by
  refine (childNodes_typed h).bind fun children q hchildren ↦ .skip fun _ r ↦ ?_
  exact .test (fun _ ↦ .surface fun _ ↦ .of_surface_parts rfl hchildren) (.fail _ _)

theorem elementRest_typed (start : Token) (tag : Bytes) {attributes : List Node}
    (hattributes : ∀ node ∈ attributes, node.Typed T) :
    tape.Provides p (g.elementRest start tag attributes) (Node.Typed T) := by
  refine .skip fun _ q ↦ (childNodes_typed h).bind fun children r hchildren ↦ .skip fun _ s ↦ ?_
  refine .ask (.skip fun closing t ↦ .whenSo fun u ↦ .skip fun _ v ↦ .surface fun _ ↦ ?_)
  exact .of_surface_parts rfl (List.forall_mem_append.mpr ⟨hattributes, hchildren⟩)

theorem elementStep_typed : tape.Provides p g.elementStep (Node.Typed T) := by
  refine .nested (.skip fun start q ↦ .test (fun _ ↦ fragmentRest_typed h start) ?_)
  refine .skip fun tag r ↦ (Provides.manyWhile fun s _ ↦ markupAttribute_typed h).bind ?_
  refine fun attributes s hattributes ↦ .test (fun _ ↦ .surface fun _ ↦ ?_) ?_
  · exact .of_surface_parts rfl (by simpa [Surface.children] using hattributes)
  · exact elementRest_typed h start tag hattributes

end Annotates

end Grammar

end SignalView
