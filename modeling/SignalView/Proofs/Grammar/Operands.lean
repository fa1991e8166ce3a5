import SignalView.Proofs.Grammar.Types

/-!
# Operands on a tape

Argument lists, template literals, chains of links, bindings, functions, classes and primary
expressions. Each gives constructs that fit into expressions.
-/

namespace SignalView

open Parse Tape

variable {tape : Tape} {o p level : Nat} {g : Grammar}

/-! ## Chains -/

namespace Tape

/-- A step that may add a link to what has been read, and moves on when it does. -/
abbrev Links (tape : Tape) (o p : Nat) (action : Parse (Option Node)) : Prop :=
  tape.Reads o p action fun link q ↦ ∀ node ∈ link, p < q ∧ node.Fits tape.Tag .expression

namespace Links

theorem stop : tape.Links o p (pure none) := .pure (by simp)

theorem node {q : Nat} {start : Token} {form : Plain Node} (hq : p < q)
    (h : ∀ range, (Node.plain range form).Fits tape.Tag .expression) :
    tape.Reads o q (do return some (← Parse.node start form)) fun link r ↦
      ∀ node ∈ link, p < r ∧ node.Fits tape.Tag .expression :=
  .nodeThen fun range ↦ .pure (by simpa using ⟨hq, h range⟩)

/-- A round of a chain. -/
def round (link : Node → Parse (Option Node)) (node : Node) : Parse (Node × Bool) := do
  match ← link node with
  | some next => return (next, true)
  | none => return (node, false)

/-- All links behind a construct. -/
theorem chain {link : Node → Parse (Option Node)} {rounds : Nat} {first : Node}
    (hlink : ∀ node q, p ≤ q → q ≤ tape.size → node.Fits tape.Tag .expression →
      tape.Links o q (link node))
    (hrounds : tape.size - p < rounds) (hfirst : first.Fits tape.Tag .expression) :
    tape.Skips o p (iterate (round link) rounds first) (Node.Fits tape.Tag .expression) := by
  refine .iterate (P := fun node _ ↦ node.Fits tape.Tag .expression) ?_ hrounds hfirst
  intro node q hq hsize hnode
  refine (hlink node q hq hsize hnode).bind ?_
  rintro (_ | next) r _ _ hnext
  · exact .pure (.last hnode)
  · obtain ⟨hlt, hfits⟩ := hnext next rfl
    exact .pure (.more hlt hfits)

end Links

end Tape

namespace Grammar

section Served

variable (h : tape.Serves g level)

include h

theorem expression_forms (hlevel : 12 * (tape.size - p) + 6 ≤ level) :
    tape.Forms o p g.expression .expression := by
  have hrounds := h.rounds
  refine .ask ((h.assignment hlevel).bind fun first q hq _ hfirst ↦ ?_)
  refine .test (fun _ _ _ ↦ ?_) (.pure ⟨hq, hfirst⟩)
  refine (Reads.manyWhile (K := Node.Fits tape.Tag .expression) ?_ (by omega)).bind
    fun rest r hr _ hrest ↦ ?_
  · intro r hr _ _ _
    exact (h.assignment (by omega)).onward (by omega)
  · exact .node fun _ ↦ ⟨by omega,
      .of_plain rfl trivial (by simpa [Plain.slots] using ⟨hfirst, hrest⟩)⟩

omit h in
theorem spreadOr_forms {part otherwise : Parse Node}
    (hpart : p < tape.size → tape.Forms o (p + 1) part .expression)
    (hother : tape.Forms o p otherwise .expression) :
    tape.Forms o p (spreadOr part otherwise) .expression := by
  refine .ask (.test (fun hfound _ _ ↦ ?_) hother)
  refine (hpart hfound.2).bind fun argument q hq _ hargument ↦ ?_
  exact .node fun _ ↦ ⟨by omega, .of_plain rfl trivial (by simpa [Plain.slots] using hargument)⟩

theorem arguments_passes (hlevel : 12 * (tape.size - p) ≤ level) :
    tape.Passes o p g.arguments fun args ↦ ∀ arg ∈ args, arg.Fits tape.Tag .expression := by
  have hrounds := h.rounds
  refine .expectMark fun _ ↦ ?_
  refine (Reads.allowingIn (Reads.commaList (K := Node.Fits tape.Tag .expression) ?_
    (by omega))).bind fun args q hq _ hargs ↦ .expectMark fun _ ↦ .pure ⟨by omega, hargs⟩
  intro q hq _ _ _
  exact spreadOr_forms (fun _ ↦ h.assignment (by omega)) (h.assignment (by omega))

/-! ## Templates -/

/-- The parts of a template: one more chunk of text than there are substitutions. -/
def TemplateParts (tape : Tape) (parts : List Bytes × List Node) : Prop :=
  parts.1.length = parts.2.length + 1 ∧ ∀ hole ∈ parts.2, hole.Fits tape.Tag .expression

theorem templateStep_round (hlevel : 12 * (tape.size - p) + 6 ≤ level)
    {parts : List Bytes × List Node} (hparts : TemplateParts tape parts) :
    tape.Reads o p (g.templateStep parts)
      (Reads.Round (fun parts _ ↦ TemplateParts tape parts)
        (fun parts _ ↦ TemplateParts tape parts) p) := by
  obtain ⟨hlength, hholes⟩ := hparts
  refine (expression_forms h hlevel).bind fun hole q hq _ hhole ↦ .ask ?_
  have hnext (chunk : Bytes) : TemplateParts tape (parts.1 ++ [chunk], parts.2 ++ [hole]) :=
    ⟨by simp [hlength], by simpa [or_imp, forall_and] using ⟨hholes, hhole⟩⟩
  refine .test (fun _ _ _ ↦ .pure (.more (by omega) (hnext _))) ?_
  exact .expect fun _ _ ↦ .pure (.last (hnext _))

theorem templateLiteral_forms (hlevel : 12 * (tape.size - p) ≤ level) :
    tape.Forms o p g.templateLiteral .expression := by
  have hrounds := h.rounds
  refine .ask (.test (fun _ _ _ ↦ ?_) (.expect fun _ hlt ↦ ?_))
  · exact .node fun _ ↦ ⟨by omega, .of_plain rfl rfl (by simp [Plain.slots])⟩
  · have hparts : tape.Skips o (p + 1) (iterate g.templateStep g.rounds
        ([(tape.token p).value], [])) (TemplateParts tape) := by
      refine .iterate (P := fun parts _ ↦ TemplateParts tape parts) (fun parts q hq _ hparts ↦ ?_)
        (by omega) ⟨rfl, by simp⟩
      exact templateStep_round h (by omega) hparts
    refine hparts.allowingIn.bind ?_
    rintro ⟨quasis, holes⟩ q hq _ ⟨hlength, hholes⟩
    exact .node fun _ ↦ ⟨by omega, .of_plain rfl hlength (by simpa [Plain.slots] using hholes)⟩

/-! ## Links -/

section Links

variable {start : Token} {receiver : Node} (hreceiver : receiver.Fits tape.Tag .expression)

include hreceiver

omit h in
theorem call_fits {range : Range} {typeArguments : List Bytes} {args : List Node} {optional : Bool}
    (hargs : ∀ arg ∈ args, arg.Fits tape.Tag .expression) :
    (Node.plain range (.call receiver typeArguments args optional)).Fits tape.Tag .expression :=
  .of_plain rfl trivial (by simpa [Plain.slots] using ⟨hreceiver, hargs⟩)

omit h in
theorem taggedTemplate_fits {range : Range} {typeArguments : List Bytes} {quasi : Node}
    (hquasi : quasi.Fits tape.Tag .expression) :
    (Node.plain range (.taggedTemplate receiver typeArguments quasi)).Fits tape.Tag .expression :=
  .of_plain rfl trivial (by simpa [Plain.slots] using ⟨hreceiver, hquasi⟩)

omit h in
theorem member_fits {range : Range} {key : MemberKey Node} {optional : Bool}
    (hkey : ∀ index, key = .computed index → index.Fits tape.Tag .expression) :
    (Node.plain range (.member receiver key optional)).Fits tape.Tag .expression := by
  refine .of_plain rfl trivial ?_
  cases key with
  | named name => simpa [Plain.slots, MemberKey.slots] using hreceiver
  | computed index => simpa [Plain.slots, MemberKey.slots] using ⟨hreceiver, hkey index rfl⟩

theorem optionalLink_forms (hlevel : 12 * (tape.size - p) + 6 ≤ level) :
    tape.Forms o p (g.optionalLink start receiver) .expression := by
  refine .test (fun _ _ _ ↦ ?_) (.test (fun _ _ _ ↦ ?_) ?_)
  · refine (arguments_passes h (by omega)).bind fun args q hq _ hargs ↦ ?_
    exact .node fun _ ↦ ⟨hq, call_fits hreceiver hargs⟩
  · refine (expression_forms h (by omega)).bind fun index q hq _ hindex ↦ .expectMark fun _ ↦ ?_
    exact .node fun _ ↦ ⟨by omega, member_fits hreceiver (by rintro _ ⟨⟩; exact hindex)⟩
  · refine Passes.bind (Reads.expectMemberName (by simp)) fun name q hq _ _ ↦ ?_
    exact .node fun _ ↦ ⟨hq, member_fits hreceiver (by rintro _ ⟨⟩)⟩

theorem genericLink_links (hlevel : 12 * (tape.size - p) ≤ level) :
    tape.Links o p (g.genericLink start receiver) := by
  have htemplate : tape.Links o p (do
      let typeArguments ← g.typeArguments
      let quasi ← g.templateLiteral
      return some (← node start (.taggedTemplate receiver typeArguments quasi))) := by
    refine (typeArguments_passes h hlevel).bind fun _ q hq _ _ ↦ ?_
    refine (templateLiteral_forms h (by omega)).bind fun quasi r hr _ hquasi ↦ ?_
    exact Links.node (by omega) fun _ ↦ taggedTemplate_fits hreceiver hquasi
  refine .ask ?_
  split
  · refine (typeArguments_passes h hlevel).bind fun _ q hq _ _ ↦ ?_
    refine (arguments_passes h (by omega)).bind fun args r hr _ hargs ↦ ?_
    exact Links.node (by omega) fun _ ↦ call_fits hreceiver hargs
  · exact htemplate
  · exact htemplate
  · exact Links.stop

theorem link_links (hlevel : 12 * (tape.size - p) ≤ level) (calls : Bool) :
    tape.Links o p (g.link start calls receiver) := by
  have htemplate : tape.Links o p (do
      let quasi ← g.templateLiteral
      return some (← node start (.taggedTemplate receiver [] quasi))) := by
    refine (templateLiteral_forms h (by omega)).bind fun quasi r hr _ hquasi ↦ ?_
    exact Links.node (by omega) fun _ ↦ taggedTemplate_fits hreceiver hquasi
  refine .ask ?_
  split
  · next hkind =>
    refine .advance (lt_size_of_kind hkind) ?_
    refine Passes.bind (Reads.expectMemberName (by simp)) fun name q hq _ _ ↦ ?_
    exact Links.node (by omega) fun _ ↦ member_fits hreceiver (by rintro _ ⟨⟩)
  · next hkind =>
    have hlt : p < tape.size := lt_size_of_kind hkind
    refine .advance hlt ((optionalLink_forms h hreceiver (by omega)).bind
      fun node q hq _ hnode ↦ .pure ?_)
    simpa using ⟨by omega, hnode⟩
  · next hkind =>
    have hlt : p < tape.size := lt_size_of_kind hkind
    refine .advance hlt ((expression_forms h (by omega)).allowingIn.bind ?_)
    rintro index q hq _ ⟨hlt', hindex⟩
    exact .expectMark fun _ ↦ Links.node (by omega)
      fun _ ↦ member_fits hreceiver (by rintro _ ⟨⟩; exact hindex)
  · refine .ite (fun _ ↦ ?_) fun _ ↦ Links.stop
    refine (arguments_passes h (by omega)).bind fun args q hq _ hargs ↦ ?_
    exact Links.node hq fun _ ↦ call_fits hreceiver hargs
  · exact .ite (fun _ ↦ genericLink_links h hreceiver hlevel) fun _ ↦ Links.stop
  · exact htemplate
  · exact htemplate
  · next hkind =>
    refine .test (fun _ _ _ ↦ .advance (lt_size_of_kind hkind) ?_) Links.stop
    exact Links.node (by omega) fun _ ↦
      .of_plain rfl trivial (by simpa [Plain.slots] using hreceiver)
  · exact Links.stop

theorem chain_skips (hlevel : 12 * (tape.size - p) + 1 ≤ level) (calls : Bool) :
    tape.Skips o p (g.chain start calls receiver) (Node.Fits tape.Tag .expression) := by
  have hrounds := h.rounds
  change tape.Skips o p (iterate (Links.round (g.link start calls)) g.rounds receiver) _
  refine Links.chain (fun node q hq _ hnode ↦ ?_) (by omega) hreceiver
  exact link_links h hnode (by omega) calls

end Links

theorem operand_forms (hlevel : 12 * (tape.size - p) + 3 ≤ level) :
    tape.Forms o p g.operand .expression :=
  .test (fun _ _ _ ↦ h.construction (by omega)) (h.primary hlevel)

theorem leftHandSide_forms (hlevel : 12 * (tape.size - p) + 3 ≤ level) :
    tape.Forms o p g.leftHandSide .expression := by
  refine .ask ((operand_forms h hlevel).bind fun first q hq _ hfirst ↦ ?_)
  exact (chain_skips h hfirst (by omega) true).onward hq

theorem decorators_skips (hlevel : 12 * (tape.size - p) + 1 ≤ level) :
    tape.Skips o p g.decorators fun nodes ↦ ∀ node ∈ nodes, node.Fits tape.Tag .expression := by
  have hrounds := h.rounds
  refine .manyWhile (fun q hq _ _ _ ↦ ?_) (by omega)
  exact (leftHandSide_forms h (by omega)).onward (by omega)

theorem constructionStep_forms (hlevel : 12 * (tape.size - p) + 1 ≤ level) :
    tape.Forms o p g.constructionStep .expression := by
  refine .ask (.expectWord fun hlt ↦ .test (fun _ _ _ ↦ ?_) ?_)
  · refine .nodeThen fun range ↦ Reads.expectName.bind fun name q hq _ _ ↦ .node fun _ ↦ ?_
    exact ⟨by omega, member_fits Node.identifier_fits (by rintro _ ⟨⟩)⟩
  · refine .ask ((operand_forms h (by omega)).bind fun first q hq _ hfirst ↦ ?_)
    refine (chain_skips h hfirst (by omega) false).bind fun callee r hr _ hcallee ↦ ?_
    refine .either (P := fun _ _ ↦ True) (fun _ _ _ ↦ (typeArguments_passes h (by omega)).skips)
      (.pure trivial) fun typeArguments s hs _ _ ↦ ?_
    refine Reads.bind (P := fun args _ ↦ ∀ arg ∈ args.getD [], arg.Fits tape.Tag .expression)
      (.optionally (fun _ _ _ ↦ (arguments_passes h (by omega)).skips) (by simp))
      fun args t ht _ hargs ↦ .node fun _ ↦ ⟨by omega, ?_⟩
    exact .of_plain rfl trivial (by simpa [Plain.slots] using ⟨hcallee, hargs⟩)

/-! ## Keys -/

/-- A key is computed, or it is a name, a text or a number. -/
theorem propertyKey_passes (hlevel : 12 * (tape.size - p) ≤ level) {rules : KeyRules}
    (hrules : rules.isNumber .eof = false) :
    tape.Passes o p (g.propertyKey rules) fun key ↦ key.1.Fits tape.Tag (keyPlace key.2) := by
  refine .ask (.test (fun hfound _ _ ↦ ?_) ?_)
  · refine (h.assignment (by omega)).bind fun key q hq _ hkey ↦ ?_
    exact .expectMark fun _ ↦ .pure ⟨by omega, hkey⟩
  refine .ite (fun hkind ↦ ?_) fun _ ↦ .ite (fun hkind ↦ ?_) fun _ ↦ .ite (fun hkind ↦ ?_) fun _ ↦
    (.fail (by simp))
  · refine .nodeThen fun _ ↦ .advance (lt_size_of_beq hkind) (.pure ⟨by omega, ?_⟩)
    exact .of_plain rfl trivial (by simp [Plain.slots])
  · refine .advance (lt_size_of_holds (f := rules.isNumber) hkind hrules) ?_
    refine .nodeThen fun _ ↦ .pure ⟨by omega, ?_⟩
    exact .of_plain rfl trivial (by simp [Plain.slots])
  · refine .advance (lt_size_of_holds (f := TokenKind.isPropertyName) hkind rfl) ?_
    exact .nodeThen fun _ ↦ .pure ⟨by omega, .of_plain rfl trivial (by simp [Plain.slots])⟩

/-- A target with its default; a name stays a name. -/
theorem withDefault_skips (hlevel : 12 * (tape.size - p) ≤ level) {start : Token} {target : Node}
    (htarget : target.Fits tape.Tag .expression) :
    tape.Skips o p (g.withDefault start target) fun node ↦ node.Fits tape.Tag .expression ∧
      ∀ name, target.name? = some name → node.BindsPlainly name := by
  refine .test (fun _ _ _ ↦ ?_) (.pure ⟨htarget, fun _ hname ↦ .inl hname⟩)
  refine (h.assignment (by omega)).bind fun initial q hq _ hinitial ↦ .node fun range ↦ ?_
  refine ⟨.of_plain rfl trivial (by simpa [Plain.slots] using ⟨htarget, hinitial⟩), ?_⟩
  exact fun name hname ↦ .inr ⟨range, target, initial, rfl, hname⟩

theorem shorthandProperty_skips (hlevel : 12 * (tape.size - p) ≤ level) {start : Token}
    {key : Node} {computed : Bool} (hkey : key.Fits tape.Tag (keyPlace computed))
    (message : String) :
    tape.Skips o p (g.shorthandProperty start key computed message) fun property ↦
      tape.Fills property.slots ∧ property.Regular := by
  unfold shorthandProperty
  split
  · next name hname =>
    refine .nodeThen fun _ ↦ ?_
    refine (withDefault_skips h hlevel Node.identifier_fits).bind fun value q hq _ hvalue ↦ .pure ?_
    obtain ⟨hfits, hbinds⟩ := hvalue
    refine ⟨?_, rfl, name, hname, ?_⟩
    · simpa [Property.slots, PropertyKind.valuePlace] using ⟨hkey, hfits⟩
    · rintro _ ⟨⟩
      exact hbinds name rfl
  · exact .fail (by simp)

/-! ## Patterns -/

omit h in
theorem object_fits {range : Range} {properties : List (Property Node)}
    (h : ∀ property ∈ properties, tape.Fills property.slots ∧ property.Regular) :
    (Node.plain range (.object properties)).Fits tape.Tag .expression := by
  refine .of_plain rfl (fun property hp ↦ (h property hp).2) ?_
  simpa [Plain.slots] using fun property hp ↦ (h property hp).1

theorem bindingElement_forms (hlevel : 12 * (tape.size - p) + 2 ≤ level) :
    tape.Forms o p g.bindingElement .expression := by
  refine .ask ((h.bindingTarget hlevel).bind fun target q hq _ htarget ↦ ?_)
  refine (withDefault_skips h (by omega) htarget).mono fun _ r hr _ hnode ↦ ⟨by omega, hnode.1⟩

omit h in
theorem arrayElements_skips {element : Parse Node} (hrounds : tape.size - p < g.rounds)
    (helement : ∀ q, p ≤ q → q ≤ tape.size → tape.Forms o q element .expression) :
    tape.Skips o p (g.arrayElements element) fun nodes ↦
      ∀ node ∈ nodes, node.Fits tape.Tag .expression := by
  refine .looseList (fun q hq _ hsize _ ↦ .ask ?_) hrounds
  refine .test (fun _ _ _ ↦ .nodeThen fun _ ↦ .pure ⟨by omega, ?_⟩) ?_
  · exact .of_plain rfl trivial (by simp [Plain.slots])
  · exact (helement q hq hsize).bind fun node r hr _ hnode ↦ .pure ⟨hr, hnode⟩

theorem patternProperty_passes (hlevel : 12 * (tape.size - p) ≤ level) :
    tape.Passes o p g.patternProperty fun property ↦
      tape.Fills property.slots ∧ property.Regular := by
  refine .test (fun _ _ _ ↦ ?_) (.ask ?_)
  · refine (h.bindingTarget (by omega)).bind fun value q hq _ hvalue ↦ .pure ⟨by omega, ?_, rfl⟩
    simpa [Property.slots, PropertyKind.valuePlace] using hvalue
  · refine (propertyKey_passes h hlevel rfl).bind ?_
    rintro ⟨key, computed⟩ q hq _ hkey
    refine .test (fun _ _ _ ↦ ?_) ((shorthandProperty_skips h (by omega) hkey _).onward hq)
    refine (bindingElement_forms h (by omega)).bind fun value r hr _ hvalue ↦ ?_
    refine .pure ⟨by omega, ?_, trivial⟩
    simpa [Property.slots, PropertyKind.valuePlace] using ⟨hkey, hvalue⟩

theorem bindingTargetStep_forms (hlevel : 12 * (tape.size - p) + 1 ≤ level) :
    tape.Forms o p g.bindingTargetStep .expression := by
  have hrounds := h.rounds
  refine .ask (.test (fun _ _ _ ↦ ?_) (.test (fun _ _ _ ↦ ?_) ?_))
  · refine (arrayElements_skips (by omega) fun q hq _ ↦ ?_).bind fun elements r hr _ helements ↦ ?_
    · exact spreadOr_forms (fun _ ↦ h.bindingTarget (by omega)) (bindingElement_forms h (by omega))
    · exact .expectMark fun _ ↦ .node fun _ ↦ ⟨by omega,
        .of_plain rfl trivial (by simpa [Plain.slots] using helements)⟩
  · refine (Reads.commaList (fun q hq _ _ _ ↦ patternProperty_passes h (by omega))
      (by omega)).bind fun properties r hr _ hproperties ↦ .expectMark fun _ ↦ .node fun _ ↦ ?_
    exact ⟨by omega, object_fits hproperties⟩
  · exact Reads.expectName.bind fun name q hq _ _ ↦ .node fun _ ↦ ⟨hq, Node.identifier_fits⟩

/-! ## Functions -/

omit h in
instance asks_atParamModifier : Asks tape p atParamModifier
    ((tape.kind p == .word .public_ || tape.kind p == .word .private_ ||
        tape.kind p == .word .protected_ || tape.kind p == .word .readonly ||
        (tape.kind p == .identifier && (tape.token p).value == bytes "override")) &&
      ((tape.kind (p + 1)).isName || tape.kind (p + 1) == .mark .openBrace ||
        tape.kind (p + 1) == .mark .openBracket)) :=
  Asks.bind

/-- A construct that may be missing. -/
theorem optionally_assignment {m : Mark} (hlevel : 12 * (tape.size - p) ≤ level) :
    tape.Skips o p (optionally (acceptMark m) g.assignment) fun value ↦
      ∀ node ∈ value, node.Fits tape.Tag .expression := by
  refine .optionally (fun _ _ _ ↦ ?_) (by simp)
  exact (h.assignment (by omega)).mono fun _ _ _ _ hnode ↦ by simpa using hnode.2

theorem param_passes (hlevel : 12 * (tape.size - p) + 2 ≤ level) :
    tape.Passes o p g.param fun param ↦ tape.Fills param.slots := by
  have hrounds := h.rounds
  refine (decorators_skips h (by omega)).bind fun decorators q hq _ hdecorators ↦ ?_
  refine (Reads.manyWhile (K := fun _ ↦ True) ?_ (by omega)).bind fun modifiers r hr _ _ ↦ ?_
  · intro r hr _ _ hmodifier
    have hlt : r < tape.size := lt_size_of_kind_ne fun hend ↦ by simp [hend] at hmodifier
    exact (Reads.takes hlt).mono fun _ _ _ _ h ↦ ⟨by omega, trivial⟩
  refine Reads.condition.bind fun rest s hs _ _ ↦ .ask ?_
  refine .either (P := fun pattern t ↦ s < t ∧ pattern.Fits tape.Tag .expression)
    (fun _ _ _ ↦ .node fun _ ↦ ⟨by omega, Node.identifier_fits⟩) (h.bindingTarget (by omega)) ?_
  rintro pattern t _ _ ⟨ht, hpattern⟩
  refine Reads.condition.bind fun optional u hu _ _ ↦ ?_
  refine (annotation_skips h (by omega)).bind fun type v hv _ _ ↦ ?_
  refine (optionally_assignment h (by omega)).bind fun initial w hw _ hinitial ↦ .pure ?_
  exact ⟨by omega, by simpa [Param.slots] using ⟨hdecorators, hpattern, hinitial⟩⟩

theorem params_passes (hlevel : 12 * (tape.size - p) ≤ level) :
    tape.Passes o p g.params fun params ↦ ∀ param ∈ params, tape.Fills param.slots := by
  have hrounds := h.rounds
  refine .expectMark fun hlt ↦ ?_
  refine (Reads.commaList (fun q hq _ _ _ ↦ param_passes h (by omega)) (by omega)).bind
    fun params q hq _ hparams ↦ ?_
  exact .expectMark fun _ ↦ .pure ⟨by omega, hparams⟩

theorem block_forms (hlevel : 12 * (tape.size - p) ≤ level) :
    tape.Forms o p g.block .statement := by
  have hrounds := h.rounds
  refine .expect fun _ hlt ↦ ?_
  refine (Reads.manyWhile (fun q hq _ _ _ ↦ h.statement (by omega)) (by omega)).bind
    fun body q hq _ hbody ↦ .expectMark fun _ ↦ .node fun _ ↦ ⟨by omega, ?_⟩
  exact .of_plain rfl trivial (by simpa [Plain.slots] using hbody)

/-- The signature of a function leaves the rest of it as it is. -/
theorem signature_passes (hlevel : 12 * (tape.size - p) ≤ level) (f : Callable Node) :
    tape.Passes o p (g.signature f) fun f' ↦ f'.name = f.name ∧ f'.body = f.body ∧
      ∀ param ∈ f'.params, tape.Fills param.slots := by
  refine (optionalTypeParameters_skips h hlevel).bind fun _ q hq _ _ ↦ ?_
  refine (params_passes h (by omega)).bind fun params r hr _ hparams ↦ ?_
  refine (annotation_skips h (by omega)).bind fun _ s hs _ _ ↦ ?_
  exact .pure ⟨by omega, rfl, rfl, hparams⟩

theorem functionRest_passes (hlevel : 12 * (tape.size - p) ≤ level) (bodyOptional : Bool)
    {f : Callable Node} (hf : f.body = none) :
    tape.Passes o p (g.functionRest bodyOptional f) fun f' ↦ tape.Fills f'.slots ∧
      (bodyOptional = false → f'.body.isSome) := by
  refine (signature_passes h hlevel f).bind ?_
  rintro f' q hq _ ⟨-, hbody, hparams⟩
  refine .test (fun _ _ _ ↦ ?_) (.ite (fun hoptional ↦ ?_) fun _ ↦ .fail (by simp))
  · refine (block_forms h (by omega)).bind fun body r hr _ hblock ↦ .pure ⟨by omega, ?_, by simp⟩
    simpa [Callable.slots] using ⟨hparams, hblock⟩
  · refine Reads.semicolon.bind fun _ r hr _ _ ↦ .pure ⟨by omega, ?_, by simp [hoptional]⟩
    simpa [Callable.slots, hbody, hf] using hparams

/-- The function of a method; it has a body unless that is optional. -/
theorem methodFunction_passes (hlevel : 12 * (tape.size - p) ≤ level)
    (bodyOptional isAsync isGenerator : Bool) :
    tape.Passes o p (g.methodFunction bodyOptional isAsync isGenerator) fun node ↦
      node.Fits tape.Tag .function ∧ (bodyOptional = false → node.HasBody) := by
  refine .ask ((functionRest_passes h hlevel bodyOptional rfl).bind ?_)
  rintro f q hq _ ⟨hslots, hbody⟩
  exact .node fun range ↦ ⟨hq, .of_plain rfl trivial hslots, fun hb ↦ ⟨range, f, rfl, hbody hb⟩⟩

/-! ## Classes -/

omit h in
instance asks_memberNameFollows : Asks tape p memberNameFollows
    (!endsMemberName (tape.kind (p + 1)) && !(tape.token (p + 1)).newlineBefore) :=
  Asks.bind

omit h in
instance tests_atMemberModifier : Tests tape p atMemberModifier p (p < tape.size) :=
  .of_asks Asks.bind fun hmodifier ↦ lt_size_of_kind_ne fun hend ↦ by
    simp [hend] at hmodifier

omit h in
theorem memberModifiers_skips (hrounds : tape.size - p < g.rounds) :
    tape.Skips o p (manyWhile g.rounds atMemberModifier take) fun _ ↦ True := by
  refine (Reads.manyWhile (K := fun _ ↦ True) ?_ hrounds).mono fun _ _ _ _ _ ↦ trivial
  intro q _ _ _ hlt
  exact (Reads.takes hlt).mono fun _ _ _ _ h ↦ ⟨by omega, trivial⟩

omit h in
theorem accessorKind_skips : tape.Skips o p accessorKind fun kind ↦
    kind = .getter ∨ kind = .setter ∨ kind = .property := by
  refine .ask (.ask (.ite (fun hfound ↦ ?_) fun _ ↦ .pure (by simp)))
  have hlt : p < tape.size :=
    lt_size_of_kind_ne fun hend ↦ by simp [hend] at hfound
  refine .advance hlt (.pure ?_)
  split <;> simp

omit h in
theorem memberMarks_skips : tape.Skips o p memberMarks fun _ ↦ True := by
  refine .test (fun _ _ _ ↦ .pure trivial) (.ask (.ask (.ite (fun hfound ↦ ?_) fun _ ↦ ?_)))
  · exact .advance (lt_size_of_beq (Bool.and_eq_true_iff.mp hfound).1) (.pure trivial)
  · exact .pure trivial

theorem namedMember_passes (hlevel : 12 * (tape.size - p) ≤ level) {member : ClassMember Node}
    (hdecorators : ∀ node ∈ member.decorators, node.Fits tape.Tag .expression)
    (hblock : member.block = none) :
    tape.Passes o p (g.namedMember member) fun m ↦ tape.Fills m.slots ∧ m.Regular := by
  refine .ask (.ask (.iteThen (P := fun q ↦ p ≤ q) (fun _ ↦ ?_) (fun _ ↦ Nat.le_refl p) ?_))
  · exact Reads.advance_skips.mono fun _ _ hq _ _ ↦ hq
  intro q hq _ _
  refine Reads.condition.bind fun isGenerator r hr _ _ ↦ ?_
  refine accessorKind_skips.bind fun accessor s hs _ haccessor ↦ .ask ?_
  refine (propertyKey_passes h (by omega) rfl).bind ?_
  rintro ⟨key, computed⟩ t ht _ hkey
  obtain ⟨kind, hgiven, hkind⟩ : ∃ kind, (if accessor == .property &&
      (tape.token s).kind.isPropertyName && (tape.token s).kind != .string &&
      (tape.token s).value == bytes "constructor" then .constructor else accessor) = kind ∧
      (kind = .constructor ∨ kind = .getter ∨ kind = .setter ∨ kind = .property) := by
    refine ⟨_, rfl, ?_⟩
    split
    · exact .inl rfl
    · exact .inr haccessor
  refine memberMarks_skips.bind ?_
  rintro ⟨optional, definite⟩ u hu _ -
  simp only [hgiven]
  refine .test (fun _ _ _ ↦ ?_) (.ite (fun _ ↦ .fail (by simp)) fun hproperty ↦ ?_)
  · refine (methodFunction_passes h (by omega) true _ isGenerator).bind fun value v hv _ hvalue ↦ ?_
    refine .pure ⟨by omega, ?_⟩
    rcases hkind with rfl | rfl | rfl | rfl <;>
      simpa [ClassMember.slots, MemberKind.isFunction, MemberKind.valuePlace, ClassMember.Regular,
        hblock] using ⟨hdecorators, hkey, hvalue.1⟩
  · refine (annotation_skips h (by omega)).bind fun type v hv _ _ ↦ ?_
    refine (optionally_assignment h (by omega)).bind fun value w hw _ hvalue ↦ ?_
    refine Reads.semicolon.bind fun _ x hx _ _ ↦ .pure ⟨by omega, ?_⟩
    simpa [ClassMember.slots, MemberKind.isFunction, MemberKind.valuePlace, ClassMember.Regular,
      hblock] using ⟨hdecorators, hkey, hvalue⟩

theorem classMember_passes (hlevel : 12 * (tape.size - p) + 1 ≤ level) :
    tape.Passes o p g.classMember fun m ↦ tape.Fills m.slots ∧ m.Regular := by
  have hrounds := h.rounds
  refine (decorators_skips h (by omega)).bind fun decorators q hq _ hdecorators ↦ ?_
  refine (memberModifiers_skips (by omega)).bind fun modifiers r hr _ _ ↦ ?_
  refine .ask (.ite (fun _ ↦ ?_) fun _ ↦ .ask (.ask (.ask (.ite (fun _ ↦ ?_) fun _ ↦ ?_))))
  · refine (block_forms h (by omega)).bind fun block s hs _ hblock ↦ .pure ⟨by omega, ?_⟩
    simpa [ClassMember.slots, MemberKind.isFunction, MemberKind.valuePlace, ClassMember.Regular]
      using ⟨hdecorators, hblock⟩
  · refine (typeMember_passes h (by omega)).bind fun _ s hs _ _ ↦ ?_
    refine Reads.semicolon.bind fun _ t ht _ _ ↦ .pure ⟨by omega, ?_⟩
    simpa [ClassMember.slots, MemberKind.isFunction, MemberKind.valuePlace, ClassMember.Regular]
      using hdecorators
  · exact (namedMember_passes h (by omega) hdecorators rfl).onward (by omega)

theorem classBody_skips (hlevel : 12 * (tape.size - p) + 1 ≤ level) :
    tape.Skips o p g.classBody fun members ↦ ∀ m ∈ members, tape.Fills m.slots ∧ m.Regular := by
  have hrounds := h.rounds
  refine .iterate (P := fun members _ ↦ ∀ m ∈ members, tape.Fills m.slots ∧ m.Regular) ?_
    (by omega) (by simp)
  intro members q hq _ hmembers
  refine .test (fun _ _ _ ↦ ?_) (.pure (.last hmembers))
  refine .test (fun _ _ _ ↦ .pure (.more (by omega) hmembers)) ?_
  refine (classMember_passes h (by omega)).bind fun member r hr _ hmember ↦ .pure (.more hr ?_)
  rw [List.forall_mem_append, List.forall_mem_singleton]
  exact ⟨hmembers, hmember⟩

theorem superClass_skips (hlevel : 12 * (tape.size - p) ≤ level) :
    tape.Skips o p g.superClass fun parent ↦ ∀ node ∈ parent.1, node.Fits tape.Tag .expression := by
  refine .test (fun _ _ _ ↦ .ask ?_) (.pure (by simp))
  refine (h.primary (by omega)).bind fun first q hq _ hfirst ↦ ?_
  refine (chain_skips h hfirst (by omega) true).bind fun parent r hr _ hparent ↦ ?_
  refine .either (P := fun _ _ ↦ True) (fun _ _ _ ↦ (typeArguments_passes h (by omega)).skips)
    (.pure trivial) fun _ _ _ _ _ ↦ .pure (by simpa using hparent)

theorem classDeclaration_passes (hlevel : 12 * (tape.size - p) ≤ level) {decorators : List Node}
    (hdecorators : ∀ node ∈ decorators, node.Fits tape.Tag .expression)
    (isAbstract isDeclare : Bool) :
    tape.Passes o p (g.classDeclaration decorators isAbstract isDeclare) fun node ↦
      node.Fits tape.Tag .statement ∧ node.Fits tape.Tag .class_ := by
  have hrounds := h.rounds
  refine .ask (.expectWord fun hlt ↦ .ask (.ask ?_))
  refine (Skips.textIf fun hnamed _ _ ↦ ?_).bind fun _ q hq _ _ ↦ ?_
  · have hlt : p + 1 < tape.size :=
      lt_size_of_holds (f := TokenKind.isName) (Bool.and_eq_true_iff.mp hnamed).1 rfl
    exact (Reads.takes hlt).mono fun _ _ _ _ _ ↦ trivial
  refine (optionalTypeParameters_skips h (by omega)).bind fun _ r hr _ _ ↦ ?_
  refine (superClass_skips h (by omega)).bind ?_
  rintro ⟨parent, superTypeArguments⟩ s hs _ hparent
  refine .either (P := fun _ t ↦ s ≤ t) (fun _ _ _ ↦ ?_) (.pure (Nat.le_refl s))
    fun _ t ht _ _ ↦ ?_
  · exact (Reads.separated (fun _ _ _ ↦ h.type (by omega)) (by omega)).mono
      fun _ _ _ _ _ ↦ by omega
  refine .expectMark fun _ ↦ (classBody_skips h (by omega)).bind fun members u hu _ hmembers ↦ ?_
  refine .expectMark fun _ ↦ .node fun _ ↦ ⟨by omega, ?_⟩
  have hslots {c : ClassShape Node} (hc : c.decorators = decorators) (hp : c.superClass = parent)
      (hm : c.members = members) : tape.Fills (Plain.classDeclaration c).slots := by
    simpa [Plain.slots, ClassShape.slots, hc, hp, hm] using
      ⟨hdecorators, hparent, fun m hmem ↦ (hmembers m hmem).1⟩
  have hregular := fun m hmem ↦ (hmembers m hmem).2
  exact ⟨.of_plain rfl hregular (hslots rfl rfl rfl), .of_plain rfl hregular (hslots rfl rfl rfl)⟩

/-! ## Primary expressions -/

theorem arrayLiteral_forms (hlevel : 12 * (tape.size - p) ≤ level) :
    tape.Forms o p g.arrayLiteral .expression := by
  have hrounds := h.rounds
  refine .ask (.expectMark fun _ ↦ ?_)
  refine (arrayElements_skips (by omega) fun q hq _ ↦ ?_).allowingIn.bind
    fun elements r hr _ helements ↦ .expectMark fun _ ↦ .node fun _ ↦ ⟨by omega, ?_⟩
  · exact spreadOr_forms (fun _ ↦ h.assignment (by omega)) (h.assignment (by omega))
  · exact .of_plain rfl trivial (by simpa [Plain.slots] using helements)

omit h in
theorem asks_propertyNameFollows : ∃ b, Asks tape p propertyNameFollows b := by
  refine Asks.exists_bind ?_
  split <;> exact ⟨_, inferInstance⟩

omit h in
theorem accessorProperty_skips : tape.Skips o p accessorProperty fun kind ↦
    kind = .getter ∨ kind = .setter ∨ kind = .init := by
  obtain ⟨follows, hfollows⟩ : ∃ b, Asks tape p propertyNameFollows b := asks_propertyNameFollows
  refine .ask (.ask (.ite (fun hfound ↦ ?_) fun _ ↦ .pure (by simp)))
  have hlt : p < tape.size := lt_size_of_kind_ne fun hend ↦ by simp [hend] at hfound
  refine .advance hlt (.pure ?_)
  split <;> simp

theorem keyedProperty_passes (hlevel : 12 * (tape.size - p) ≤ level) :
    tape.Passes o p g.keyedProperty fun property ↦
      tape.Fills property.slots ∧ property.Regular := by
  obtain ⟨follows, hfollows⟩ : ∃ b, Asks tape p propertyNameFollows b := asks_propertyNameFollows
  refine .ask (.ask (.ask ?_))
  refine .iteThen (P := fun q ↦ p ≤ q) (fun _ ↦ ?_) (fun _ ↦ Nat.le_refl p) fun q hq _ _ ↦ ?_
  · exact Reads.advance_skips.mono fun _ _ hq _ _ ↦ hq
  refine Reads.condition.bind fun isGenerator r hr _ _ ↦ ?_
  refine accessorProperty_skips.bind fun kind s hs _ hkind ↦ .ask ?_
  refine (propertyKey_passes h (by omega) rfl).bind ?_
  rintro ⟨key, computed⟩ t ht _ hkey
  refine .test (fun _ _ _ ↦ ?_) (.ite (fun _ ↦ .fail (by simp)) fun _ ↦ .test (fun _ _ _ ↦ ?_) ?_)
  · refine (methodFunction_passes h (by omega) false _ isGenerator).bind ?_
    rintro value u hu _ ⟨hfits, hbody⟩
    refine .pure ⟨by omega, ?_⟩
    rcases hkind with rfl | rfl | rfl <;>
      simpa [Property.slots, PropertyKind.valuePlace, Property.Regular] using
        ⟨⟨hkey, hfits⟩, hbody rfl⟩
  · refine (h.assignment (by omega)).bind fun value u hu _ hvalue ↦ .pure ⟨by omega, ?_, trivial⟩
    simpa [Property.slots, PropertyKind.valuePlace] using ⟨hkey, hvalue⟩
  · exact (shorthandProperty_skips h (by omega) hkey _).onward (by omega)

theorem literalProperty_passes (hlevel : 12 * (tape.size - p) ≤ level) :
    tape.Passes o p g.literalProperty fun property ↦
      tape.Fills property.slots ∧ property.Regular := by
  refine .test (fun _ _ _ ↦ ?_) (keyedProperty_passes h hlevel)
  refine (h.assignment (by omega)).bind fun value q hq _ hvalue ↦ .pure ⟨by omega, ?_, rfl⟩
  simpa [Property.slots, PropertyKind.valuePlace] using hvalue

theorem objectLiteral_forms (hlevel : 12 * (tape.size - p) ≤ level) :
    tape.Forms o p g.objectLiteral .expression := by
  have hrounds := h.rounds
  refine .ask (.expectMark fun _ ↦ ?_)
  refine (Reads.commaList (fun q hq _ _ _ ↦ literalProperty_passes h (by omega))
    (by omega)).allowingIn.bind fun properties r hr _ hproperties ↦ ?_
  exact .expectMark fun _ ↦ .node fun _ ↦ ⟨by omega, object_fits hproperties⟩

theorem functionExpression_forms (hlevel : 12 * (tape.size - p) ≤ level) :
    tape.Forms o p g.functionExpression .expression := by
  refine .ask (Reads.condition.bind fun isAsync q hq _ _ ↦ .expectWord fun _ ↦ ?_)
  refine Reads.condition.bind fun isGenerator r hr _ _ ↦ ?_
  refine (Skips.textIf fun hnamed _ _ ↦ ?_).bind fun name s hs _ _ ↦ ?_
  · exact (Reads.takes (lt_size_of_holds (f := TokenKind.isName) hnamed rfl)).mono
      fun _ _ _ _ _ ↦ trivial
  refine (functionRest_passes h (by omega) false rfl).bind fun f t ht _ hf ↦ .node fun _ ↦ ?_
  exact ⟨by omega, .of_plain rfl trivial hf.1⟩

theorem classExpression_forms (hlevel : 12 * (tape.size - p) + 1 ≤ level) :
    tape.Forms o p g.classExpression .expression := by
  refine .ask ((decorators_skips h hlevel).bind fun decorators q hq _ hdecorators ↦ ?_)
  refine (classDeclaration_passes h (by omega) hdecorators false false).bind
    fun declaration r hr _ hdeclaration ↦ .surface fun _ ↦ ⟨by omega, ?_⟩
  exact .of_surface rfl trivial (by simpa [Surface.slots] using hdeclaration.2)

theorem parenthesized_forms (hlt : p < tape.size) (hlevel : 12 * (tape.size - p) ≤ level) :
    tape.Forms o p g.parenthesized .expression := by
  refine .ask (.advance hlt ((expression_forms h (by omega)).allowingIn.bind ?_))
  rintro inner q _ _ ⟨hq, hinner⟩
  exact .expectMark fun _ ↦ .node fun _ ↦ ⟨by omega,
    .of_plain rfl trivial (by simpa [Plain.slots] using hinner)⟩

omit h in
theorem leaf_forms (hlt : p < tape.size) {start : Token} {form : Plain Node}
    (hform : form.stands .expression) (hregular : form.Regular .expression)
    (hslots : form.slots = []) : tape.Forms o p (leaf start form) .expression := by
  refine .advance hlt (.node fun _ ↦ ⟨by omega, .of_plain hform hregular ?_⟩)
  simp [hslots]

omit h in
theorem nameExpression_forms : tape.Forms o p (nameExpression (tape.token p)) .expression :=
  .ite (fun hname ↦ leaf_forms (lt_size_of_holds (f := TokenKind.isName) hname rfl) rfl trivial rfl)
    fun _ ↦ .fail (by simp)

theorem primaryStep_forms (hlevel : 12 * (tape.size - p) + 2 ≤ level) :
    tape.Forms o p g.primaryStep .expression := by
  refine .ask ?_
  split
  · next hkind => exact leaf_forms (lt_size_of_kind hkind) rfl trivial rfl
  · next hkind => exact leaf_forms (lt_size_of_kind hkind) rfl trivial rfl
  · next hkind => exact leaf_forms (lt_size_of_kind hkind) rfl trivial rfl
  · exact templateLiteral_forms h (by omega)
  · exact templateLiteral_forms h (by omega)
  · next hkind => exact leaf_forms (lt_size_of_kind hkind) rfl trivial rfl
  · next hkind => exact leaf_forms (lt_size_of_kind hkind) rfl trivial rfl
  · next hkind => exact leaf_forms (lt_size_of_kind hkind) rfl trivial rfl
  · next hkind => exact leaf_forms (lt_size_of_kind hkind) rfl trivial rfl
  · next hkind => exact leaf_forms (lt_size_of_kind hkind) rfl trivial rfl
  · next hkind => exact leaf_forms (lt_size_of_kind hkind) rfl trivial rfl
  · next hkind => exact leaf_forms (lt_size_of_kind hkind) rfl trivial rfl
  · next hkind => exact parenthesized_forms h (lt_size_of_kind hkind) (by omega)
  · exact arrayLiteral_forms h (by omega)
  · exact objectLiteral_forms h (by omega)
  · exact functionExpression_forms h (by omega)
  · exact .ask (.ask (.ite (fun _ ↦ functionExpression_forms h (by omega))
      fun _ ↦ nameExpression_forms))
  · exact classExpression_forms h (by omega)
  · exact classExpression_forms h (by omega)
  · exact (h.element (by omega)).weaken fun _ hnode ↦ hnode.1
  · exact nameExpression_forms

end Served

end Grammar

end SignalView
