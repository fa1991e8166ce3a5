import SignalView.Proofs.Lowering.Views

/-!
# Lowering builds whole programs

A component takes a key that no other has, its parameters are checked, and it goes on record when it
has been lowered. With that, what statements and module items build is the tree that they give.
-/

namespace SignalView

open Lower Slot

namespace Lowering

/-! ## Checks -/

theorem firstRepeated_eq_none {seen names : List Bytes} :
    firstRepeated seen names = none ↔ names.Nodup ∧ ∀ name ∈ names, name ∉ seen := by
  induction names generalizing seen with
  | nil => simp [firstRepeated]
  | cons name names ih =>
    rw [firstRepeated]
    by_cases hseen : name ∈ seen
    · simp [hseen]
    · simp only [List.contains_iff_mem, hseen, if_false, ih, List.nodup_cons, List.mem_cons]
      grind

/-- Parameters that pass the check bind no name twice, and only the last one takes the rest. -/
theorem checkParams_eq_ok {name : Bytes} {line column : Nat} {seen : List Bytes}
    {params : List (Param Node)} {s t : LoweringState}
    (hrun : checkParams name line column seen params s = (.ok (), t)) :
    t = s ∧ (params.flatMap (·.boundNames Node.boundNames)).Nodup ∧
      (∀ bound ∈ params.flatMap (·.boundNames Node.boundNames), bound ∉ seen) ∧
      ∀ p ∈ params.dropLast, p.rest = false := by
  induction params generalizing seen with
  | nil =>
    cases hrun
    simp
  | cons param params ih =>
    unfold checkParams at hrun
    cases hpattern : param.pattern with
    | none =>
      simp only [hpattern] at hrun
      cases hrun
    | some pattern =>
      simp only [hpattern] at hrun
      by_cases hlast : (param.rest && !params.isEmpty) = true
      · rw [if_pos hlast] at hrun
        cases hrun
      rw [if_neg hlast] at hrun
      by_cases hshorthand : hasComputedShorthand pattern = true
      · rw [if_pos hshorthand] at hrun
        cases hrun
      rw [if_neg hshorthand] at hrun
      cases hrepeated : firstRepeated seen pattern.boundNames with
      | some bound =>
        simp only [hrepeated] at hrun
        cases hrun
      | none =>
        simp only [hrepeated] at hrun
        obtain ⟨hnodup, hseen⟩ := firstRepeated_eq_none.mp hrepeated
        obtain ⟨rfl, hrest, hapart, hrests⟩ := ih hrun
        have hbound : param.boundNames Node.boundNames = pattern.boundNames := by
          simp [Param.boundNames, hpattern]
        simp only [List.flatMap_cons, hbound]
        refine ⟨trivial, List.nodup_append'.mpr ⟨hnodup, hrest, ?_⟩, ?_, ?_⟩
        · exact fun bound hfirst hlater ↦
            hapart bound hlater (List.mem_append_left _ hfirst)
        · intro bound hmem
          obtain hmem | hmem := List.mem_append.mp hmem
          · exact hseen bound hmem
          · exact fun hold ↦ hapart bound hmem (List.mem_append_right _ hold)
        · cases params with
          | nil => simp
          | cons next params =>
            rw [List.dropLast_cons_cons, List.forall_mem_cons]
            exact ⟨by simpa using hlast, hrests⟩

theorem register_eq_ok {c : Component Node} {s t : LoweringState}
    (hrun : register c s = (.ok (), t)) :
    c.registryKey ∉ s.registered ∧ t = { s with registered := c.registryKey :: s.registered } := by
  obtain ⟨_, _, ⟨⟩, hrun⟩ := bind_eq_ok.mp hrun
  split at hrun
  · cases hrun
  · next hnew =>
    cases hrun
    exact ⟨by simpa using hnew, rfl⟩

/-- Parameters that are lowered one by one take the rest where they did. -/
theorem dropLast_rest_eq_false {ps : List (Param Node)} {qs : List (Param View)}
    (hsame : List.Forall₂ (fun p q ↦ q.rest = p.rest) ps qs)
    (hrest : ∀ p ∈ ps.dropLast, p.rest = false) : ∀ q ∈ qs.dropLast, q.rest = false := by
  induction hsame with
  | nil => simp
  | cons hfirst htail ih =>
    cases htail with
    | nil => simp
    | cons hnext hrests =>
      rw [List.dropLast_cons_cons, List.forall_mem_cons] at hrest ⊢
      exact ⟨hfirst ▸ hrest.1, ih hrest.2⟩

section Accounted

variable {Tag : Bytes → Prop} {l : Lowering} (h : l.Accounts Tag)

include h

/-! ## Components -/

/-- What the parts of a component are made of is all that is built. -/
theorem componentParts_builds {c : Component Node} (hc : AllHold (Node.Fits Tag) c.slots) :
    Builds 0 (l.componentParts c) fun d built ↦
      (d.name = c.name ∧ (d.block.isSome → d.value = none)) ∧ built = Slot.subviews d.slots := by
  obtain ⟨hparams, hblock, hvalue⟩ := by simpa [Component.slots] using hc
  refine .after (declareParams_idle _) fun _ ↦ (params_builds h hparams).bind ?_
  rintro ps _ ⟨-, rfl⟩
  refine (Builds.optionMapM fun block hmem ↦ block_builds h (hblock block hmem) false).bind ?_
  rintro block _ ⟨-, rfl⟩
  refine .ite (fun _ ↦ ?_) fun hnone ↦ ?_
  · refine .pure ⟨⟨rfl, fun _ ↦ rfl⟩, ?_⟩
    simp [Component.slots]
  · refine (optionalExpression_builds h hvalue).bind ?_
    rintro value _ ⟨-, rfl⟩
    refine .pure ⟨⟨rfl, fun hsome ↦ absurd hsome hnone⟩, ?_⟩
    simp [Component.slots, add_assoc]

/-- In a scope of its own a component keeps what its parameters bind. -/
theorem componentParts_params {c : Component Node} (hc : AllHold (Node.Fits Tag) c.slots)
    {d : Component View} {s t : LoweringState} (hs : s.symbols.current.symbols = [])
    (hrun : l.componentParts c s = (.ok d, t)) :
    List.Forall₂ (fun p q ↦ q.rest = p.rest ∧
      q.boundNames View.boundNames = p.boundNames Node.boundNames) c.params d.params := by
  obtain ⟨hparams, -⟩ := by simpa [Component.slots] using hc
  obtain ⟨_, declared, hdeclare, hrun⟩ := bind_eq_ok.mp hrun
  have hadmits : s.Admits (c.params.flatMap (·.boundNames Node.boundNames)) := by
    simp [LoweringState.Admits, Scope.find?, hs]
  obtain ⟨-, hsettled⟩ := declareParams_settling (fun _ ↦ id) hadmits hdeclare
  obtain ⟨params, _, hlowered, hrun⟩ := bind_eq_ok.mp hrun
  obtain ⟨-, hsame⟩ := params_ensures h.patterns hparams (fun _ ↦ id) hsettled.resolves hlowered
  obtain ⟨block, _, -, hrun⟩ := bind_eq_ok.mp hrun
  split at hrun
  · cases hrun
    exact hsame
  · obtain ⟨value, _, -, hrun⟩ := bind_eq_ok.mp hrun
    cases hrun
    exact hsame

/-- With parameters that pass the check, a component is lowered to a sound one in a scope of its
own. -/
theorem scopedParts_builds {c : Component Node} (hc : AllHold (Node.Fits Tag) c.slots)
    (hnodup : (c.params.flatMap (·.boundNames Node.boundNames)).Nodup)
    (hrest : ∀ p ∈ c.params.dropLast, p.rest = false) :
    Builds 0 (collectingFacts (inScope .component (l.componentParts c))) fun result built ↦
      (result.1.name = c.name ∧ result.1.Sound) ∧ built = Slot.subviews result.1.slots := by
  rintro s ⟨d, facts⟩ t hrun
  obtain ⟨_, hscope, -, rfl⟩ := collectingFacts_eq_ok.mp hrun
  obtain ⟨last, hparts, rfl⟩ := inScope_eq_ok.mp hscope
  have hsame := componentParts_params h hc rfl hparts
  obtain ⟨built, hgains, ⟨hname, hbody⟩, hbuilt⟩ := componentParts_builds h hc hparts
  refine ⟨built, ⟨hgains.components, hgains.registered, hgains.nodup, hgains.sound⟩,
    ⟨hname, ?_, dropLast_rest_eq_false (hsame.imp fun _ _ hpq ↦ hpq.1) hrest, hbody⟩, hbuilt⟩
  rwa [List.Forall₂.flatMap_eq (hsame.imp fun _ _ hpq ↦ hpq.2)]

/-- A component takes a key that was free, and goes on record once it has been lowered. -/
theorem component_builds {c : Component Node} (hc : AllHold (Node.Fits Tag) c.slots) :
    Builds 0 (l.component c) fun view built ↦ built = view.subviews := by
  intro s view t hrun
  obtain ⟨_, _, hregister, hrun⟩ := bind_eq_ok.mp hrun
  obtain ⟨hnew, rfl⟩ := register_eq_ok hregister
  obtain ⟨_, _, hcheck, hrun⟩ := bind_eq_ok.mp hrun
  obtain ⟨rfl, hnodup, -, hrest⟩ := checkParams_eq_ok hcheck
  obtain ⟨⟨d, facts⟩, middle, hparts, hrun⟩ := bind_eq_ok.mp hrun
  obtain ⟨built, hgains, ⟨hname, hsound⟩, hbuilt⟩ := scopedParts_builds h hc hnodup hrest hparts
  obtain ⟨noted, rfl, hcomponents, hregistered⟩ : ∃ noted : ComponentFacts,
      view = .rendered c.line c.column (.component { d with facts := noted }) ∧
        t.components = middle.components ++ [{ d with facts := noted }] ∧
        t.registered = middle.registered := by
    cases hrun
    exact ⟨_, rfl, rfl, rfl⟩
  have hkey : c.registryKey = d.registryKey := congrArg (bytes "component:" ++ ·) hname.symm
  rw [hkey] at hgains hnew
  refine ⟨_, hgains.add_component (s := s) (c := { d with facts := noted }) rfl rfl hcomponents
    hregistered hnew ⟨hsound.distinct, hsound.rest, hsound.body⟩ c.line c.column, ?_⟩
  simp only [View.subviews_eq, ← Multiset.singleton_add, ← add_assoc, hbuilt]
  exact add_comm _ _

theorem keywordComponent_builds {f : Callable Node}
    (hf : AllHold (Node.Fits Tag) (Surface.component f).slots) (line column : Nat) :
    Builds 0 (l.keywordComponent line column f) fun view built ↦ built = view.subviews := by
  refine .after (declare_idle _ _ _ _ _ _) fun _ ↦ component_builds h ?_
  obtain ⟨hparams, -, hbody⟩ := by simpa [Surface.slots] using hf
  simpa [Component.slots] using ⟨hparams, hbody⟩

theorem declaredComponent_builds {f : Callable Node} (hf : AllHold (Node.Fits Tag) f.slots)
    (line column : Nat) (detection : Detection) :
    Builds 0 (l.declaredComponent line column f detection) fun view built ↦
      built = view.subviews := by
  refine .after (declare_idle _ _ _ _ _ _) fun _ ↦ component_builds h ?_
  simpa [Component.slots, Callable.slots] using hf

theorem boundComponent_builds {node : Node} (hnode : node.Fits Tag .expression) (binding : Bytes)
    (detection : Detection) :
    Builds 0 (l.boundComponent binding detection node) fun view built ↦ built = view.subviews := by
  unfold boundComponent
  split
  · next range f =>
    obtain ⟨-, -, hslots⟩ := Node.fits_plain_iff.mp hnode
    refine component_builds h ?_
    cases hbody : f.body <;>
      simpa [Component.slots, Plain.slots, Arrow.slots, ArrowBody.slots, hbody] using hslots
  · next range f =>
    obtain ⟨-, -, hslots⟩ := Node.fits_plain_iff.mp hnode
    exact component_builds h (by simpa [Component.slots, Plain.slots, Callable.slots] using hslots)
  · exact h.value hnode

/-! ## Variables and functions -/

theorem componentDeclarator_builds {d : Declarator Node} (hd : AllHold (Node.Fits Tag) d.slots)
    (keyword : Bytes) :
    Builds 0 (l.componentDeclarator? keyword d) fun lowered built ↦
      built = (lowered.toList.map fun e ↦ Slot.subviews e.slots).sum := by
  obtain ⟨htarget, hinit⟩ := by simpa [Declarator.slots] using hd
  unfold componentDeclarator?
  split
  · next name init hname hsome =>
    refine .ite (fun _ ↦ .pure rfl) fun _ ↦ .after (acceptDetected_idle name init) fun found ↦ ?_
    cases found with
    | none => exact .pure rfl
    | some detection =>
      refine .after (declare_idle _ _ _ _ _ _) fun _ ↦ ?_
      refine (boundComponent_builds h (hinit init hsome) name detection).bind ?_
      rintro value _ rfl
      refine (h.value htarget).bind ?_
      rintro target _ rfl
      exact .pure (by simp [Declarator.slots, add_comm])
  · exact .pure rfl

theorem plainDeclarator_builds {d : Declarator Node} (hd : AllHold (Node.Fits Tag) d.slots)
    (keyword : Bytes) :
    Builds 0 (l.plainDeclarator keyword d) fun e built ↦ built = Slot.subviews e.slots := by
  obtain ⟨htarget, hinit⟩ := by simpa [Declarator.slots] using hd
  refine .after (declareSignals_idle keyword d) fun found ↦ ?_
  refine .iteThen (declarePattern_idle _ _ _ _) ?_
  refine (h.value htarget).bind ?_
  rintro target _ rfl
  refine (optionalExpression_builds h hinit).bind ?_
  rintro init _ ⟨-, rfl⟩
  exact .pure (by simp [Declarator.slots])

theorem declarator_builds {d : Declarator Node} (hd : AllHold (Node.Fits Tag) d.slots)
    (atModule : Bool) (keyword : Bytes) :
    Builds 0 (l.declarator atModule keyword d) fun e built ↦ built = Slot.subviews e.slots := by
  have hplain := plainDeclarator_builds h hd keyword
  refine .ite (fun _ ↦ ?_) fun _ ↦ hplain
  refine (componentDeclarator_builds h hd keyword).bind ?_
  rintro found _ rfl
  cases found with
  | none => exact hplain
  | some lowered => exact .pure (by simp)

theorem variableDeclaration_builds {declarators : List (Declarator Node)}
    (hdeclarators : ∀ d ∈ declarators, AllHold (Node.Fits Tag) d.slots) (atModule : Bool)
    (keyword : Bytes) (isDeclare : Bool) :
    Builds 0 (l.variableDeclaration atModule keyword declarators isDeclare) fun form built ↦
      (form.Sound ∧ built = Slot.subviews form.slots) := by
  refine (Builds.mapM fun d hd ↦ declarator_builds h (hdeclarators d hd) atModule keyword).bind ?_
  rintro lowered _ ⟨-, rfl⟩
  exact .pure ⟨trivial, by simp [Plain.slots]⟩

theorem plainFunction_builds {f : Callable Node} (hf : AllHold (Node.Fits Tag) f.slots)
    (line column : Nat) (isDeclare : Bool) :
    Builds 0 (l.plainFunction line column f isDeclare) fun view built ↦ built = view.subviews := by
  refine .after (declare_idle _ _ _ _ _ _) fun _ ↦ ?_
  refine (Builds.inScope (callable_builds h hf) _).bind ?_
  rintro g _ rfl
  exact .view trivial rfl (zero_add _)

theorem functionDeclaration_builds {f : Callable Node} (hf : AllHold (Node.Fits Tag) f.slots)
    (atModule : Bool) (node : Node) (isDeclare : Bool) :
    Builds 0 (l.functionDeclaration atModule node f isDeclare) fun view built ↦
      built = view.subviews := by
  have hplain := plainFunction_builds h hf node.line node.column isDeclare
  refine .ite (fun _ ↦ .after (acceptDetected_idle [] node) fun found ↦ ?_) fun _ ↦ hplain
  cases found with
  | none => exact hplain
  | some detection => exact declaredComponent_builds h hf _ _ detection

/-! ## Module items -/

omit h in
theorem imports_builds (range : Range) (clause : ImportClause) :
    Builds 0 (l.moduleItem (.plain range (.imports clause))) fun view built ↦
      built = view.subviews := by
  rw [moduleItem]
  exact .after (l.importClause_idle _ _ _) fun _ ↦ .view trivial rfl rfl

omit h in
theorem exportNamed_builds {declaration : Option Node}
    (hdeclaration : ∀ item ∈ declaration,
      Builds 0 (l.moduleItem item) fun view built ↦ built = view.subviews)
    (range : Range) (specifiers : List ExportSpecifier) (source : Bytes) (typeOnly : Bool) :
    Builds 0 (l.moduleItem (.plain range (.exportNamed declaration specifiers source typeOnly)))
      fun view built ↦ built = view.subviews := by
  have hrest (lowered : Option View) : Builds (lowered.toList.map View.subviews).sum (do
      specifiers.forM fun spec ↦ markUsed spec.localName
      return View.plain range.start.line range.start.column
        (.exportNamed lowered specifiers source typeOnly)) fun view built ↦
      built = view.subviews :=
    .after (.forM fun _ _ ↦ .markUsed _) fun _ ↦
      .view trivial rfl (by simp [View.slots, Plain.slots])
  cases declaration with
  | none =>
    rw [moduleItem]
    exact hrest none
  | some declaration =>
    rw [moduleItem]
    refine (hdeclaration declaration rfl).bind ?_
    rintro view _ rfl
    simpa using hrest (some view)

theorem exportDefault_builds {value : DefaultExport Node}
    (hdeclaration : ∀ item, value = .declaration item →
      Builds 0 (l.moduleItem item) fun view built ↦ built = view.subviews)
    (hvalue : AllHold (Node.Fits Tag) value.slots) (range : Range) :
    Builds 0 (l.moduleItem (.plain range (.exportDefault value))) fun view built ↦
      built = view.subviews := by
  cases value with
  | declaration declaration =>
    rw [moduleItem]
    refine (hdeclaration declaration rfl).bind ?_
    rintro view _ rfl
    exact .view trivial rfl (by simp [View.slots, Plain.slots, DefaultExport.slots])
  | expression expression =>
    rw [moduleItem]
    refine (h.value (by simpa [DefaultExport.slots] using hvalue)).bind ?_
    rintro view _ rfl
    exact .view trivial rfl (by simp [View.slots, Plain.slots, DefaultExport.slots])

theorem moduleItem_builds {node : Node} (hnode : node.Fits Tag .statement) :
    Builds 0 (l.moduleItem node) fun view built ↦ built = view.subviews := by
  have hfits := hnode
  generalize hplace : Place.statement = place at hfits
  -- what is exported is an item as well, and so is what that exports
  induction hfits with
  | @plain place range form hstands hregular hfilled hparts ih =>
    subst hplace
    obtain ⟨-, -, hslots⟩ := Node.fits_plain_iff.mp hnode
    have hitem {item : Node} (hmem : ⟨.statement, some item⟩ ∈ form.slots) :=
      ih .statement item hmem ((allHold_iff.mp hslots).2 _ _ hmem) rfl
    cases form with
    | imports clause => exact imports_builds range clause
    | exportNamed declaration specifiers source typeOnly =>
      refine exportNamed_builds (fun item hmem ↦ hitem ?_) range _ _ _
      simp [Plain.slots, filled, Option.mem_def.mp hmem]
    | exportDefault value =>
      refine exportDefault_builds h (fun item hmem ↦ hitem ?_) hslots range
      simp [Plain.slots, hmem, DefaultExport.slots, filled]
    | functionDeclaration f isDeclare =>
      rw [moduleItem]
      exact functionDeclaration_builds h hslots true _ isDeclare
    | variableDeclaration keyword declarators isDeclare =>
      rw [moduleItem]
      simp only [Plain.slots, allHold_flatMap] at hslots
      refine (variableDeclaration_builds h hslots true keyword isDeclare).bind ?_
      rintro form _ ⟨hsound, rfl⟩
      exact .view hsound rfl (zero_add _)
    | expressionStatement expression =>
      rw [moduleItem]
      exact .after (noteCallbacks_idle _) fun _ ↦ h.item hnode
    | _ =>
      rw [moduleItem]
      · exact h.item hnode
      all_goals simp
  | surface hstands hregular hfilled hparts =>
    subst hplace
    exact h.item hnode

/-! ## All statements -/

theorem switchCase_builds {c : SwitchCase Node} (hc : AllHold (Node.Fits Tag) c.slots) :
    Builds 0 (l.switchCase c) fun d built ↦ built = Slot.subviews d.slots := by
  obtain ⟨htest, hbody⟩ := by simpa [SwitchCase.slots] using hc
  refine (optionalExpression_builds h htest).bind ?_
  rintro test _ ⟨-, rfl⟩
  refine (Builds.mapM fun node hnode ↦ h.item (hbody node hnode)).bind ?_
  rintro body _ ⟨-, rfl⟩
  exact .pure (by simp [SwitchCase.slots])

theorem catchClause_builds {t : TryShape Node} {handler : Node}
    (hparam : ∀ param ∈ t.param, param.Fits Tag .expression)
    (hhandler : handler.Fits Tag .statement) :
    Builds 0 (l.catchClause t handler) fun clause built ↦
      built = (clause.1.toList.map View.subviews).sum + clause.2.subviews := by
  refine .inScope (.after (.optionForM fun _ _ ↦ declarePattern_idle _ _ _ _) fun _ ↦ ?_) _
  refine (optionalExpression_builds h hparam).bind ?_
  rintro param _ ⟨-, rfl⟩
  refine (block_builds h hhandler false).bind ?_
  rintro view _ rfl
  exact .pure (by simp)

theorem tryShape_builds {t : TryShape Node} (ht : AllHold (Node.Fits Tag) t.slots) :
    Builds 0 (l.tryShape t) fun lowered built ↦
      (Plain.tryCatch lowered).Sound ∧ built = Slot.subviews lowered.slots := by
  simp only [TryShape.slots, allHold_append, allHold_filled, List.cons_append,
    List.forall_mem_cons, List.forall_mem_append, Option.mem_toList] at ht
  obtain ⟨⟨hblock, hhandler, hfinalizer⟩, hparam⟩ := ht
  refine (block_builds h hblock true).bind ?_
  rintro block _ rfl
  refine (Builds.optionMapM fun handler hmem ↦
    catchClause_builds h hparam (hhandler handler hmem)).bind ?_
  rintro clause _ ⟨-, rfl⟩
  refine (Builds.optionMapM fun finalizer hmem ↦
    block_builds h (hfinalizer finalizer hmem) true).bind ?_
  rintro finalizer _ ⟨-, rfl⟩
  refine .pure ?_
  cases clause with
  | none => exact ⟨fun _ ↦ rfl, by simp [TryShape.slots]⟩
  | some clause =>
    refine ⟨fun hnone ↦ absurd hnone (Option.some_ne_none _), ?_⟩
    simp [TryShape.slots, add_comm, add_left_comm]

theorem enumMember_builds {m : EnumMember Node} (hm : ∀ init ∈ m.init, init.Fits Tag .expression) :
    Builds 0 (l.enumMember m) fun lowered built ↦
      built = (lowered.init.toList.map View.subviews).sum := by
  refine (optionalExpression_builds h hm).bind ?_
  rintro init _ ⟨-, rfl⟩
  exact .pure (zero_add _)

theorem plainStatement_builds {place : Place} {node : Node} {form : Plain Node}
    (hregular : form.Regular place) (hslots : AllHold (Node.Fits Tag) form.slots) :
    Builds 0 (l.plainStatement node form) fun lowered built ↦
      lowered.Sound ∧ built = Slot.subviews lowered.slots := by
  cases form with
  | jump | empty | debugger | exportAll => exact .pure ⟨trivial, rfl⟩
  | interface | typeAlias =>
    exact .after (declare_idle _ _ _ _ _ _) fun _ ↦ .pure ⟨trivial, rfl⟩
  | expressionStatement | throw =>
    simp only [Plain.slots, allHold_filled, List.forall_mem_singleton] at hslots
    refine (h.value hslots).bind ?_
    rintro view _ rfl
    exact .pure ⟨trivial, by simp [Plain.slots]⟩
  | returnValue argument =>
    simp only [Plain.slots, allHold_filled, Option.mem_toList] at hslots
    refine (optionalExpression_builds h hslots).bind ?_
    rintro view _ ⟨-, rfl⟩
    exact .pure ⟨trivial, by simp [Plain.slots]⟩
  | labeled label body =>
    simp only [Plain.slots, allHold_filled, List.forall_mem_singleton] at hslots
    refine (h.item hslots).bind ?_
    rintro view _ rfl
    exact .pure ⟨trivial, by simp [Plain.slots]⟩
  | variableDeclaration keyword declarators isDeclare =>
    simp only [Plain.slots, allHold_flatMap] at hslots
    exact variableDeclaration_builds h hslots false keyword isDeclare
  | ifElse test consequent alternate =>
    obtain ⟨htest, hconsequent, halternate⟩ := by simpa [Plain.slots] using hslots
    refine (h.value htest).bind ?_
    rintro test _ rfl
    refine (h.item hconsequent).bind ?_
    rintro body _ rfl
    refine (Builds.optionMapM fun node hmem ↦ h.item (halternate node hmem)).bind ?_
    rintro other _ ⟨-, rfl⟩
    exact .pure ⟨trivial, by simp [Plain.slots, add_assoc]⟩
  | switch discriminant cases =>
    obtain ⟨hdiscriminant, hcases⟩ := by simpa [Plain.slots] using hslots
    refine (h.value hdiscriminant).bind ?_
    rintro discriminant _ rfl
    refine (Builds.inScope (.mapM fun c hc ↦ switchCase_builds h (hcases c hc)) _).bind ?_
    rintro cases _ ⟨-, rfl⟩
    exact .pure ⟨trivial, by simp [Plain.slots]⟩
  | forLoop init test update body =>
    simp only [Plain.slots, allHold_append, allHold_filled, List.forall_mem_append,
      Option.mem_toList, List.forall_mem_singleton] at hslots
    obtain ⟨⟨hinit, htest, hupdate⟩, hbody⟩ := hslots
    refine .inScope ((Builds.optionMapM fun node hmem ↦
      h.statement (hinit node hmem) (.inr rfl)).bind ?_) _
    rintro init _ ⟨-, rfl⟩
    refine (optionalExpression_builds h htest).bind ?_
    rintro test _ ⟨-, rfl⟩
    refine (optionalExpression_builds h hupdate).bind ?_
    rintro update _ ⟨-, rfl⟩
    refine (h.item hbody).bind ?_
    rintro body _ rfl
    exact .pure ⟨trivial, by simp [Plain.slots, add_assoc]⟩
  | forIn left right body isOf isAwait =>
    obtain ⟨hleft, hright, hbody⟩ := by simpa [Plain.slots] using hslots
    refine (h.value hright).bind ?_
    rintro right _ rfl
    refine .inScope ((h.statement hleft (.inr rfl)).bind ?_) _
    rintro left _ rfl
    refine (h.item hbody).bind ?_
    rintro body _ rfl
    exact .pure ⟨trivial, by simp [Plain.slots, add_assoc, add_left_comm]⟩
  | whileLoop test body =>
    obtain ⟨htest, hbody⟩ := by simpa [Plain.slots] using hslots
    refine (h.value htest).bind ?_
    rintro test _ rfl
    refine (h.item hbody).bind ?_
    rintro body _ rfl
    exact .pure ⟨trivial, by simp [Plain.slots]⟩
  | doWhile body test =>
    obtain ⟨hbody, htest⟩ := by simpa [Plain.slots] using hslots
    refine (h.item hbody).bind ?_
    rintro body _ rfl
    refine (h.value htest).bind ?_
    rintro test _ rfl
    exact .pure ⟨trivial, by simp [Plain.slots]⟩
  | tryCatch t =>
    refine (tryShape_builds h hslots).bind ?_
    rintro t _ ⟨hsound, rfl⟩
    exact .pure ⟨hsound, by simp [Plain.slots]⟩
  | classDeclaration c =>
    refine .after (declare_idle _ _ _ _ _ _) fun _ ↦
      (classShape_builds h hregular hslots).bind ?_
    rintro d _ ⟨hmembers, rfl⟩
    exact .pure ⟨hmembers, by simp [Plain.slots]⟩
  | enum name members isConst isDeclare =>
    simp only [Plain.slots, allHold_flatMap, allHold_filled, Option.mem_toList] at hslots
    refine .after (declare_idle _ _ _ _ _ _) fun _ ↦
      (Builds.mapM fun m hm ↦ enumMember_builds h (hslots m hm)).bind ?_
    rintro lowered _ ⟨-, rfl⟩
    exact .pure ⟨trivial, by simp [Plain.slots]⟩
  | module keyword name body isDeclare =>
    simp only [Plain.slots, allHold_filled] at hslots
    refine .inScope ((Builds.optionMapM (w := fun views ↦ (views.map View.subviews).sum)
      fun items hitems ↦ ?_).bind ?_) _
    · refine (Builds.mapM fun node hnode ↦ h.item (hslots node ?_)).mono fun _ _ hviews ↦ hviews.2
      simpa [Option.mem_def.mp hitems] using hnode
    · rintro lowered _ ⟨-, rfl⟩
      refine .pure ⟨trivial, ?_⟩
      cases lowered <;> simp [Plain.slots]
  | _ => exact .failAt _ _ _ _

theorem statementStep_builds {place : Place} {node : Node} (hnode : node.Fits Tag place)
    (hplace : place = .statement ∨ place = .loopHead) :
    Builds 0 (l.statementStep node) fun view built ↦ built = view.subviews := by
  cases node with
  | plain range form =>
    obtain ⟨hstands, hregular, hslots⟩ := Node.fits_plain_iff.mp hnode
    have hplain {form : Plain Node} (hregular : form.Regular place)
        (hslots : AllHold (Node.Fits Tag) form.slots) :
        Builds 0 (do
          return View.plain range.start.line range.start.column
            (← l.plainStatement (.plain range form) form)) fun view built ↦
          built = view.subviews := by
      refine (plainStatement_builds h hregular hslots).bind ?_
      rintro lowered _ ⟨hsound, rfl⟩
      exact .view hsound rfl (zero_add _)
    cases form with
    | functionDeclaration f isDeclare => exact functionDeclaration_builds h hslots false _ isDeclare
    | block | imports | exportNamed | exportDefault =>
      rcases hplace with rfl | rfl
      · first
        | exact block_builds h hnode true
        | exact moduleItem_builds h hnode
      · cases hstands
    | _ => exact hplain hregular hslots
  | surface range form =>
    obtain ⟨hstands, -, hslots⟩ := Node.fits_surface_iff.mp hnode
    rcases hplace with rfl | rfl
    · cases form with
      | component f => exact keywordComponent_builds h hslots _ _
      | _ => cases hstands
    · cases form <;> cases hstands

end Accounted

end Lowering

/-! ## Programs -/

open Lowering in
theorem lowering_accounts (Tag : Bytes → Prop) (runtimeModule : Bytes) (limit : Int) (level : Nat) :
    (lowering runtimeModule limit level).Accounts Tag := by
  induction level with
  | zero => exact ⟨lowering_readsPatterns _ _ _, fun _ _ ↦ .fail _, fun _ _ ↦ .fail _,
      fun _ ↦ .fail _⟩
  | succ level ih =>
    exact {
      patterns := lowering_readsPatterns _ _ _
      statement := fun hnode hplace ↦ statementStep_builds ih hnode hplace
      expression := fun hnode hplace ↦ expressionStep_builds ih hnode hplace
      element := elementStep_builds ih }

/-- All the views of a program. -/
def ViewProgram.subviews (program : ViewProgram) : Multiset View :=
  (program.body.map View.subviews).sum

/-- Statements that stand in their places are lowered to views that keep to what is asked of them,
and the components among these, each with a key of its own, are the ones on record. -/
theorem ViewProgram.ofItems_accounts {Tag : Bytes → Prop} {options : Options} {items : List Node}
    (hitems : ∀ item ∈ items, item.Fits Tag .statement) {program : ViewProgram}
    {state : LoweringState} (hrun : ofItems options items {} = (.ok program, state)) :
    (program.components : Multiset (Component View)) =
        program.subviews.filterMap View.component? ∧
      (program.components.map (·.registryKey)).Nodup ∧ ∀ view ∈ program.subviews, view.Sound := by
  obtain ⟨body, middle, hbody, hrun⟩ := bind_eq_ok.mp hrun
  cases hrun
  obtain ⟨built, hgains, -, hbuilt⟩ := Builds.mapM (fun item hitem ↦
    Lowering.moduleItem_builds (lowering_accounts Tag _ _ _) (hitems item hitem)) hbody
  rw [zero_add] at hbuilt
  subst hbuilt
  have hcomponents : (middle.components : Multiset (Component View)) =
      (body.map View.subviews).sum.filterMap View.component? := by
    simpa using hgains.components
  refine ⟨hcomponents, ?_, hgains.sound⟩
  have hkeys : (middle.registered : Multiset Bytes) =
      (middle.components : Multiset (Component View)).map (·.registryKey) := by
    simpa [hcomponents] using hgains.registered
  rw [Multiset.map_coe, Multiset.coe_eq_coe] at hkeys
  exact hkeys.nodup_iff.mp (hgains.nodup .nil)

end SignalView
