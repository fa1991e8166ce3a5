import SignalView.Proofs.Script.Markup

/-!
# Writing statements and programs

A program whose statements stand in their places is written, unless its nesting exceeds the limit,
and it is written in the same way under every limit that is no lower.
-/

namespace SignalView

open EmitState Slot

namespace Emission

open Emit

section Served

variable {I : EmitState → Prop} {deep : Prop} {n : Nat} {e e' : Emission}
  (h : Serves I deep n e e')

include h

/-! ## Components -/

theorem componentBody_writes {c : Component View}
    (hblock : ∀ block ∈ c.block, block.Placed deep n .statement)
    (hvalue : ∀ value ∈ c.value, value.Placed deep n .expression) :
    Writes I deep (e.componentBody c) (e'.componentBody c) := by
  unfold componentBody
  cases hblocked : c.block with
  | some block => exact braced_writes h (hblock block hblocked)
  | none =>
    cases hvalued : c.value with
    | some value => exact arrowBody_writes h (hvalue value hvalued)
    | none => exact .pure

theorem componentText_writes {c : Component View}
    (hc : AllHold (View.Placed deep n) c.slots) :
    Writes I deep (e.componentText c) (e'.componentText c) := by
  obtain ⟨hparams, hblock, hvalue⟩ := by simpa [Component.slots] using hc
  refine (h.useRuntime (by simp [helpers])).bind fun _ ↦ ?_
  refine (signature_writes h hparams _ _).bind fun _ ↦ ?_
  refine Writes.bind (.indented ?_) fun _ ↦ h.pad.bind fun _ ↦ .pure
  exact (componentBody_writes h hblock hvalue).bind fun _ ↦ h.line _

/-! ## Variables and types -/

theorem variablesText_writes {declarators : List (Declarator View)}
    (hdeclarators : ∀ d ∈ declarators, AllHold (View.Placed deep n) d.slots)
    (keyword : Bytes) (isDeclare : Bool) :
    Writes I deep (e.variablesText keyword declarators isDeclare)
      (e'.variablesText keyword declarators isDeclare) := by
  refine Writes.bind (.mapM fun d hd ↦ ?_) fun _ ↦ .pure
  obtain ⟨htarget, hinit⟩ := by simpa [Declarator.slots] using hdeclarators d hd
  exact (h.value htarget).bind fun _ ↦ (initial_writes h hinit).bind fun _ ↦ .pure

theorem interfaceText_writes (name typeParameters : Bytes) (extended members : List Bytes)
    (isDeclare : Bool) :
    Writes I deep (e.interfaceText name typeParameters extended members isDeclare)
      (e'.interfaceText name typeParameters extended members isDeclare) := by
  refine .ite (fun _ ↦ .pure) fun _ ↦ ?_
  refine Writes.bind (.indented (.mapM fun member _ ↦ h.line _)) fun _ ↦ ?_
  exact h.pad.bind fun _ ↦ .pure

theorem enumText_writes {members : List (EnumMember View)}
    (hmembers : ∀ m ∈ members, ∀ init ∈ m.init, init.Placed deep n .expression)
    (name : Bytes) (isConst isDeclare : Bool) :
    Writes I deep (e.enumText name members isConst isDeclare)
      (e'.enumText name members isConst isDeclare) := by
  refine .ite (fun _ ↦ .pure) fun _ ↦ ?_
  refine Writes.bind (.indented (.mapM fun m hm ↦ ?_)) fun _ ↦ h.pad.bind fun _ ↦ .pure
  exact (initial_writes h (hmembers m hm)).bind fun _ ↦ h.line _

theorem namespaceText_writes {body : Option (List View)}
    (hbody : ∀ view ∈ body.getD [], view.Placed deep n .statement) (keyword name : Bytes)
    (isDeclare : Bool) :
    Writes I deep (e.namespaceText keyword name body isDeclare)
      (e'.namespaceText keyword name body isDeclare) := by
  cases body with
  | none => exact .pure
  | some body =>
    refine Writes.bind (.indented (statementLines_writes h hbody)) fun _ ↦ ?_
    exact h.pad.bind fun _ ↦ .pure

/-! ## Control flow -/

theorem condition_writes {test : View} (htest : test.Placed deep n .expression) :
    Writes I deep (e.condition test) (e'.condition test) := (h.value htest).bind fun _ ↦ .pure

theorem ifElse_writes {line column : Nat} {test consequent : View} {alternate : Option View}
    (htest : test.Placed deep n .expression) (hconsequent : consequent.Placed deep n .statement)
    (halternate : ∀ view ∈ alternate, Writes I deep (e.ifText view) (e'.ifText view)) :
    Writes I deep (e.ifText (.plain line column (.ifElse test consequent alternate)))
      (e'.ifText (.plain line column (.ifElse test consequent alternate))) := by
  cases alternate with
  | none =>
    rw [ifText, ifText]
    refine (condition_writes h htest).bind fun _ ↦ (braced_writes h hconsequent).bind fun _ ↦ ?_
    exact .bind .pure fun _ ↦ .pure
  | some view =>
    rw [ifText, ifText]
    refine (condition_writes h htest).bind fun _ ↦ (braced_writes h hconsequent).bind fun _ ↦ ?_
    exact (halternate view rfl).bind fun _ ↦ .bind .pure fun _ ↦ .pure

theorem ifText_writes {view : View} (hview : view.Placed deep n .statement) :
    Writes I deep (e.ifText view) (e'.ifText view) := by
  obtain ⟨hfits, hpaths⟩ := hview
  generalize hplace : Place.statement = place at hfits
  -- a chain goes on in the branch of the condition before it
  induction hfits with
  | @plain place line column form hstands hfilled hparts ih =>
    subst hplace
    have hview : (View.plain line column form).Placed deep n .statement :=
      ⟨.plain hstands hfilled hparts, hpaths⟩
    cases form with
    | ifElse test consequent alternate =>
      have hslots := hview.plain_slots
      obtain ⟨htest, hconsequent, halternate⟩ := by simpa [Plain.slots] using hslots
      refine ifElse_writes h htest hconsequent fun part hpart ↦ ?_
      refine ih .statement part ?_ (halternate part hpart).2 rfl
      simp [Plain.slots, filled, Option.mem_def.mp hpart]
    | _ =>
      rw [ifText, ifText]
      · exact braced_writes h hview
      all_goals simp
  | rendered hstands hfilled hparts =>
    subst hplace
    rw [ifText, ifText]
    · exact braced_writes h ⟨.rendered hstands hfilled hparts, hpaths⟩
    all_goals simp

theorem caseText_writes {c : SwitchCase View} (hc : AllHold (View.Placed deep n) c.slots) :
    Writes I deep (e.caseText c) (e'.caseText c) := by
  obtain ⟨htest, hbody⟩ := by simpa [SwitchCase.slots] using hc
  have hrest (label : Bytes) : Writes I deep
      (do return (← e.line label) ++ (← indented (e.statementLines c.body)))
      (do return (← e'.line label) ++ (← indented (e'.statementLines c.body))) :=
    (h.line label).bind fun _ ↦ (statementLines_writes h hbody).indented.bind fun _ ↦ .pure
  unfold caseText
  cases hsome : c.test with
  | none => exact .bind .pure hrest
  | some test => exact (h.value (htest test hsome)).bind fun _ ↦ .bind .pure hrest

theorem switchText_writes {discriminant : View} {cases : List (SwitchCase View)}
    (hdiscriminant : discriminant.Placed deep n .expression)
    (hcases : ∀ c ∈ cases, AllHold (View.Placed deep n) c.slots) :
    Writes I deep (e.switchText discriminant cases) (e'.switchText discriminant cases) := by
  refine (condition_writes h hdiscriminant).bind fun _ ↦ ?_
  refine Writes.bind (.indented (.mapM fun c hc ↦ caseText_writes h (hcases c hc))) fun _ ↦ ?_
  exact h.pad.bind fun _ ↦ .pure

theorem loopInit_writes {init : Option View} (hinit : ∀ view ∈ init, view.Placed deep n .loopHead) :
    Writes I deep (e.loopInit init) (e'.loopInit init) := by
  unfold loopInit
  split
  · have hslots := (hinit _ rfl).plain_slots
    exact variablesText_writes h (allHold_flatMap.mp hslots) _ _
  · next inner =>
    have hslots := (hinit _ rfl).plain_slots
    exact h.value (by simpa [Plain.slots] using hslots)
  · exact .pure

theorem loopPart_writes {part : Option View}
    (hpart : ∀ view ∈ part, view.Placed deep n .expression) :
    Writes I deep (e.loopPart part) (e'.loopPart part) := by
  cases part with
  | none => exact .pure
  | some part => exact (h.value (hpart part rfl)).bind fun _ ↦ .pure

theorem finalizer_writes {finalizer : Option View}
    (hfinalizer : ∀ part ∈ finalizer, part.Placed deep n .statement) (front : Bytes) :
    Writes I deep
      (do
        let finalizer ← match finalizer with
          | none => pure []
          | some finalizer => pure (bytes " finally " ++ (← e.braced finalizer))
        return front ++ finalizer)
      (do
        let finalizer ← match finalizer with
          | none => pure []
          | some finalizer => pure (bytes " finally " ++ (← e'.braced finalizer))
        return front ++ finalizer) := by
  cases finalizer with
  | none => exact .bind .pure fun _ ↦ .pure
  | some finalizer =>
    exact (braced_writes h (hfinalizer finalizer rfl)).bind fun _ ↦ .bind .pure fun _ ↦ .pure

theorem tryText_writes {t : TryShape View} (ht : AllHold (View.Placed deep n) t.slots) :
    Writes I deep (e.tryText t) (e'.tryText t) := by
  simp only [TryShape.slots, allHold_append, allHold_filled, List.cons_append,
    List.forall_mem_cons, List.forall_mem_append, Option.mem_toList] at ht
  obtain ⟨⟨hblock, hhandler, hfinalizer⟩, hparam⟩ := ht
  unfold tryText
  refine (braced_writes h hblock).bind fun block ↦ ?_
  cases hhandled : t.handler with
  | none => exact .bind .pure fun _ ↦ finalizer_writes h hfinalizer _
  | some handler =>
    have hbraced := braced_writes h (hhandler handler hhandled)
    cases hcaught : t.param with
    | none =>
      refine .bind .pure fun _ ↦ hbraced.bind fun _ ↦ .bind .pure fun _ ↦ ?_
      exact finalizer_writes h hfinalizer _
    | some param =>
      refine (h.value (hparam param hcaught)).bind fun _ ↦ .bind .pure fun _ ↦ ?_
      exact hbraced.bind fun _ ↦ .bind .pure fun _ ↦ finalizer_writes h hfinalizer _

/-! ## Exports -/

theorem exportDeclaration_writes {declaration : View}
    (hdeclaration : declaration.Placed deep n .statement) :
    Writes I deep (e.exportDeclaration declaration) (e'.exportDeclaration declaration) := by
  unfold exportDeclaration
  rw [h.format]
  refine (h.statement hdeclaration).bind fun _ ↦ .ite (fun _ ↦ .pure) fun _ ↦ ?_
  exact h.pad.bind fun _ ↦ .pure

theorem exportAssignments_writes (specifiers : List ExportSpecifier) (source : Bytes) :
    Writes I deep (e.exportAssignments specifiers source)
      (e'.exportAssignments specifiers source) :=
  .ite (fun _ ↦ .pure) fun _ ↦ h.pad.bind fun _ ↦ .pure

theorem exportDefault_writes {value : DefaultExport View}
    (hvalue : AllHold (View.Placed deep n) value.slots) :
    Writes I deep (e.exportDefault value) (e'.exportDefault value) := by
  unfold exportDefault
  rw [h.format]
  cases value with
  | expression value =>
    have hplaced : value.Placed deep n .expression := by simpa [DefaultExport.slots] using hvalue
    exact (h.value hplaced).bind fun _ ↦ .pure
  | declaration declaration =>
    have hplaced : declaration.Placed deep n .statement := by
      simpa [DefaultExport.slots] using hvalue
    refine (h.statement hplaced).bind fun _ ↦ .ite (fun _ ↦ .pure) fun _ ↦ ?_
    exact .ite (fun _ ↦ .pure) fun _ ↦ h.pad.bind fun _ ↦ .pure

/-! ## All statements -/

theorem plainStatement_writes {line column : Nat} {form : Plain View}
    (hform : form.stands .statement) (hslots : AllHold (View.Placed deep n) form.slots) :
    Writes I deep (e.plainStatement (.plain line column form) form)
      (e'.plainStatement (.plain line column form) form) := by
  cases form with
  | imports | typeAlias | jump | empty | debugger => exact .pure
  | exportAll source name typeOnly =>
    unfold plainStatement exportAll
    rw [h.format]
    exact .pure
  | exportNamed declaration specifiers source typeOnly =>
    cases declaration with
    | some declaration =>
      exact exportDeclaration_writes h (by simpa [Plain.slots] using hslots)
    | none =>
      unfold plainStatement
      rw [h.format]
      exact .ite (fun _ ↦ exportAssignments_writes h specifiers source) fun _ ↦ .pure
  | exportDefault value => exact exportDefault_writes h hslots
  | functionDeclaration f isDeclare =>
    exact (callableText_writes h hslots isDeclare).bind fun _ ↦ .pure
  | classDeclaration c => exact classText_writes h hslots false
  | enum name members isConst isDeclare =>
    refine enumText_writes h (fun m hm ↦ ?_) name isConst isDeclare
    simpa using allHold_flatMap.mp hslots m hm
  | module keyword name body isDeclare =>
    exact namespaceText_writes h (allHold_filled.mp hslots) keyword name isDeclare
  | interface name typeParameters extended members isDeclare =>
    exact interfaceText_writes h name typeParameters extended members isDeclare
  | variableDeclaration keyword declarators isDeclare =>
    exact (variablesText_writes h (allHold_flatMap.mp hslots) keyword isDeclare).bind
      fun _ ↦ .pure
  | block body => exact bracedOf_writes h (allHold_filled.mp hslots)
  | expressionStatement | throw =>
    simp only [Plain.slots, allHold_filled, List.forall_mem_singleton] at hslots
    exact (h.value hslots).bind fun _ ↦ .pure
  | ifElse test consequent alternate =>
    obtain ⟨htest, hconsequent, halternate⟩ := by simpa [Plain.slots] using hslots
    exact ifElse_writes h htest hconsequent fun view hview ↦ ifText_writes h (halternate view hview)
  | switch discriminant cases =>
    obtain ⟨hdiscriminant, hcases⟩ := by simpa [Plain.slots] using hslots
    exact switchText_writes h hdiscriminant hcases
  | forLoop init test update body =>
    simp only [Plain.slots, allHold_append, allHold_filled, List.forall_mem_append,
      Option.mem_toList, List.forall_mem_singleton] at hslots
    obtain ⟨⟨hinit, htest, hupdate⟩, hbody⟩ := hslots
    refine (loopInit_writes h hinit).bind fun _ ↦ (loopPart_writes h htest).bind fun _ ↦ ?_
    exact (loopPart_writes h hupdate).bind fun _ ↦ (braced_writes h hbody).bind fun _ ↦ .pure
  | forIn left right body isOf isAwait =>
    obtain ⟨hleft, hright, hbody⟩ := by simpa [Plain.slots] using hslots
    refine (loopInit_writes h ?_).bind fun _ ↦ (h.value hright).bind fun _ ↦ ?_
    · simpa using hleft
    · exact (braced_writes h hbody).bind fun _ ↦ .pure
  | whileLoop test body =>
    obtain ⟨htest, hbody⟩ := by simpa [Plain.slots] using hslots
    exact (condition_writes h htest).bind fun _ ↦ (braced_writes h hbody).bind fun _ ↦ .pure
  | doWhile body test =>
    obtain ⟨hbody, htest⟩ := by simpa [Plain.slots] using hslots
    exact (braced_writes h hbody).bind fun _ ↦ (condition_writes h htest).bind fun _ ↦ .pure
  | returnValue argument =>
    cases argument with
    | none => exact .pure
    | some argument => exact (h.value (by simpa [Plain.slots] using hslots)).bind fun _ ↦ .pure
  | tryCatch t => exact tryText_writes h hslots
  | labeled label body =>
    exact (h.statement (by simpa [Plain.slots] using hslots)).bind fun _ ↦ .pure
  | _ => cases hform

theorem statementStep_writes {view : View} (hview : view.Placed deep (n + 1) .statement) :
    Writes I deep (e.statementStep view) (e'.statementStep view) := by
  cases view with
  | plain line column form =>
    obtain ⟨hstands, hslots⟩ := hview.plain_parts
    exact plainStatement_writes h hstands hslots
  | rendered line column form =>
    obtain ⟨hstands, hslots⟩ := hview.rendered_parts
    cases form with
    | component c => exact componentText_writes h hslots
    | _ => cases hstands

theorem expressionStep_writes {place : Place} {view : View}
    (hview : view.Placed deep (n + 1) place) (hplace : place = .expression ∨ place = .key) :
    Writes I deep (e.expressionStep view) (e'.expressionStep view) := by
  cases view with
  | plain line column form =>
    obtain ⟨hstands, hslots⟩ := hview.plain_parts
    refine plainExpression_writes h ?_ hslots
    rcases hplace with rfl | rfl
    · exact hstands
    · exact Plain.isExpression_of_stands_key hstands
  | rendered line column form =>
    obtain ⟨hstands, hslots⟩ := hview.rendered_parts
    rcases hplace with rfl | rfl
    · cases form with
      | component c => exact componentText_writes h hslots
      | classValue c => exact classText_writes h hslots true
      | element element => exact elementText_writes h hslots
      | componentCall name props children =>
        obtain ⟨hprops, hchildren⟩ := by simpa [Rendered.slots] using hslots
        exact callText_writes h hprops hchildren name
      | fragment children => exact fragmentText_writes h (allHold_filled.mp hslots)
      | text value => exact .pure
      | child classification inner => exact h.value (by simpa [Rendered.slots] using hslots)
    · cases form <;> cases hstands

end Served

end Emission

/-! ## Programs -/

section Programs

variable {I : EmitState → Prop} {deep : Prop}

open Emission Emit

theorem emission_succ (options : ScriptOptions) (levels : Nat) :
    emission options (levels + 1) = {
      options := options
      statement := (emission options levels).statementStep
      expression := (emission options levels).expressionStep } := rfl

theorem emission_options (options : ScriptOptions) (levels : Nat) :
    (emission options levels).options = options := by
  cases levels <;> rfl

/-- Entry points with more levels, of any limit, write what those with fewer levels write. -/
theorem emission_serves {options options' : ScriptOptions} {level level' : Nat}
    (hlasting : Lasting options.runtimeModule I)
    (hoptions : options' = { options with maxDepth := options'.maxDepth }) (hle : level ≤ level') :
    Serves I deep level (emission options level) (emission options' level') := by
  have hsame : (emission options' level').options = { (emission options level).options with
      maxDepth := (emission options' level').options.maxDepth } := by
    rwa [emission_options, emission_options]
  have hlasting' : Lasting (emission options level).options.runtimeModule I := by
    rwa [emission_options]
  induction level generalizing level' with
  | zero =>
    exact {
      lasting := hlasting'
      options := hsame
      statement := fun hview ↦ .tooDeep (hview.pos.resolve_right (Nat.lt_irrefl 0))
      expression := fun hview _ ↦ .tooDeep (hview.pos.resolve_right (Nat.lt_irrefl 0)) }
  | succ level ih =>
    obtain ⟨level', rfl⟩ : ∃ more, level' = more + 1 := ⟨level' - 1, by omega⟩
    have hserves : Serves I deep level (emission options level) (emission options' level') := by
      refine ih (Nat.le_of_succ_le_succ hle) ?_ ?_
      · rwa [emission_options, emission_options]
      · rwa [emission_options]
    rw [emission_succ] at hsame hlasting' ⊢
    rw [emission_succ] at hsame ⊢
    exact {
      lasting := hlasting'
      options := hsame
      statement := statementStep_writes hserves
      expression := expressionStep_writes hserves }

/-- A property that lasts while a whole program is written. -/
structure EmitState.LastsIn (runtimeModule : Bytes) (program : ViewProgram)
    (I : EmitState → Prop) : Prop where
  lasting : Lasting runtimeModule I
  primitive {s : EmitState} (h : I s) {name : Bytes} (hname : name ∈ program.primitives) :
    I { s with imports := s.imports.addNamed runtimeModule name [] false }
  clause {s : EmitState} (h : I s) {line column : Nat} {clause : ImportClause}
    (hclause : .plain line column (.imports clause) ∈ program.body) :
    I { s with imports := s.imports.add clause }

namespace Script

variable {options options' : ScriptOptions} {program : ViewProgram} {n : Nat}

theorem programText_writes (hI : LastsIn options.runtimeModule program I)
    (hoptions : options' = { options with maxDepth := options'.maxDepth })
    (hbody : ∀ view ∈ program.body, view.Placed deep n .statement) {level level' : Nat}
    (hn : n ≤ level) (hle : level ≤ level') :
    Writes I deep (programText (emission options level) program)
      (programText (emission options' level') program) := by
  have h : Serves I deep level (emission options level) (emission options' level') :=
    emission_serves hI.lasting hoptions hle
  have hruntime : options'.runtimeModule = options.runtimeModule := by rw [hoptions]
  have hprimitives : Writes I deep
      (program.primitives.forM (emission options level).useRuntime)
      (program.primitives.forM (emission options' level').useRuntime) := by
    refine .forM fun name hname ↦ ?_
    unfold useRuntime
    rw [emission_options, emission_options, hruntime]
    exact .modify fun _ hs ↦ hI.primitive hs hname
  have hstatements : Writes I deep
      (program.body.mapM (moduleStatement (emission options level)))
      (program.body.mapM (moduleStatement (emission options' level'))) := by
    refine .mapM fun view hview ↦ ?_
    unfold moduleStatement
    split
    · exact Writes.bind (.modify fun _ hs ↦ hI.clause hs hview) fun _ ↦ .pure
    · exact (h.statement ((hbody view hview).mono hn)).bind fun _ ↦ h.line _
  exact hprimitives.bind fun _ ↦ hstatements.bind fun _ ↦ .pure

theorem ofProgram_of_ok {code : Bytes} {state : EmitState}
    (h : programText (emission options options.maxDepth.toNat) program 0 {} = .ok (code, state)) :
    let header := state.imports.generate options.format
    ofProgram options program = .ok {
      text := if header.isEmpty then code else header ++ bytes "\n" ++ code
      imports := state.imports } := by
  simp only [ofProgram, h]
  rfl

theorem ofProgram_of_error {failure : Failure}
    (h : programText (emission options options.maxDepth.toNat) program 0 {} = .error failure) :
    ofProgram options program = .error failure := by
  simp only [ofProgram, h]
  rfl

/-- A program whose statements stand in their places is written, and in the same way under a limit
that is no lower; or its nesting is too deep. -/
theorem ofProgram_cases (options options' : ScriptOptions)
    (hoptions : options' = { options with maxDepth := options'.maxDepth })
    (hdepth : options.maxDepth ≤ options'.maxDepth)
    (hbody : ∀ view ∈ program.body, view.Placed deep n .statement)
    (hn : n ≤ options.maxDepth.toNat) :
    (∃ script, ofProgram options program = .ok script ∧ ofProgram options' program = .ok script) ∨
      ∃ failure, ofProgram options program = .error failure ∧
        failure.code = Failure.depthCode .emitter ∧ deep := by
  have hI : LastsIn options.runtimeModule program fun _ ↦ True :=
    ⟨⟨fun _ _ _ ↦ trivial, fun _ _ _ ↦ trivial⟩, fun _ _ _ ↦ trivial, fun _ _ _ _ _ ↦ trivial⟩
  have hformat : options'.format = options.format := by rw [hoptions]
  obtain ⟨code, state, -, hrun, hdeeper⟩ | ⟨failure, hrun, hcode⟩ :=
    programText_writes hI hoptions hbody hn (Int.toNat_le_toNat hdepth) 0 (show True from trivial)
  · refine .inl ⟨_, ofProgram_of_ok hrun, ?_⟩
    rw [ofProgram_of_ok hdeeper, hformat]
  · exact .inr ⟨failure, ofProgram_of_error hrun, hcode⟩

end Script

end Programs

end SignalView
