import SignalView.Proofs.Script.Formats.Markup

/-!
# Statements in two formats

Exports alone look at the module format. Whatever the format is, an export writes the same parts, so
the same things are gathered; only the text around the parts is another one.
-/

namespace SignalView

open Slot

namespace Emission

open Emit

section Formats

variable {p : Prop} {e e' : Emission} (h : Parallel p e e')
include h

/-! ## Components -/

theorem componentBody_alike {c : Component View} (hblock : ∀ part ∈ c.block, part.Stable p)
    (hvalue : ∀ part ∈ c.value, part.Stable p) :
    Alike p (e.componentBody c) (e'.componentBody c) := by
  unfold componentBody
  cases hblocked : c.block with
  | some block => exact braced_alike h (hblock block hblocked)
  | none =>
    cases hvalued : c.value with
    | some value => exact arrowBody_alike h (hvalue value hvalued)
    | none => exact .refl _

theorem componentText_alike {c : Component View} (hparts : ∀ part ∈ parts c.slots, part.Stable p) :
    Alike p (e.componentText c) (e'.componentText c) := by
  simp only [Component.slots, parts_append, parts_filled, parts_flatMap, List.forall_mem_append,
    Option.mem_toList, List.mem_flatMap, forall_exists_index, and_imp] at hparts
  obtain ⟨⟨hparams, hblock⟩, hvalue⟩ := hparts
  refine (h.useRuntime _).bind fun _ _ _ ↦ ?_
  refine (signature_alike h (fun param hparam part ↦ hparams part param hparam) _ _).bind
    fun _ _ hsignature ↦ ?_
  refine .bind (.indented ((componentBody_alike h hblock hvalue).bind fun _ _ hinner ↦
    h.line fun hp ↦ by rw [hinner hp])) fun _ _ hbody ↦ h.pad.bind fun _ _ hmargin ↦ ?_
  exact .pure fun hp ↦ by rw [hsignature hp, hbody hp, hmargin hp]

/-! ## Variables and types -/

theorem variablesText_alike {declarators : List (Declarator View)}
    (hparts : ∀ d ∈ declarators, ∀ part ∈ parts d.slots, part.Stable p) (keyword : Bytes)
    (isDeclare : Bool) : Alike p (e.variablesText keyword declarators isDeclare)
      (e'.variablesText keyword declarators isDeclare) := by
  refine .bind (.mapM fun d hd ↦ ?_) fun _ _ htexts ↦ .pure fun hp ↦ by rw [htexts hp]
  have hd' := hparts d hd
  simp only [Declarator.slots, parts_filled, List.forall_mem_cons, Option.mem_toList] at hd'
  refine (h.expression hd'.1).bind fun _ _ htarget ↦ ?_
  exact (initial_alike h hd'.2).bind fun _ _ hinitial ↦
    .pure fun hp ↦ by rw [htarget hp, hinitial hp]

theorem interfaceText_alike (name typeParameters : Bytes) (extended members : List Bytes)
    (isDeclare : Bool) : Alike p (e.interfaceText name typeParameters extended members isDeclare)
      (e'.interfaceText name typeParameters extended members isDeclare) := by
  refine .ite (fun _ ↦ .refl _) fun _ ↦ ?_
  refine .bind (.indented (.mapM fun _ _ ↦ h.line fun _ ↦ rfl)) fun _ _ hlines ↦ ?_
  exact h.pad.bind fun _ _ hmargin ↦ .pure fun hp ↦ by rw [hlines hp, hmargin hp]

theorem enumText_alike (name : Bytes) {members : List (EnumMember View)}
    (hvalues : ∀ m ∈ members, ∀ part ∈ m.init, part.Stable p) (isConst isDeclare : Bool) :
    Alike p (e.enumText name members isConst isDeclare)
      (e'.enumText name members isConst isDeclare) := by
  refine .ite (fun _ ↦ .refl _) fun _ ↦ ?_
  refine .bind (.indented (.mapM fun m hm ↦ (initial_alike h (hvalues m hm)).bind
    fun _ _ hinitial ↦ h.line fun hp ↦ by rw [hinitial hp])) fun _ _ hlines ↦ ?_
  exact h.pad.bind fun _ _ hmargin ↦ .pure fun hp ↦ by rw [hlines hp, hmargin hp]

theorem namespaceText_alike (keyword name : Bytes) {body : Option (List View)}
    (hbody : ∀ view ∈ body.getD [], view.Stable p) (isDeclare : Bool) :
    Alike p (e.namespaceText keyword name body isDeclare)
      (e'.namespaceText keyword name body isDeclare) := by
  cases body with
  | none => exact .refl _
  | some body =>
    refine (statementLines_alike h hbody).indented.bind fun _ _ hlines ↦ ?_
    exact h.pad.bind fun _ _ hmargin ↦ .pure fun hp ↦ by rw [hlines hp, hmargin hp]

/-! ## Control flow -/

theorem condition_alike {test : View} (htest : test.Stable p) :
    Alike p (e.condition test) (e'.condition test) :=
  (h.expression htest).bind fun _ _ htext ↦ .pure fun hp ↦ by rw [htext hp]

theorem ifText_alike {view : View} (hview : view.Stable p) :
    Alike p (e.ifText view) (e'.ifText view) := by
  -- a chain goes on in the branch of the condition before it
  induction view using ifText.induct with
  | case1 line column test consequent alternate ih =>
    have hparts := (View.stable_iff.mp hview).2
    simp only [View.slots, Plain.slots, parts_append, parts_filled, List.forall_mem_append,
      List.forall_mem_singleton, List.forall_mem_cons, Option.mem_toList] at hparts
    obtain ⟨htest, hconsequent, halternate⟩ := hparts
    rw [ifText, ifText]
    refine (condition_alike h htest).bind fun _ _ hcondition ↦ ?_
    refine (braced_alike h hconsequent).bind fun _ _ hbody ↦ ?_
    cases alternate with
    | none => exact .pure fun hp ↦ by rw [hcondition hp, hbody hp]
    | some alternate =>
      exact (ih (halternate alternate rfl)).bind fun _ _ hrest ↦
        .pure fun hp ↦ by rw [hcondition hp, hbody hp, hrest hp]
  | case2 view hother =>
    rw [ifText, ifText]
    · exact braced_alike h hview
    · exact hother
    · exact hother

theorem caseText_alike {c : SwitchCase View} (hparts : ∀ part ∈ parts c.slots, part.Stable p) :
    Alike p (e.caseText c) (e'.caseText c) := by
  simp only [SwitchCase.slots, parts_append, parts_filled, List.forall_mem_append,
    Option.mem_toList] at hparts
  have hbody := (statementLines_alike h hparts.2).indented
  unfold caseText
  cases hsome : c.test with
  | none =>
    exact .bind (.refl _) fun _ _ hlabel ↦ (h.line hlabel).bind fun _ _ hline ↦
      hbody.bind fun _ _ hbody ↦ .pure fun hp ↦ by rw [hline hp, hbody hp]
  | some test =>
    refine (h.expression (hparts.1 test hsome)).bind fun _ _ htext ↦
      .bind (.pure fun hp ↦ by rw [htext hp]) fun _ _ hlabel ↦ ?_
    exact (h.line hlabel).bind fun _ _ hline ↦
      hbody.bind fun _ _ hbody ↦ .pure fun hp ↦ by rw [hline hp, hbody hp]

theorem switchText_alike {discriminant : View} {cases : List (SwitchCase View)}
    (hdiscriminant : discriminant.Stable p)
    (hcases : ∀ c ∈ cases, ∀ part ∈ parts c.slots, part.Stable p) :
    Alike p (e.switchText discriminant cases) (e'.switchText discriminant cases) := by
  refine (condition_alike h hdiscriminant).bind fun _ _ hdiscriminant ↦ ?_
  refine .bind (.indented (.mapM fun c hc ↦ caseText_alike h (hcases c hc))) fun _ _ hlines ↦ ?_
  exact h.pad.bind fun _ _ hmargin ↦
    .pure fun hp ↦ by rw [hdiscriminant hp, hlines hp, hmargin hp]

theorem loopInit_alike {init : Option View} (hinit : ∀ view ∈ init, view.Stable p) :
    Alike p (e.loopInit init) (e'.loopInit init) := by
  unfold loopInit
  split
  · next keyword declarators isDeclare =>
    have hparts := (View.stable_iff.mp (hinit _ rfl)).2
    simp only [View.slots, Plain.slots, parts_flatMap, List.mem_flatMap, forall_exists_index,
      and_imp] at hparts
    exact variablesText_alike h (fun d hd part ↦ hparts part d hd) keyword isDeclare
  · next inner =>
    have hparts := (View.stable_iff.mp (hinit _ rfl)).2
    exact h.expression (hparts inner (by simp [View.slots, Plain.slots]))
  · exact .refl _

theorem loopPart_alike {part : Option View} (hpart : ∀ view ∈ part, view.Stable p) :
    Alike p (e.loopPart part) (e'.loopPart part) := by
  cases part with
  | none => exact .refl _
  | some part =>
    exact (h.expression (hpart part rfl)).bind fun _ _ htext ↦ .pure fun hp ↦ by rw [htext hp]

theorem forText_alike {init test update : Option View} {body : View}
    (hinit : ∀ view ∈ init, view.Stable p) (htest : ∀ view ∈ test, view.Stable p)
    (hupdate : ∀ view ∈ update, view.Stable p) (hbody : body.Stable p) :
    Alike p (e.forText init test update body) (e'.forText init test update body) := by
  refine (loopInit_alike h hinit).bind fun _ _ hinit ↦ ?_
  refine (loopPart_alike h htest).bind fun _ _ htest ↦ ?_
  refine (loopPart_alike h hupdate).bind fun _ _ hupdate ↦ ?_
  exact (braced_alike h hbody).bind fun _ _ hbody ↦
    .pure fun hp ↦ by rw [hinit hp, htest hp, hupdate hp, hbody hp]

theorem forInText_alike {left right body : View} (hleft : left.Stable p) (hright : right.Stable p)
    (hbody : body.Stable p) (isOf isAwait : Bool) :
    Alike p (e.forInText left right body isOf isAwait)
      (e'.forInText left right body isOf isAwait) := by
  have hleft : ∀ view ∈ some left, view.Stable p := by rintro view ⟨⟩; exact hleft
  refine (loopInit_alike h hleft).bind fun _ _ hleft ↦ ?_
  refine (h.expression hright).bind fun _ _ hright ↦ ?_
  exact (braced_alike h hbody).bind fun _ _ hbody ↦
    .pure fun hp ↦ by rw [hleft hp, hright hp, hbody hp]

/-- The last part of a `try` statement, behind what is written before it. -/
theorem finalizer_alike {finalizer : Option View}
    (hfinalizer : ∀ part ∈ finalizer, part.Stable p) {front front' : Bytes}
    (hfront : p → front = front') :
    Alike p
      (do
        let finalizer ← match finalizer with
          | none => pure []
          | some finalizer => pure (bytes " finally " ++ (← e.braced finalizer))
        return front ++ finalizer)
      (do
        let finalizer ← match finalizer with
          | none => pure []
          | some finalizer => pure (bytes " finally " ++ (← e'.braced finalizer))
        return front' ++ finalizer) := by
  cases finalizer with
  | none => exact .pure fun hp ↦ by rw [hfront hp]
  | some finalizer =>
    exact (braced_alike h (hfinalizer finalizer rfl)).bind fun _ _ htext ↦
      .pure fun hp ↦ by rw [hfront hp, htext hp]

theorem tryText_alike {t : TryShape View} (hparts : ∀ part ∈ parts t.slots, part.Stable p) :
    Alike p (e.tryText t) (e'.tryText t) := by
  simp only [TryShape.slots, parts_append, parts_filled, List.cons_append, List.forall_mem_cons,
    List.forall_mem_append, Option.mem_toList] at hparts
  obtain ⟨hblock, ⟨hhandler, hfinalizer⟩, hparam⟩ := hparts
  refine (braced_alike h hblock).bind fun _ _ hblock ↦ ?_
  cases hhandled : t.handler with
  | none => exact .bind (.refl _) fun _ _ htext ↦
      finalizer_alike h hfinalizer fun hp ↦ by rw [hblock hp, htext hp]
  | some handler =>
    have hbraced := braced_alike h (hhandler handler hhandled)
    cases hcaught : t.param with
    | none =>
      refine .bind (.refl _) fun _ _ hparam ↦ hbraced.bind fun _ _ htext ↦ ?_
      exact .bind (.pure fun hp ↦ by rw [hparam hp, htext hp]) fun _ _ htext ↦
        finalizer_alike h hfinalizer fun hp ↦ by rw [hblock hp, htext hp]
    | some param =>
      refine (h.expression (hparam param hcaught)).bind fun _ _ hparam ↦
        .bind (.pure fun hp ↦ by rw [hparam hp]) fun _ _ hparam ↦ hbraced.bind fun _ _ htext ↦ ?_
      exact .bind (.pure fun hp ↦ by rw [hparam hp, htext hp]) fun _ _ htext ↦
        finalizer_alike h hfinalizer fun hp ↦ by rw [hblock hp, htext hp]

/-! ## Exports -/

omit h in
/-- The text of an exported declaration is put together without gathering anything. -/
theorem exported_still (e : Emission) (text : Bytes) (names : List Bytes) :
    Still (if names.isEmpty then pure (bytes "export " ++ text)
      else do
        let margin ← e.pad
        return text ++ names.flatMap fun name ↦
          bytes "\n" ++ margin ++ exportTarget name ++ bytes " = " ++ name ++ bytes ";") :=
  .ite (.pure _) ((pad_still e).bind fun _ ↦ .pure _)

theorem exportDeclaration_alike {declaration : View} (hdeclaration : declaration.Stable p)
    (hnames : p → valueNames declaration = []) :
    Alike p (e.exportDeclaration declaration) (e'.exportDeclaration declaration) := by
  refine (h.statement hdeclaration).bind fun _ _ htext ↦ ?_
  refine .of_still (exported_still e _ _) (exported_still e' _ _) fun hp ↦ ?_
  simp only [hnames hp, ite_self, List.isEmpty_nil, if_true, htext hp]

omit h in
theorem exportAssignments_still (e : Emission) (specifiers : List ExportSpecifier)
    (source : Bytes) : Still (e.exportAssignments specifiers source) :=
  .ite (.pure _) ((pad_still e).bind fun _ ↦ .pure _)

theorem exportDefault_alike {value : DefaultExport View}
    (hparts : ∀ part ∈ parts value.slots, part.Stable p)
    (hfree : p → ∃ declaration, value = .declaration declaration ∧
      isConstant declaration = true ∧ declaredName declaration = []) :
    Alike p (e.exportDefault value) (e'.exportDefault value) := by
  cases value with
  | expression value =>
    simp only [DefaultExport.slots, parts_filled, List.forall_mem_singleton] at hparts
    refine (h.expression hparts).bind fun _ _ _ ↦ .pure fun hp ↦ ?_
    obtain ⟨_, hvalue, -⟩ := hfree hp
    cases hvalue
  | declaration declaration =>
    simp only [DefaultExport.slots, parts_filled, List.forall_mem_singleton] at hparts
    refine (h.statement hparts).bind fun text text' htext ↦ ?_
    have hstill (e : Emission) (text : Bytes) : Still (
        if !isConstant declaration && e.options.format != .commonjs then
          pure (bytes "export default " ++ text)
        else if (declaredName declaration).isEmpty then
          pure (defaultTarget .commonjs ++ text ++ bytes ";")
        else do
          return text ++ bytes "\n" ++ (← e.pad) ++ defaultTarget e.options.format ++
            declaredName declaration ++ bytes ";") :=
      .ite (.pure _) (.ite (.pure _) ((pad_still e).bind fun _ ↦ .pure _))
    refine .of_still (hstill e text) (hstill e' text') fun hp ↦ ?_
    obtain ⟨_, hvalue, hconstant, hname⟩ := hfree hp
    cases hvalue
    simp [hconstant, hname, htext hp]

/-! ## All statements -/

theorem plainStatement_alike {line column : Nat} {form : Plain View}
    (hview : (View.plain line column form).Stable p) :
    Alike p (e.plainStatement (.plain line column form) form)
      (e'.plainStatement (.plain line column form) form) := by
  obtain ⟨⟨-, hfree⟩, hparts⟩ := View.stable_iff.mp hview
  simp only [View.slots] at hparts
  cases form with
  | exportNamed declaration specifiers source typeOnly =>
    cases declaration with
    | some declaration =>
      refine exportDeclaration_alike h (hparts declaration (by simp [Plain.slots])) fun hp ↦ ?_
      simpa [View.readsFormat] using hfree hp
    | none =>
      have hstill (e : Emission) : Still (
          if e.options.format == .commonjs && !typeOnly then e.exportAssignments specifiers source
          else return exportList specifiers source typeOnly) :=
        .ite (exportAssignments_still e specifiers source) (.pure _)
      refine .of_still (hstill e) (hstill e') fun hp ↦ ?_
      have htypeOnly : typeOnly = true := by simpa [View.readsFormat] using hfree hp
      simp [htypeOnly, plainStatement]
  | exportDefault value =>
    refine exportDefault_alike h hparts fun hp ↦ ?_
    cases value with
    | expression value => exact absurd (hfree hp) (by simp [View.readsFormat])
    | declaration declaration =>
      exact ⟨declaration, rfl, by simpa [View.readsFormat] using hfree hp⟩
  | exportAll source name typeOnly =>
    refine .pure fun hp ↦ ?_
    have htypeOnly : typeOnly = true := by simpa [View.readsFormat] using hfree hp
    simp [exportAll, htypeOnly]
  | functionDeclaration f isDeclare =>
    exact (callableText_alike h hparts isDeclare).bind fun _ _ htext ↦
      .pure fun hp ↦ by rw [htext hp]
  | classDeclaration c => exact classText_alike h hparts false
  | enum name members isConst isDeclare =>
    simp only [Plain.slots, parts_flatMap, parts_filled, List.mem_flatMap, Option.mem_toList,
      forall_exists_index, and_imp] at hparts
    exact enumText_alike h name (fun m hm part ↦ hparts part m hm) isConst isDeclare
  | module keyword name body isDeclare =>
    simp only [Plain.slots, parts_filled] at hparts
    exact namespaceText_alike h keyword name hparts isDeclare
  | interface name typeParameters extended members isDeclare =>
    exact interfaceText_alike h name typeParameters extended members isDeclare
  | variableDeclaration keyword declarators isDeclare =>
    simp only [Plain.slots, parts_flatMap, List.mem_flatMap, forall_exists_index,
      and_imp] at hparts
    exact (variablesText_alike h (fun d hd part ↦ hparts part d hd) keyword isDeclare).bind
      fun _ _ htext ↦ .pure fun hp ↦ by rw [htext hp]
  | block body => exact braced_alike h hview
  | expressionStatement inner | throw inner =>
    simp only [Plain.slots, parts_filled, List.forall_mem_singleton] at hparts
    exact (h.expression hparts).bind fun _ _ htext ↦ .pure fun hp ↦ by rw [htext hp]
  | ifElse test consequent alternate => exact ifText_alike h hview
  | switch discriminant cases =>
    simp only [Plain.slots, parts_append, parts_filled, parts_flatMap, List.forall_mem_append,
      List.forall_mem_singleton, List.mem_flatMap, forall_exists_index, and_imp] at hparts
    exact switchText_alike h hparts.1 fun c hc part ↦ hparts.2 part c hc
  | forLoop init test update body =>
    simp only [Plain.slots, parts_append, parts_filled, List.forall_mem_append, Option.mem_toList,
      List.forall_mem_singleton] at hparts
    obtain ⟨⟨hinit, htest, hupdate⟩, hbody⟩ := hparts
    exact forText_alike h hinit htest hupdate hbody
  | forIn left right body isOf isAwait =>
    simp only [Plain.slots, parts_append, parts_filled, List.forall_mem_append,
      List.forall_mem_singleton] at hparts
    exact forInText_alike h hparts.1.1 hparts.1.2 hparts.2 isOf isAwait
  | whileLoop test body =>
    simp only [Plain.slots, parts_append, parts_filled, List.forall_mem_append,
      List.forall_mem_singleton] at hparts
    exact (condition_alike h hparts.1).bind fun _ _ htest ↦ (braced_alike h hparts.2).bind
      fun _ _ hbody ↦ .pure fun hp ↦ by rw [htest hp, hbody hp]
  | doWhile body test =>
    simp only [Plain.slots, parts_append, parts_filled, List.forall_mem_append,
      List.forall_mem_singleton] at hparts
    exact (braced_alike h hparts.1).bind fun _ _ hbody ↦ (condition_alike h hparts.2).bind
      fun _ _ htest ↦ .pure fun hp ↦ by rw [hbody hp, htest hp]
  | returnValue argument =>
    cases argument with
    | none => exact .refl _
    | some argument =>
      exact (h.expression (hparts argument (by simp [Plain.slots]))).bind fun _ _ htext ↦
        .pure fun hp ↦ by rw [htext hp]
  | tryCatch t => exact tryText_alike h hparts
  | labeled label body =>
    simp only [Plain.slots, parts_filled, List.forall_mem_singleton] at hparts
    exact (h.statement hparts).bind fun _ _ htext ↦ .pure fun hp ↦ by rw [htext hp]
  | _ => exact .refl _

theorem statementStep_alike {view : View} (hview : view.Stable p) :
    Alike p (e.statementStep view) (e'.statementStep view) := by
  cases view with
  | plain line column form => exact plainStatement_alike h hview
  | rendered line column form =>
    have hparts := (View.stable_iff.mp hview).2
    cases form with
    | component c => exact componentText_alike h hparts
    | classValue c => exact classText_alike h hparts true
    | _ => exact .refl _

theorem expressionStep_alike {view : View} (hview : view.Stable p) :
    Alike p (e.expressionStep view) (e'.expressionStep view) := by
  cases view with
  | plain line column form => exact plainExpression_alike h hview _
  | rendered line column form =>
    have hparts := (View.stable_iff.mp hview).2
    cases form with
    | component c => exact componentText_alike h hparts
    | classValue c => exact classText_alike h hparts true
    | element element => exact elementText_alike h hparts
    | componentCall name props children =>
      simp only [View.slots, Rendered.slots, ViewAttribute.slots, parts_append, parts_flatMap,
        parts_held, parts_filled, List.forall_mem_append, List.mem_flatMap, Option.mem_toList,
        forall_exists_index, and_imp] at hparts
      exact callText_alike h name (fun a ha part ↦ hparts.1 part a ha) hparts.2
    | fragment children =>
      simp only [View.slots, Rendered.slots, parts_filled] at hparts
      exact fragmentText_alike h hparts
    | text value => exact .refl _
    | child c inner =>
      exact h.expression (hparts inner (by simp [View.slots, Rendered.slots]))

end Formats

end Emission

end SignalView
