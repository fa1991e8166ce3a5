import SignalView.Proofs.Lowering.Patterns
import SignalView.Proofs.Script.Parens.Markup
import SignalView.Script.Program

/-!
# Parentheses of statements and conditions

A statement whose parts are written with paired parentheses is written with paired parentheses, and
so is a condition: it loses one pair exactly if it is an expression in parentheses, and is then
written as what is inside.
-/

namespace SignalView

open Slot

theorem Plain.mem_parts_of_mem_subpatterns {α : Type} {rule : Property α → Option α}
    (hrule : ∀ {p : Property α} {a : α}, rule p = some a → p.value = some a ∨ p.key = some a)
    {form : Plain α} {part : α} (h : part ∈ form.subpatterns rule) : part ∈ parts form.slots := by
  unfold subpatterns at h
  split at h
  · simpa [slots] using h
  · next properties =>
    obtain ⟨p, hp, hpart⟩ := List.mem_flatMap.mp h
    simp only [slots, parts_flatMap, List.mem_flatMap]
    refine ⟨p, hp, ?_⟩
    simp only [Property.slots, parts_append, parts_held, List.mem_append, Option.mem_toList]
    exact (hrule (Option.mem_toList.mp hpart)).symm
  · simp_all [slots]
  · simpa [slots] using h
  · cases h

/-- The names that a pattern binds are among its texts. -/
theorem View.paired_boundNames {view : View} (hview : view.WellSpelled) :
    ∀ name ∈ view.boundNames, Paired name := by
  cases view with
  | rendered line column form =>
    rw [boundNames_rendered]
    exact List.forall_mem_nil _
  | plain line column form =>
    have hspelled : AreSpelled form.texts form.slots := (wellSpelled_iff.mp hview).1
    have hparts : ∀ name ∈ (form.subpatterns (·.assignedPart)).flatMap View.boundNames,
        Paired name := by
      intro name hname
      obtain ⟨part, hpart, hname⟩ := List.mem_flatMap.mp hname
      have hsize := Plain.sizeOf_lt_of_mem_subpatterns Property.eq_or_eq_of_assignedPart hpart
      have hspelledPart := hspelled.2 part
        (Plain.mem_parts_of_mem_subpatterns Property.eq_or_eq_of_assignedPart hpart)
      exact paired_boundNames hspelledPart name hname
    rw [boundNames_plain]
    cases form with
    | identifier name => exact hspelled.1
    | _ => exact hparts
termination_by sizeOf view
decreasing_by
  rw [‹view = .plain line column form›, View.plain.sizeOf_spec]
  omega

namespace Emission

open Emit

/-! ## Components -/

/-- A component begins with a word behind some paired parentheses. -/
theorem componentHead_spelled {c : Component View} (hname : Paired c.name) {signature : Bytes}
    (hsignature : Paired signature) :
    HasWord (componentHead c signature) ∧ Paired (componentHead c signature) := by
  have hlead : Paired (when c.isAsync "async ") := paired_when _ "async " rfl
  have hfunction : IsWord (when c.isAsync "async " ++ bytes "function ") := by
    cases c.isAsync <;> decide
  unfold componentHead
  cases c.form with
  | keyword =>
    refine ⟨.of_isWord ?_, ?_⟩
    · exact .append (.append (.append (.append (.append (by decide) _) _) _) _) _
    · simp only [Paired, unpaired_append, hname, hlead, hsignature]
      rfl
  | functionDeclaration =>
    refine ⟨.of_isWord (hfunction.append _ |>.append _ |>.append _), ?_⟩
    simp only [Paired, unpaired_append, hname, hlead, hsignature]
    rfl
  | functionExpression =>
    refine ⟨.of_isWord (hfunction.append _ |>.append _), ?_⟩
    simp only [Paired, unpaired_append, hlead, hsignature]
    rfl
  | arrow =>
    have hfront : Paired (when c.isAsync "async " ++ signature) := by
      rw [Paired, unpaired_append, hlead, hsignature]
      rfl
    refine ⟨.behind hfront (by decide), ?_⟩
    rw [Paired, unpaired_append, hfront]
    rfl

section Spelling

variable {e : Emission} (h : Spells e)
include h

theorem componentText_gives {c : Component View} (hc : AreSpelled c.texts c.slots) :
    Gives Unwrapped (e.componentText c) := by
  obtain ⟨htexts, hparts⟩ := hc
  simp only [Component.texts, List.forall_mem_cons] at htexts
  simp only [Component.slots, parts_append, parts_filled, List.forall_mem_append,
    Option.mem_toList] at hparts
  obtain ⟨hname, htypeParameters, hreturnType, htexts⟩ := htexts
  obtain ⟨⟨hparams, hblock⟩, hvalue⟩ := hparts
  have hbody : Gives Paired (e.componentBody c) := by
    unfold componentBody
    cases hblocked : c.block with
    | some block => exact braced_gives h (hblock block hblocked)
    | none =>
      cases hvalued : c.value with
      | some value => exact arrowBody_gives h (hvalue value hvalued)
      | none => exact .pure rfl
  have hkey : Paired c.registryKey := by
    simp only [Component.registryKey, Paired, unpaired_append, hname]
    rfl
  refine .after fun _ ↦ (signature_gives h htypeParameters hreturnType fun p ↦
    .of_mem htexts hparams).bind fun signature hsignature ↦ ?_
  refine .bind (P := Paired) (.indented (hbody.bind fun inner hinner ↦ (h.line _).mono
    fun line hline ↦ ?_)) fun body hbody ↦ h.pad.bind fun margin hmargin ↦ .pure ?_
  · simp only [hline, Paired, unpaired_append, Quoted.unpaired_quoted, hkey, hinner,
      paired_when _ "async " rfl]
    rfl
  · have hhead := componentHead_spelled hname hsignature
    refine .of_hasWord (hhead.1.append _ |>.append _ |>.append _ |>.append _ |>.append _) ?_
    simp only [Paired, unpaired_append, hhead.2, hbody, hmargin, paired_when _ ";" rfl]
    rfl

/-! ## Variables and types -/

theorem variablesText_gives {keyword : Bytes} (hkeyword : Paired keyword)
    {declarators : List (Declarator View)} (htypes : ∀ d ∈ declarators, Paired d.type)
    (hparts : ∀ d ∈ declarators, ∀ part ∈ parts d.slots, part.WellSpelled) (isDeclare : Bool) :
    Gives Paired (e.variablesText keyword declarators isDeclare) := by
  refine .bind (.mapM (Q := Paired) fun d hd ↦ ?_) fun texts htexts ↦ .pure ?_
  · have hd' := hparts d hd
    simp only [Declarator.slots, parts_filled, List.forall_mem_cons, Option.mem_toList] at hd'
    refine (h.value hd'.1).bind fun target htarget ↦ ?_
    refine (initial_gives h hd'.2).bind fun initial hinitial ↦ .pure ?_
    simp only [Paired, unpaired_append, htarget, paired_when _ "!" rfl,
      paired_annotation (htypes d hd), hinitial]
    rfl
  · simp only [Paired, unpaired_append, paired_when _ "declare " rfl, hkeyword, paired_list htexts]
    rfl

theorem interfaceText_gives {name typeParameters : Bytes} (hname : Paired name)
    (htypeParameters : Paired typeParameters) {extended members : List Bytes}
    (hextended : ∀ text ∈ extended, Paired text) (hmembers : ∀ text ∈ members, Paired text)
    (isDeclare : Bool) :
    Gives Paired (e.interfaceText name typeParameters extended members isDeclare) := by
  have hlist : Paired (typeList " extends " extended) := paired_typeList rfl hextended
  have hhead : Paired (when isDeclare "declare " ++ bytes "interface " ++ name ++
      typeParameters ++ typeList " extends " extended) := by
    simp only [Paired, unpaired_append, paired_when _ "declare " rfl, hname, htypeParameters, hlist]
    rfl
  refine .ite (fun _ ↦ .pure ?_) fun _ ↦ ?_
  · rw [Paired, unpaired_append, hhead]
    rfl
  · refine .bind (.indented (.mapM (Q := Paired) fun member hmember ↦ (h.line _).mono
      fun line hline ↦ ?_)) fun lines hlines ↦ h.pad.bind fun margin hmargin ↦ .pure ?_
    · simp only [hline, Paired, unpaired_append, hmembers member hmember]
      rfl
    · simp only [Paired, unpaired_append _ (bytes " \x7b\n"), hhead, unpaired_append,
        paired_flatten hlines, hmargin]
      rfl

theorem enumText_gives {name : Bytes} (hname : Paired name) {members : List (EnumMember View)}
    (hnames : ∀ m ∈ members, Paired m.name)
    (hvalues : ∀ m ∈ members, ∀ part ∈ m.init, part.WellSpelled) (isConst isDeclare : Bool) :
    Gives Paired (e.enumText name members isConst isDeclare) := by
  refine .ite (fun _ ↦ .pure ?_) fun _ ↦ ?_
  · simp only [Paired, unpaired_append, paired_when _ "declare " rfl, paired_when _ "const " rfl,
      hname]
    rfl
  · refine .bind (.indented (.mapM (Q := Paired) fun m hm ↦ ?_)) fun lines hlines ↦
      h.pad.bind fun margin hmargin ↦ .pure ?_
    · refine (initial_gives h (hvalues m hm)).bind fun initial hinitial ↦ (h.line _).mono
        fun line hline ↦ ?_
      simp only [hline, Paired, unpaired_append, hnames m hm, hinitial]
      rfl
    · simp only [Paired, unpaired_append, paired_when _ "declare " rfl, paired_when _ "const " rfl,
        hname, paired_flatten hlines, hmargin]
      rfl

theorem namespaceText_gives {keyword name : Bytes} (hkeyword : Paired keyword) (hname : Paired name)
    {body : Option (List View)} (hbody : ∀ view ∈ body.getD [], view.WellSpelled)
    (isDeclare : Bool) : Gives Paired (e.namespaceText keyword name body isDeclare) := by
  have hhead : Paired (when isDeclare "declare " ++
      if keyword == bytes "global" then bytes "global" else keyword ++ bytes " " ++ name) := by
    rw [Paired, unpaired_append, paired_when _ "declare " rfl]
    split
    · rfl
    · simp only [unpaired_append, hkeyword, hname]
      rfl
  cases body with
  | none =>
    refine .pure ?_
    rw [Paired, unpaired_append, hhead]
    rfl
  | some body =>
    refine inBraces_gives h (statementLines_gives h hbody) ?_
    rw [Paired, unpaired_append, hhead]
    rfl

/-! ## Control flow -/

theorem condition_gives {test : View} (htest : test.WellSpelled) :
    Gives Paired (e.condition test) :=
  (h.value htest).bind fun _ htext ↦ .pure (Quoted.paired_stripParens htext)

theorem ifElse_gives {line column : Nat} {test consequent : View} {alternate : Option View}
    (htest : test.WellSpelled) (hconsequent : consequent.WellSpelled)
    (halternate : ∀ view ∈ alternate, Gives Paired (e.ifText view)) :
    Gives Paired (e.ifText (.plain line column (.ifElse test consequent alternate))) := by
  have hfull {condition body rest : Bytes} (hcondition : Paired condition) (hbody : Paired body)
      (hrest : Paired rest) : Paired (bytes "if (" ++ condition ++ bytes ") " ++ body ++ rest) := by
    simp only [Paired, unpaired_append, hcondition, hbody, hrest]
    rfl
  rw [ifText]
  refine (condition_gives h htest).bind fun condition hcondition ↦ ?_
  refine (braced_gives h hconsequent).bind fun body hbody ↦ ?_
  cases alternate with
  | none => exact .bind (.pure (P := Paired) rfl) fun _ hrest ↦ .pure (hfull hcondition hbody hrest)
  | some view =>
    refine (halternate view rfl).bind fun text htext ↦ .bind (.pure (P := Paired) ?_)
      fun _ hrest ↦ .pure (hfull hcondition hbody hrest)
    simp only [Paired, unpaired_append, htext]
    rfl

theorem ifText_gives {view : View} (hview : view.WellSpelled) : Gives Paired (e.ifText view) := by
  -- A chain goes on in the branch of the condition before it.
  induction view using ifText.induct with
  | case1 line column test consequent alternate ih =>
    have hparts := (View.wellSpelled_iff.mp hview).1.2
    simp only [View.slots, Plain.slots, parts_append, parts_filled, List.forall_mem_append,
      List.forall_mem_singleton, List.forall_mem_cons, Option.mem_toList] at hparts
    obtain ⟨htest, hconsequent, halternate⟩ := hparts
    refine ifElse_gives h htest hconsequent fun part hpart ↦ ?_
    obtain rfl := Option.mem_def.mp hpart
    exact ih (halternate part rfl)
  | case2 view hother =>
    rw [ifText]
    · exact braced_gives h hview
    · exact hother

theorem caseText_gives {c : SwitchCase View} (hparts : ∀ part ∈ parts c.slots, part.WellSpelled) :
    Gives Paired (e.caseText c) := by
  simp only [SwitchCase.slots, parts_append, parts_filled, List.forall_mem_append,
    Option.mem_toList] at hparts
  have hrest {label : Bytes} (hlabel : Paired label) : Gives Paired (do
      let label ← e.line label
      return label ++ (← indented (e.statementLines c.body))) := by
    refine (h.line label).bind fun line hline ↦ ?_
    refine (statementLines_gives h hparts.2).indented.bind fun body hbody ↦ .pure ?_
    simp only [Paired, unpaired_append, hline, hlabel, hbody]
    rfl
  unfold caseText
  cases hsome : c.test with
  | none => exact .bind (.pure (P := Paired) rfl) fun _ hlabel ↦ hrest hlabel
  | some test =>
    refine (h.value (hparts.1 test hsome)).bind fun text htext ↦ .bind (.pure (P := Paired) ?_)
      fun _ hlabel ↦ hrest hlabel
    simp only [Paired, unpaired_append, htext]
    rfl

theorem switchText_gives {discriminant : View} {cases : List (SwitchCase View)}
    (hdiscriminant : discriminant.WellSpelled)
    (hcases : ∀ c ∈ cases, ∀ part ∈ parts c.slots, part.WellSpelled) :
    Gives Paired (e.switchText discriminant cases) := by
  refine (condition_gives h hdiscriminant).bind fun discriminant hdiscriminant ↦ ?_
  refine .bind (.indented (.mapM fun c hc ↦ caseText_gives h (hcases c hc))) fun lines hlines ↦ ?_
  refine h.pad.bind fun margin hmargin ↦ .pure ?_
  simp only [Paired, unpaired_append, hdiscriminant, paired_flatten hlines, hmargin]
  rfl

theorem loopInit_gives {init : Option View} (hinit : ∀ view ∈ init, view.WellSpelled) :
    Gives Paired (e.loopInit init) := by
  unfold loopInit
  split
  · next keyword declarators isDeclare =>
    obtain ⟨htexts, hparts⟩ := (View.wellSpelled_iff.mp (hinit _ rfl)).1
    simp only [View.texts, Plain.texts, List.forall_mem_cons, List.forall_mem_map] at htexts
    simp only [View.slots, Plain.slots, parts_flatMap, List.mem_flatMap, forall_exists_index,
      and_imp] at hparts
    exact variablesText_gives h htexts.1 htexts.2 (fun d hd part ↦ hparts part d hd) isDeclare
  · next inner =>
    have hparts := (View.wellSpelled_iff.mp (hinit _ rfl)).1.2
    exact h.value (hparts inner (by simp [View.slots, Plain.slots]))
  · exact .pure rfl

theorem loopPart_gives {part : Option View} (hpart : ∀ view ∈ part, view.WellSpelled) :
    Gives Paired (e.loopPart part) := by
  cases part with
  | none => exact .pure rfl
  | some part =>
    refine (h.value (hpart part rfl)).bind fun text htext ↦ .pure ?_
    simp only [Paired, unpaired_append, htext]
    rfl

theorem forText_gives {init test update : Option View} {body : View}
    (hinit : ∀ view ∈ init, view.WellSpelled) (htest : ∀ view ∈ test, view.WellSpelled)
    (hupdate : ∀ view ∈ update, view.WellSpelled) (hbody : body.WellSpelled) :
    Gives Paired (e.forText init test update body) := by
  refine (loopInit_gives h hinit).bind fun init hinit ↦ ?_
  refine (loopPart_gives h htest).bind fun test htest ↦ ?_
  refine (loopPart_gives h hupdate).bind fun update hupdate ↦ ?_
  refine (braced_gives h hbody).bind fun body hbody ↦ .pure ?_
  simp only [Paired, unpaired_append, hinit, htest, hupdate, hbody]
  rfl

theorem forInText_gives {left right body : View} (hleft : left.WellSpelled)
    (hright : right.WellSpelled) (hbody : body.WellSpelled) (isOf isAwait : Bool) :
    Gives Paired (e.forInText left right body isOf isAwait) := by
  have hleft : ∀ view ∈ some left, view.WellSpelled := by rintro view ⟨⟩; exact hleft
  have hword : Paired (if isOf then bytes " of " else bytes " in ") := by cases isOf <;> rfl
  refine (loopInit_gives h hleft).bind fun left hleft ↦ (h.value hright).bind fun right hright ↦ ?_
  refine (braced_gives h hbody).bind fun body hbody ↦ .pure ?_
  simp only [Paired, unpaired_append, paired_when _ "await " rfl, hleft, hword, hright, hbody]
  rfl

theorem finalizer_gives {finalizer : Option View}
    (hfinalizer : ∀ part ∈ finalizer, part.WellSpelled) {front : Bytes} (hfront : Paired front) :
    Gives Paired (do
      let finalizer ← match finalizer with
        | none => pure []
        | some finalizer => pure (bytes " finally " ++ (← e.braced finalizer))
      return front ++ finalizer) := by
  have hfull {text : Bytes} (htext : Paired text) : Paired (front ++ text) := by
    simp only [Paired, unpaired_append, hfront, htext]
    rfl
  cases finalizer with
  | none => exact .bind (.pure (P := Paired) rfl) fun _ htext ↦ .pure (hfull htext)
  | some finalizer =>
    refine (braced_gives h (hfinalizer finalizer rfl)).bind fun text htext ↦
      .bind (.pure (P := Paired) ?_) fun _ htext ↦ .pure (hfull htext)
    simp only [Paired, unpaired_append, htext]
    rfl

theorem tryText_gives {t : TryShape View} (htype : Paired t.paramType)
    (hparts : ∀ part ∈ parts t.slots, part.WellSpelled) : Gives Paired (e.tryText t) := by
  simp only [TryShape.slots, parts_append, parts_filled, List.cons_append, List.forall_mem_cons,
    List.forall_mem_append, Option.mem_toList] at hparts
  obtain ⟨hblock, ⟨hhandler, hfinalizer⟩, hparam⟩ := hparts
  refine (braced_gives h hblock).bind fun block hblock ↦ ?_
  have hfront {handler : Bytes} (hhandler : Paired handler) :
      Paired (bytes "try " ++ block ++ handler) := by
    simp only [Paired, unpaired_append, hblock, hhandler]
    rfl
  cases hhandled : t.handler with
  | none =>
    exact .bind (.pure (P := Paired) rfl) fun _ htext ↦ finalizer_gives h hfinalizer (hfront htext)
  | some handler =>
    have hbraced := braced_gives h (hhandler handler hhandled)
    have hcatch {param text : Bytes} (hparam : Paired param) (htext : Paired text) :
        Paired (bytes " catch " ++ param ++ text) := by
      simp only [Paired, unpaired_append, hparam, htext]
      rfl
    cases hcaught : t.param with
    | none =>
      refine .bind (.pure (P := Paired) rfl) fun param hparam ↦ hbraced.bind fun text htext ↦ ?_
      exact .bind (.pure (P := Paired) (hcatch hparam htext)) fun _ htext ↦
        finalizer_gives h hfinalizer (hfront htext)
    | some param =>
      refine (h.value (hparam param hcaught)).bind fun param hparam ↦
        .bind (.pure (P := Paired) ?_) fun param hparam ↦ hbraced.bind fun text htext ↦ ?_
      · simp only [Paired, unpaired_append, hparam, paired_annotation htype]
        rfl
      · exact .bind (.pure (P := Paired) (hcatch hparam htext)) fun _ htext ↦
          finalizer_gives h hfinalizer (hfront htext)

omit h in
theorem paired_guardStatement {text : Bytes} (htext : Paired text) :
    Paired (guardStatement text) := by
  have hcases : guardStatement text = bytes "(" ++ text ++ bytes ");" ∨
      guardStatement text = text ++ bytes ";" := ite_eq_or_eq _ _ _
  rcases hcases with hguard | hguard <;> rw [hguard]
  all_goals
    simp only [Paired, unpaired_append, htext]
    rfl

/-! ## Exports -/

omit h in
theorem paired_valueNames {view : View} (hview : view.WellSpelled) :
    ∀ name ∈ valueNames view, Paired name := by
  obtain ⟨htexts, hparts⟩ := (View.wellSpelled_iff.mp hview).1
  have hunless {c : Prop} [Decidable c] {names : List Bytes}
      (hnames : ∀ name ∈ names, Paired name) :
      ∀ name ∈ (if c then [] else names), Paired name := by
    split
    · exact List.forall_mem_nil _
    · exact hnames
  have hone {name : Bytes} (hname : Paired name) : ∀ other ∈ [name], Paired other :=
    List.forall_mem_singleton.mpr hname
  unfold valueNames
  split
  · next declarators isDeclare =>
    refine hunless fun name hname ↦ ?_
    obtain ⟨d, hd, hname⟩ := List.mem_flatMap.mp hname
    refine View.paired_boundNames (hparts d.target ?_) name hname
    simp only [View.slots, Plain.slots, Declarator.slots, parts_flatMap, parts_filled,
      List.mem_flatMap]
    exact ⟨d, hd, List.mem_cons_self⟩
  · exact hunless (hone (htexts _ List.mem_cons_self))
  · exact hunless (hone (htexts _ List.mem_cons_self))
  · exact hone (htexts _ List.mem_cons_self)
  · exact hunless (hone (htexts _ List.mem_cons_self))
  · split
    · exact hone (htexts _ (List.mem_cons_of_mem _ List.mem_cons_self))
    · exact List.forall_mem_nil _
  · exact List.forall_mem_nil _

omit h in
theorem paired_exportTarget {name : Bytes} (hname : Paired name) : Paired (exportTarget name) := by
  unfold exportTarget
  split
  all_goals
    simp only [Paired, unpaired_append, hname]
    rfl

theorem exportDeclaration_gives {declaration : View} (hdeclaration : declaration.WellSpelled) :
    Gives Paired (e.exportDeclaration declaration) := by
  have hnames : ∀ name ∈ (if e.options.format == .commonjs then valueNames declaration else []),
      Paired name := by
    split
    · exact paired_valueNames hdeclaration
    · exact List.forall_mem_nil _
  refine (h.statement hdeclaration).bind fun text htext ↦ .ite (fun _ ↦ .pure ?_) fun _ ↦ ?_
  · simp only [Paired, unpaired_append, htext]
    rfl
  · refine h.pad.bind fun margin hmargin ↦ .pure ?_
    rw [Paired, unpaired_append, htext, one_mul]
    refine paired_flatten (List.forall_mem_map.mpr fun name hname ↦ ?_)
    simp only [Paired, unpaired_append, hmargin, paired_exportTarget (hnames name hname),
      hnames name hname]
    rfl

theorem exportAssignments_gives {specifiers : List ExportSpecifier} {source : Bytes}
    (hlocals : ∀ s ∈ specifiers, Paired s.localName)
    (hexported : ∀ s ∈ specifiers, Paired s.exported) (hsource : Paired source) :
    Gives Paired (e.exportAssignments specifiers source) := by
  have horigin : Paired (if source.isEmpty then [] else
      bytes "require(" ++ Quoted.quoted source ++ bytes ").") := by
    split
    · rfl
    · simp only [Paired, unpaired_append, Quoted.unpaired_quoted, hsource]
      rfl
  refine .ite (fun _ ↦ .pure rfl) fun _ ↦ h.pad.bind fun margin hmargin ↦ .pure ?_
  refine paired_join ?_ (List.forall_mem_map.mpr fun s hs ↦ ?_)
  · rw [Paired, unpaired_append, hmargin]
    rfl
  · have hs := List.mem_of_mem_filter hs
    simp only [Paired, unpaired_append, paired_exportTarget (hexported s hs), horigin,
      hlocals s hs]
    rfl

omit h in
theorem paired_exportList {specifiers : List ExportSpecifier} {source : Bytes}
    (hlocals : ∀ s ∈ specifiers, Paired s.localName)
    (hexported : ∀ s ∈ specifiers, Paired s.exported) (hsource : Paired source) (typeOnly : Bool) :
    Paired (exportList specifiers source typeOnly) := by
  have hentries : Paired (bracedEntries (specifiers.map fun s ↦ when s.isType "type " ++
      s.localName ++ if s.exported == s.localName then [] else bytes " as " ++ s.exported)) := by
    refine paired_bracedEntries (List.forall_mem_map.mpr fun s hs ↦ ?_)
    rw [Paired, unpaired_append, unpaired_append, paired_when _ "type " rfl, hlocals s hs]
    split
    · rfl
    · simp only [unpaired_append, hexported s hs]
      rfl
  have horigin : Paired (if source.isEmpty then [] else
      bytes " from " ++ Quoted.quoted source) := by
    split
    · rfl
    · simp only [Paired, unpaired_append, Quoted.unpaired_quoted, hsource]
      rfl
  simp only [exportList, Paired, unpaired_append, paired_when _ "type " rfl, hentries, horigin]
  rfl

omit h in
theorem paired_declaredName {view : View} (hview : view.WellSpelled) :
    Paired (declaredName view) := by
  have htexts := (View.wellSpelled_iff.mp hview).1.1
  unfold declaredName
  split
  · exact htexts _ List.mem_cons_self
  · exact htexts _ List.mem_cons_self
  · exact htexts _ List.mem_cons_self
  · rfl

theorem exportDefault_gives {value : DefaultExport View}
    (hparts : ∀ part ∈ parts value.slots, part.WellSpelled) :
    Gives Paired (e.exportDefault value) := by
  have htarget (format : ModuleFormat) : Paired (defaultTarget format) := by cases format <;> rfl
  cases value with
  | expression value =>
    simp only [DefaultExport.slots, parts_filled, List.forall_mem_singleton] at hparts
    refine (h.value hparts).bind fun text htext ↦ .pure ?_
    simp only [Paired, unpaired_append, htarget _, htext]
    rfl
  | declaration declaration =>
    simp only [DefaultExport.slots, parts_filled, List.forall_mem_singleton] at hparts
    refine (h.statement hparts).bind fun text htext ↦ .ite (fun _ ↦ .pure ?_) fun _ ↦ ?_
    · simp only [Paired, unpaired_append, htext]
      rfl
    · refine .ite (fun _ ↦ .pure ?_) fun _ ↦ h.pad.bind fun margin hmargin ↦ .pure ?_
      · simp only [Paired, unpaired_append, htarget _, htext]
        rfl
      · simp only [Paired, unpaired_append, htarget _, htext, hmargin, paired_declaredName hparts]
        rfl

omit h in
theorem paired_exportAll {source name : Bytes} (hsource : Paired source) (hname : Paired name)
    (typeOnly : Bool) : Paired (e.exportAll source name typeOnly) := by
  unfold exportAll
  split
  · dsimp only
    split
    · simp only [Paired, unpaired_append, Quoted.unpaired_quoted, hsource]
      rfl
    · simp only [Paired, unpaired_append, Quoted.unpaired_quoted, hsource,
        paired_exportTarget hname]
      rfl
  · have hname : Paired (if name.isEmpty then [] else bytes " as " ++ name) := by
      split
      · rfl
      · simp only [Paired, unpaired_append, hname]
        rfl
    simp only [Paired, unpaired_append, Quoted.unpaired_quoted, paired_when _ "type " rfl, hname,
      hsource]
    rfl

/-! ## All statements -/

theorem plainStatement_gives {line column : Nat} {form : Plain View}
    (hview : (View.plain line column form).WellSpelled) :
    Gives Paired (e.plainStatement (.plain line column form) form) := by
  obtain ⟨⟨htexts, hparts⟩, -⟩ := View.wellSpelled_iff.mp hview
  simp only [View.texts, View.slots] at htexts hparts
  cases form with
  | imports clause => exact .pure (htexts _ List.mem_cons_self)
  | exportNamed declaration specifiers source typeOnly =>
    cases declaration with
    | some declaration =>
      exact exportDeclaration_gives h (hparts declaration (by simp [Plain.slots]))
    | none =>
      simp only [Plain.texts, List.cons_append, List.forall_mem_cons, List.forall_mem_append,
        List.forall_mem_map] at htexts
      obtain ⟨hsource, hlocals, hexported⟩ := htexts
      exact .ite (fun _ ↦ exportAssignments_gives h hlocals hexported hsource) fun _ ↦
        .pure (paired_exportList hlocals hexported hsource typeOnly)
  | exportDefault value => exact exportDefault_gives h hparts
  | exportAll source name typeOnly =>
    simp only [Plain.texts, List.forall_mem_cons] at htexts
    exact .pure (paired_exportAll htexts.1 htexts.2.1 typeOnly)
  | functionDeclaration f isDeclare =>
    refine (callableText_gives h ⟨htexts, hparts⟩ isDeclare).bind fun text htext ↦ .pure ?_
    simp only [Paired, unpaired_append, htext.paired, paired_when _ ";" rfl]
    rfl
  | classDeclaration c =>
    exact (classText_gives h ⟨htexts, hparts⟩ false).mono fun _ htext ↦ htext.paired
  | enum name members isConst isDeclare =>
    simp only [Plain.texts, List.forall_mem_cons, List.forall_mem_map] at htexts
    simp only [Plain.slots, parts_flatMap, parts_filled, List.mem_flatMap, Option.mem_toList,
      forall_exists_index, and_imp] at hparts
    exact enumText_gives h htexts.1 htexts.2 (fun m hm part ↦ hparts part m hm) isConst isDeclare
  | module keyword name body isDeclare =>
    simp only [Plain.texts, List.forall_mem_cons] at htexts
    simp only [Plain.slots, parts_filled] at hparts
    exact namespaceText_gives h htexts.1 htexts.2.1 hparts isDeclare
  | interface name typeParameters extended members isDeclare =>
    simp only [Plain.texts, List.cons_append, List.forall_mem_cons,
      List.forall_mem_append] at htexts
    obtain ⟨hname, htypeParameters, hextended, hmembers⟩ := htexts
    exact interfaceText_gives h hname htypeParameters hextended hmembers isDeclare
  | typeAlias name typeParameters type isDeclare =>
    simp only [Plain.texts, List.forall_mem_cons] at htexts
    refine .pure ?_
    simp only [Paired, unpaired_append, paired_when _ "declare " rfl, htexts.1, htexts.2.1,
      htexts.2.2.1]
    rfl
  | variableDeclaration keyword declarators isDeclare =>
    simp only [Plain.texts, List.forall_mem_cons, List.forall_mem_map] at htexts
    simp only [Plain.slots, parts_flatMap, List.mem_flatMap, forall_exists_index,
      and_imp] at hparts
    refine (variablesText_gives h htexts.1 htexts.2 (fun d hd part ↦ hparts part d hd)
      isDeclare).bind fun text htext ↦ .pure ?_
    simp only [Paired, unpaired_append, htext]
    rfl
  | block body => exact braced_gives h hview
  | expressionStatement inner =>
    simp only [Plain.slots, parts_filled, List.forall_mem_singleton] at hparts
    exact (h.value hparts).bind fun text htext ↦ .pure (paired_guardStatement htext)
  | ifElse test consequent alternate => exact ifText_gives h hview
  | switch discriminant cases =>
    simp only [Plain.slots, parts_append, parts_filled, parts_flatMap, List.forall_mem_append,
      List.forall_mem_singleton, List.mem_flatMap, forall_exists_index, and_imp] at hparts
    exact switchText_gives h hparts.1 fun c hc part ↦ hparts.2 part c hc
  | forLoop init test update body =>
    simp only [Plain.slots, parts_append, parts_filled, List.forall_mem_append, Option.mem_toList,
      List.forall_mem_singleton] at hparts
    obtain ⟨⟨hinit, htest, hupdate⟩, hbody⟩ := hparts
    exact forText_gives h hinit htest hupdate hbody
  | forIn left right body isOf isAwait =>
    simp only [Plain.slots, parts_append, parts_filled, List.forall_mem_append,
      List.forall_mem_singleton] at hparts
    exact forInText_gives h hparts.1.1 hparts.1.2 hparts.2 isOf isAwait
  | whileLoop test body =>
    simp only [Plain.slots, parts_append, parts_filled, List.forall_mem_append,
      List.forall_mem_singleton] at hparts
    refine (condition_gives h hparts.1).bind fun test htest ↦ ?_
    refine (braced_gives h hparts.2).bind fun body hbody ↦ .pure ?_
    simp only [Paired, unpaired_append, htest, hbody]
    rfl
  | doWhile body test =>
    simp only [Plain.slots, parts_append, parts_filled, List.forall_mem_append,
      List.forall_mem_singleton] at hparts
    refine (braced_gives h hparts.1).bind fun body hbody ↦ ?_
    refine (condition_gives h hparts.2).bind fun test htest ↦ .pure ?_
    simp only [Paired, unpaired_append, htest, hbody]
    rfl
  | jump isBreak label =>
    simp only [Plain.texts, List.forall_mem_singleton] at htexts
    refine .pure ?_
    cases isBreak <;> cases hempty : label.isEmpty <;>
      simp only [Paired, unpaired_append, htexts, if_true, if_false, Bool.false_eq_true] <;> rfl
  | returnValue argument =>
    cases argument with
    | none => exact .pure rfl
    | some argument =>
      refine (h.value (hparts argument (by simp [Plain.slots]))).bind fun text htext ↦ .pure ?_
      simp only [Paired, unpaired_append, htext]
      rfl
  | throw argument =>
    simp only [Plain.slots, parts_filled, List.forall_mem_singleton] at hparts
    refine (h.value hparts).bind fun text htext ↦ .pure ?_
    simp only [Paired, unpaired_append, htext]
    rfl
  | tryCatch t =>
    simp only [Plain.texts, List.forall_mem_singleton] at htexts
    exact tryText_gives h htexts hparts
  | labeled label body =>
    simp only [Plain.texts, List.forall_mem_singleton] at htexts
    simp only [Plain.slots, parts_filled, List.forall_mem_singleton] at hparts
    refine (h.statement hparts).bind fun text htext ↦ .pure ?_
    simp only [Paired, unpaired_append, htexts, htext]
    rfl
  | empty | debugger => exact .pure rfl
  | _ => exact .fail

theorem statementStep_gives {view : View} (hview : view.WellSpelled) :
    Gives Paired (e.statementStep view) := by
  cases view with
  | plain line column form => exact plainStatement_gives h hview
  | rendered line column form =>
    have hspelled := (View.wellSpelled_iff.mp hview).1
    cases form with
    | component c => exact (componentText_gives h hspelled).mono fun _ htext ↦ htext.paired
    | classValue c => exact (classText_gives h hspelled true).mono fun _ htext ↦ htext.paired
    | _ => exact .fail

theorem expressionStep_gives {view : View} (hview : view.WellSpelled) :
    Gives view.StandsAs (e.expressionStep view) := by
  cases view with
  | plain line column form => exact plainExpression_gives h hview _
  | rendered line column form =>
    obtain ⟨hspelled, hwords⟩ := View.wellSpelled_iff.mp hview
    have hunwrapped {action : Emit Bytes} (haction : Gives Unwrapped action) :
        Gives (View.rendered line column form).StandsAs action :=
      haction.mono fun _ htext ↦ htext.standsAs _
    cases form with
    | component c => exact hunwrapped (componentText_gives h hspelled)
    | classValue c => exact hunwrapped (classText_gives h hspelled true)
    | element element => exact hunwrapped (elementText_gives h hspelled)
    | componentCall name props children =>
      obtain ⟨htexts, hparts⟩ := hspelled
      simp only [View.texts, Rendered.texts, List.forall_mem_cons, List.forall_mem_map] at htexts
      simp only [View.slots, Rendered.slots, ViewAttribute.slots, parts_append, parts_flatMap,
        parts_held, parts_filled, List.forall_mem_append, List.mem_flatMap, Option.mem_toList,
        forall_exists_index, and_imp] at hparts
      exact hunwrapped (callText_gives h hwords htexts.1 htexts.2
        (fun a ha part ↦ hparts.1 part a ha) hparts.2)
    | fragment children =>
      exact hunwrapped (fragmentText_gives h fun child hchild ↦
        hspelled.2 child (by simpa [View.slots, Rendered.slots] using hchild))
    | text value =>
      have hvalue : Paired value := hspelled.1 _ List.mem_cons_self
      refine hunwrapped (.pure (.of_hasWord (.of_isWord (isWord_quoted value)) ?_))
      rwa [Paired, Quoted.unpaired_quoted]
    | child c inner =>
      have hinner : inner.WellSpelled := hspelled.2 _ (by simp [View.slots, Rendered.slots])
      exact (h.expression hinner).mono fun text htext ↦
        ⟨htext.paired, htext.ne_nil, htext.stripParens_eq⟩

end Spelling

/-! ## Entry points -/

/-- What is well spelled is written with paired parentheses, whatever the number of levels. -/
theorem emission_spells {options : ScriptOptions} (hindent : Paired options.indent)
    (levels : Nat) : Spells (emission options levels) := by
  induction levels with
  | zero => exact ⟨hindent, fun _ ↦ .fail, fun _ ↦ .fail⟩
  | succ levels ih =>
    exact ⟨hindent, fun hview ↦ statementStep_gives ih hview,
      fun hview ↦ expressionStep_gives ih hview⟩

end Emission

/-! ## Conditions

The condition of a statement stands in parentheses that the statement has anyway, so a pair around
the whole of it is dropped. If the parentheses in the texts of the program are paired, this happens
exactly to expressions in parentheses. It is decided on the finished text, where parentheses inside
literals count like any other.
-/

open Slot Emission Emit

variable {options : ScriptOptions} {levels level : Nat} {view inner : View} {text : Bytes}
  {s t : EmitState}

/-- An expression in parentheses is written as what is inside, between two parentheses. -/
theorem expression_of_inParens (hview : view.WellSpelled) (hinner : view.inParens? = some inner)
    (hrun : (emission options levels).expression view level s = .ok (text, t)) :
    inner.WellSpelled ∧ ∃ condition, text = bytes "(" ++ condition ++ bytes ")" ∧
      ∃ fewer < levels,
        (emission options fewer).expression inner level s = .ok (condition, t) := by
  induction levels generalizing view with
  | zero => cases hrun
  | succ levels ih =>
    have hparts := (View.wellSpelled_iff.mp hview).1.2
    unfold View.inParens? at hinner
    split at hinner
    · next line column form =>
      obtain rfl := Option.some.inj hinner
      obtain ⟨condition, _, hcondition, hresult⟩ := bind_eq_ok.mp hrun
      obtain ⟨rfl, rfl⟩ := Prod.mk.inj (Except.ok.inj hresult)
      exact ⟨hparts _ (by simp [View.slots, Plain.slots]), condition, rfl, levels,
        Nat.lt_succ_self levels, hcondition⟩
    · next line column c value =>
      obtain ⟨hspelled, condition, htext, fewer, hfewer, hcondition⟩ :=
        ih (hparts value (by simp [View.slots, Rendered.slots])) hinner hrun
      exact ⟨hspelled, condition, htext, fewer, Nat.lt_succ_of_lt hfewer, hcondition⟩
    · cases hinner

/-- A condition is written with paired parentheses, as the expression is written, or as what is
inside if that is an expression in parentheses. -/
theorem condition_of_expression (hindent : Paired options.indent) {test : View}
    (htest : test.WellSpelled)
    (hrun : (emission options levels).expression test level s = .ok (text, t)) :
    ∃ condition, (emission options levels).condition test level s = .ok (condition, t) ∧
      Paired text ∧ Paired condition ∧ (test.inParens? = none → condition = text) ∧
      ∀ inner, test.inParens? = some inner →
        text = bytes "(" ++ condition ++ bytes ")" ∧ ∃ fewer < levels,
          (emission options fewer).expression inner level s = .ok (condition, t) := by
  have hstands : test.StandsAs text := (emission_spells hindent levels).expression htest hrun
  have hcondition : (emission options levels).condition test level s =
      .ok (Quoted.stripParens text, t) := by
    rw [condition, Emit.bind_of_ok hrun]
    rfl
  refine ⟨_, hcondition, hstands.paired, Quoted.paired_stripParens hstands.paired,
    hstands.stripParens_eq, fun inner hinner ↦ ?_⟩
  obtain ⟨hspelled, condition, rfl, fewer, hfewer, hrun⟩ :=
    expression_of_inParens htest hinner hrun
  have hpaired : Paired condition := ((emission_spells hindent fewer).value hspelled) hrun
  rw [Quoted.stripParens_parens hpaired]
  exact ⟨rfl, fewer, hfewer, hrun⟩

/-- A sum in parentheses loses them, although its two terms are in parentheses as well. -/
theorem condition_of_expression_sum :
    let name (text : Bytes) : View := .plain 1 1 (.identifier text)
    let inParens (view : View) : View := .plain 1 1 (.paren view)
    let sum : View := .plain 1 1
      (.binary (bytes "+") (inParens (name (bytes "a"))) (inParens (name (bytes "b"))))
    ∃ condition, (emission { runtimeModule := [] } 9).condition (inParens sum) 0 {} =
        .ok (condition, {}) ∧ Paired condition ∧ bytes "((a) + (b))" =
          bytes "(" ++ condition ++ bytes ")" := by
  intro name inParens sum
  have hname {text : Bytes} (hword : IsWord text) (hpaired : Paired text) :
      (name text).WellSpelled :=
    View.wellSpelled_iff.mpr
      ⟨⟨List.forall_mem_singleton.mpr hpaired, List.forall_mem_nil _⟩, hword⟩
  have hparens {view : View} (hview : view.WellSpelled) : (inParens view).WellSpelled :=
    View.wellSpelled_iff.mpr
      ⟨⟨List.forall_mem_nil _, List.forall_mem_singleton.mpr hview⟩, trivial⟩
  have hsum : sum.WellSpelled := by
    refine View.wellSpelled_iff.mpr ⟨⟨List.forall_mem_singleton.mpr rfl, ?_⟩, trivial⟩
    simp only [sum, View.slots, Plain.slots, parts_filled, List.forall_mem_cons]
    exact ⟨hparens (hname (by decide) rfl), hparens (hname (by decide) rfl), List.forall_mem_nil _⟩
  have hrun : (emission { runtimeModule := [] } 9).expression (inParens sum) 0 {} =
      .ok (bytes "((a) + (b))", {}) := by decide +kernel
  obtain ⟨condition, hcondition, -, hpaired, -, hinner⟩ :=
    condition_of_expression rfl (hparens hsum) hrun
  exact ⟨condition, hcondition, hpaired, (hinner sum rfl).1⟩

end SignalView
