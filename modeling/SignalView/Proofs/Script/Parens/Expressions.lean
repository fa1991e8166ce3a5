import SignalView.Proofs.Script.Parens.Rules

/-!
# Parentheses of plain expressions

A construct whose parts are written with paired parentheses is written with paired parentheses. It
is not in a pair of its own, as it has a word that no parentheses are around, unless it is an
expression in parentheses itself.
-/

namespace SignalView

open Slot

namespace Emission

open Emit

/-! ## Small parts -/

theorem paired_when (present : Bool) (text : String) (h : Paired (bytes text)) :
    Paired (when present text) := by
  unfold when
  split
  · exact h
  · rfl

theorem paired_list {texts : List Bytes} (h : ∀ text ∈ texts, Paired text) :
    Paired (Bytes.join (bytes ", ") texts) :=
  paired_join rfl h

theorem paired_annotation {type : Bytes} (h : Paired type) : Paired <| annotation type := by
  unfold annotation
  split
  · rfl
  · simp only [Paired, unpaired_append, h]
    rfl

theorem paired_typeArguments {args : List Bytes} (h : ∀ text ∈ args, Paired text) :
    Paired (typeArguments args) := by
  have hargs : Paired (Bytes.join (bytes ", ") args) := paired_list h
  unfold typeArguments
  split
  · rfl
  · simp only [Paired, unpaired_append, hargs]
    rfl

theorem paired_typeList {word : String} (hword : Paired (bytes word)) {types : List Bytes}
    (h : ∀ text ∈ types, Paired text) : Paired (typeList word types) := by
  have htypes : Paired (Bytes.join (bytes ", ") types) := paired_list h
  unfold typeList
  split
  · rfl
  · simp only [Paired, unpaired_append, hword, htypes]
    rfl

theorem paired_words {modifiers : List Bytes} (h : ∀ text ∈ modifiers, Paired text) :
    Paired (words modifiers) := by
  refine paired_flatten (List.forall_mem_map.mpr fun text htext ↦ ?_)
  simp only [Paired, unpaired_append, h text htext]
  rfl

theorem paired_bracedEntries {entries : List Bytes} (h : ∀ text ∈ entries, Paired text) :
    Paired (bracedEntries entries) := by
  have hentries : Paired (Bytes.join (bytes ", ") entries) := paired_list h
  unfold bracedEntries
  split
  · rfl
  · simp only [Paired, unpaired_append, hentries]
    rfl

theorem paired_name {view : View} (hview : view.WellSpelled) {name : Bytes}
    (hname : view.name? = some name) : Paired name := by
  unfold View.name? at hname
  split at hname
  · obtain rfl := Option.some.inj hname
    exact (View.wellSpelled_iff.mp hview).1.1 _ List.mem_cons_self
  · cases hname

section Spelling

variable {e : Emission} (h : Spells e)
include h

/-! ## Lists and blocks -/

theorem optionalExpression_gives {view : Option View}
    (hview : ∀ part ∈ view, part.WellSpelled) : Gives Paired (e.optionalExpression view) := by
  cases view with
  | none => exact .pure rfl
  | some view => exact h.value (hview view rfl)

theorem expressionList_gives {views : List View} (hviews : ∀ view ∈ views, view.WellSpelled) :
    Gives Paired (e.expressionList views) :=
  (Gives.mapM fun view hview ↦ h.value (hviews view hview)).bind fun _ htexts ↦
    .pure (paired_list htexts)

theorem statementLines_gives {views : List View} (hviews : ∀ view ∈ views, view.WellSpelled) :
    Gives Paired (e.statementLines views) := by
  refine Gives.bind (.mapM fun view hview ↦ ?_) fun lines hlines ↦ .pure (paired_flatten hlines)
  exact (h.statement (hviews view hview)).bind fun text htext ↦
    (h.line text).mono fun _ hline ↦ hline.trans htext

/-- Lines between braces that end on a line of their own. -/
theorem inBraces_gives {lines : Emit Bytes} (hlines : Gives Paired lines) {head : Bytes}
    (hhead : Paired head) : Gives Paired (do
      let lines ← indented lines
      return head ++ lines ++ (← e.pad) ++ bytes "\x7d") :=
  hlines.indented.bind fun lines hlines ↦ h.pad.bind fun margin hmargin ↦ .pure (by
    simp only [Paired, unpaired_append, hhead, hlines, hmargin]
    rfl)

omit h in
theorem blockStatements_wellSpelled {body : View} (hbody : body.WellSpelled) :
    ∀ view ∈ blockStatements body, view.WellSpelled := by
  unfold blockStatements
  split
  · simpa [View.slots, Plain.slots] using (View.wellSpelled_iff.mp hbody).1.2
  · simpa using hbody

theorem braced_gives {body : View} (hbody : body.WellSpelled) : Gives Paired (e.braced body) :=
  inBraces_gives h (statementLines_gives h (blockStatements_wellSpelled hbody)) rfl

theorem arrowBody_gives {body : View} (hbody : body.WellSpelled) :
    Gives Paired (e.arrowBody body) := by
  unfold arrowBody
  split
  · exact braced_gives h hbody
  · refine (h.value hbody).bind fun text htext ↦ .pure ?_
    split
    · simp only [Paired, unpaired_append, htext]
      rfl
    · exact htext

theorem decorators_gives {views : List View} (hviews : ∀ view ∈ views, view.WellSpelled)
    {separator : Bytes} (hseparator : Paired separator) :
    Gives Paired (e.decorators separator views) := by
  refine Gives.bind (.mapM fun view hview ↦ ?_) fun texts htexts ↦ .pure (paired_flatten htexts)
  refine (h.value (hviews view hview)).bind fun text htext ↦ .pure ?_
  simp only [Paired, unpaired_append, htext, hseparator]
  rfl

theorem initial_gives {value : Option View} (hvalue : ∀ part ∈ value, part.WellSpelled) :
    Gives Paired (e.initial value) := by
  cases value with
  | none => exact .pure rfl
  | some value =>
    refine (h.value (hvalue value rfl)).bind fun text htext ↦ .pure ?_
    simp only [Paired, unpaired_append, htext]
    rfl

/-! ## Functions -/

theorem param_gives {p : Param View} (hp : AreSpelled p.texts p.slots) :
    Gives Paired (e.param p) := by
  obtain ⟨⟨htype, hmodifiers⟩, hdecorators, hpattern, hinitial⟩ := by
    simpa [AreSpelled, Param.texts, Param.slots, or_imp, forall_and] using hp
  refine (decorators_gives h hdecorators rfl).bind fun decorators hdecorators ↦ ?_
  refine (optionalExpression_gives h hpattern).bind fun pattern hpattern ↦ ?_
  refine (initial_gives h hinitial).bind fun initial hinitial ↦ .pure ?_
  simp only [Paired, unpaired_append, hdecorators, paired_words hmodifiers,
    paired_when _ "..." rfl, hpattern, paired_when _ "?" rfl, paired_annotation htype, hinitial]
  rfl

theorem signature_gives {typeParameters returnType : Bytes} {params : List (Param View)}
    (htypeParameters : Paired typeParameters) (hreturnType : Paired returnType)
    (hparams : ∀ p ∈ params, AreSpelled p.texts p.slots) :
    Gives Paired (e.signature typeParameters params returnType) := by
  refine (Gives.mapM fun p hp ↦ param_gives h (hparams p hp)).bind fun params hparams ↦ .pure ?_
  simp only [Paired, unpaired_append, htypeParameters, paired_list hparams,
    paired_annotation hreturnType]
  rfl

theorem bodyText_gives {missing : String} (hmissing : Paired (bytes missing)) {body : Option View}
    (hbody : ∀ part ∈ body, part.WellSpelled) : Gives Paired (e.bodyText missing body) := by
  cases body with
  | none => exact .pure hmissing
  | some body =>
    refine (braced_gives h (hbody body rfl)).bind fun text htext ↦ .pure ?_
    simp only [Paired, unpaired_append, htext]
    rfl

omit h in
/-- What the function of a method or of a declaration is written with and made of. -/
theorem callable_spelled {f : Callable View} (hf : AreSpelled f.texts f.slots) :
    (Paired f.name ∧ Paired f.typeParameters ∧ Paired f.returnType) ∧
      (∀ p ∈ f.params, AreSpelled p.texts p.slots) ∧ ∀ part ∈ f.body, part.WellSpelled := by
  obtain ⟨htexts, hparts⟩ := hf
  simp only [Callable.texts, List.forall_mem_cons] at htexts
  simp only [Callable.slots, parts_append, List.forall_mem_append] at hparts
  exact ⟨⟨htexts.1, htexts.2.1, htexts.2.2.1⟩, fun p ↦ .of_mem htexts.2.2.2 hparts.1,
    by simpa using hparts.2⟩

theorem callableText_gives {f : Callable View} (hf : AreSpelled f.texts f.slots)
    (isDeclare : Bool) : Gives Unwrapped (e.callableText f isDeclare) := by
  obtain ⟨⟨hname, htypeParameters, hreturnType⟩, hparams, hbody⟩ := callable_spelled hf
  have hname : Paired (if f.name.isEmpty then when (!f.isGenerator) " "
      else bytes " " ++ f.name) := by
    split
    · exact paired_when _ " " rfl
    · simp only [Paired, unpaired_append, hname]
      rfl
  have hword : IsWord (when isDeclare "declare " ++ when f.isAsync "async " ++
      bytes "function") := by
    cases isDeclare <;> cases f.isAsync <;> decide
  refine (signature_gives h htypeParameters hreturnType hparams).bind fun signature hsignature ↦ ?_
  refine (bodyText_gives h rfl hbody).bind fun body hbody ↦ .pure ?_
  refine .of_hasWord (.of_isWord (hword.append _ |>.append _ |>.append _ |>.append _)) ?_
  simp only [Paired, unpaired_append, paired_when _ "declare " rfl, paired_when _ "async " rfl,
    paired_when _ "*" rfl, hname, hsignature, hbody]
  rfl

theorem arrowText_gives {f : Arrow View} (hf : AreSpelled f.texts f.slots) :
    Gives Unwrapped (e.arrowText f) := by
  obtain ⟨htexts, hparts⟩ := hf
  simp only [Arrow.texts, List.forall_mem_cons] at htexts
  simp only [Arrow.slots, parts_append, List.forall_mem_append] at hparts
  obtain ⟨hparams, hbody⟩ := hparts
  refine (signature_gives h htexts.1 htexts.2.1 fun p ↦ .of_mem htexts.2.2 hparams).bind
    fun signature hsignature ↦ ?_
  have hfront : Paired (when f.isAsync "async " ++ signature) := by
    simp only [Paired, unpaired_append, paired_when _ "async " rfl, hsignature]
    rfl
  have hfull {body : Bytes} (hbody : Paired body) :
      Unwrapped (when f.isAsync "async " ++ signature ++ bytes " => " ++ body) := by
    refine .of_hasWord ((HasWord.behind hfront (by decide)).append body) ?_
    simp only [Paired, unpaired_append, paired_when _ "async " rfl, hsignature, hbody]
    rfl
  cases hnode : f.body with
  | block body =>
    simp only [hnode, ArrowBody.slots, parts_filled, List.forall_mem_singleton] at hbody
    exact (braced_gives h hbody).bind fun body hbody ↦ .pure (hfull hbody)
  | expression value =>
    simp only [hnode, ArrowBody.slots, parts_filled, List.forall_mem_singleton] at hbody
    exact (arrowBody_gives h hbody).bind fun body hbody ↦ .pure (hfull hbody)

/-! ## Objects -/

theorem keyText_gives {key : Option View} (hkey : ∀ part ∈ key, part.WellSpelled)
    (computed : Bool) : Gives Paired (e.keyText computed key) := by
  refine .ite (fun _ ↦ ?_) fun _ ↦ ?_
  · refine (optionalExpression_gives h hkey).bind fun text htext ↦ .pure ?_
    simp only [Paired, unpaired_append, htext]
    rfl
  · split
    · next name hname =>
      obtain ⟨view, hview, hname⟩ := Option.bind_eq_some_iff.mp hname
      exact .pure (paired_name (hkey view hview) hname)
    · exact optionalExpression_gives h hkey

omit h in
theorem paired_methodMarks (f : Option (Callable View)) : Paired (methodMarks f) := by
  simp only [methodMarks, Paired, unpaired_append, paired_when _ "async " rfl,
    paired_when _ "*" rfl]
  rfl

omit h in
theorem heldFunction_spelled {value : Option View} {f : Callable View}
    (hvalue : ∀ part ∈ value, part.WellSpelled) (hf : heldFunction? value = some f) :
    AreSpelled f.texts f.slots := by
  unfold heldFunction? at hf
  split at hf
  · obtain rfl := Option.some.inj hf
    exact (View.wellSpelled_iff.mp (hvalue _ rfl)).1
  · cases hf

theorem shorthandText_gives {key : Bytes} (hkey : Paired key) {value : Option View}
    (hvalue : ∀ part ∈ value, part.WellSpelled) : Gives Paired (e.shorthandText key value) := by
  cases value with
  | none => exact .pure hkey
  | some value =>
    have hspelled : value.WellSpelled := hvalue value rfl
    refine .ite (fun _ ↦ .pure hkey) fun _ ↦ ?_
    split
    · next initial hdefault =>
      have hinitial : initial.WellSpelled := by
        unfold defaultOf? at hdefault
        split at hdefault
        · split at hdefault
          · obtain rfl := Option.some.inj hdefault
            have hparts := (View.wellSpelled_iff.mp hspelled).1.2
            exact hparts _ (by simp [View.slots, Plain.slots])
          · cases hdefault
        · cases hdefault
      refine (h.value hinitial).bind fun text htext ↦ .pure ?_
      simp only [Paired, unpaired_append, hkey, htext]
      rfl
    · refine (h.value hspelled).bind fun text htext ↦ .pure ?_
      simp only [Paired, unpaired_append, hkey, htext]
      rfl

theorem methodText_gives {p : Property View} (hkey : ∀ part ∈ p.key, part.WellSpelled)
    (hvalue : ∀ part ∈ p.value, part.WellSpelled) {lead : String} (hlead : Paired (bytes lead)) :
    Gives Paired (e.methodText lead p) := by
  refine (keyText_gives h hkey p.computed).bind fun key hkey ↦ ?_
  split
  · refine .pure ?_
    simp only [Paired, unpaired_append, hlead, paired_methodMarks, hkey]
    rfl
  · next f hf =>
    obtain ⟨⟨-, htypeParameters, hreturnType⟩, hparams, hbody⟩ :=
      callable_spelled (heldFunction_spelled hvalue hf)
    refine (signature_gives h htypeParameters hreturnType hparams).bind
      fun signature hsignature ↦ ?_
    refine (bodyText_gives h rfl hbody).bind fun body hbody ↦ .pure ?_
    simp only [Paired, unpaired_append, hlead, paired_methodMarks, hkey, hsignature, hbody]
    rfl

theorem propertyText_gives {p : Property View} (hparts : ∀ part ∈ parts p.slots, part.WellSpelled) :
    Gives Paired (e.propertyText p) := by
  simp only [Property.slots, parts_append, parts_held, List.forall_mem_append,
    Option.mem_toList] at hparts
  obtain ⟨hkey, hvalue⟩ := hparts
  unfold propertyText
  cases p.kind with
  | init =>
    refine (keyText_gives h hkey p.computed).bind fun key hkey ↦ ?_
    refine (optionalExpression_gives h hvalue).bind fun text htext ↦ .pure ?_
    simp only [Paired, unpaired_append, hkey, htext]
    rfl
  | shorthand =>
    exact (keyText_gives h hkey p.computed).bind fun key hkey ↦ shorthandText_gives h hkey hvalue
  | method | getter | setter => exact methodText_gives h hkey hvalue rfl
  | spread =>
    refine (optionalExpression_gives h hvalue).bind fun text htext ↦ .pure ?_
    simp only [Paired, unpaired_append, htext]
    rfl

/-! ## Classes -/

theorem fieldText_gives {m : ClassMember View} (htype : Paired m.type)
    (hkey : ∀ part ∈ m.key, part.WellSpelled) (hvalue : ∀ part ∈ m.value, part.WellSpelled) :
    Gives Paired (e.fieldText m) := by
  refine (keyText_gives h hkey m.computed).bind fun key hkey ↦ ?_
  refine (initial_gives h hvalue).bind fun initial hinitial ↦ .pure ?_
  simp only [Paired, unpaired_append, hkey, paired_when _ "?" rfl, paired_when _ "!" rfl,
    paired_annotation htype, hinitial]
  rfl

theorem memberFunctionText_gives {m : ClassMember View} (hkey : ∀ part ∈ m.key, part.WellSpelled)
    (hvalue : ∀ part ∈ m.value, part.WellSpelled) {lead : String} (hlead : Paired (bytes lead)) :
    Gives Paired (e.memberFunctionText lead m) := by
  refine .ite (fun _ ↦ (keyText_gives h hkey m.computed).bind fun key hkey ↦ ?_)
    fun _ ↦ .bind (.pure (P := Paired) rfl) fun key hkey ↦ ?_
  all_goals
    have hhead : Paired (bytes lead ++ methodMarks (heldFunction? m.value) ++ key ++
        when m.optional "?") := by
      simp only [Paired, unpaired_append, hlead, paired_methodMarks, hkey, paired_when _ "?" rfl]
      rfl
    split
    · refine .pure ?_
      rw [Paired, unpaired_append, hhead]
      rfl
    · next f hf =>
      obtain ⟨⟨-, htypeParameters, hreturnType⟩, hparams, hbody⟩ :=
        callable_spelled (heldFunction_spelled hvalue hf)
      refine (signature_gives h htypeParameters hreturnType hparams).bind
        fun signature hsignature ↦ ?_
      refine (bodyText_gives h rfl hbody).bind fun body hbody ↦ .pure ?_
      rw [Paired, unpaired_append, unpaired_append, hhead, hsignature, hbody]
      rfl

theorem memberText_gives {m : ClassMember View} (hm : AreSpelled m.texts m.slots) :
    Gives Paired (e.memberText m) := by
  obtain ⟨htexts, hparts⟩ := hm
  simp only [ClassMember.texts, List.forall_mem_cons] at htexts
  simp only [ClassMember.slots, parts_append, parts_held, parts_filled, List.forall_mem_append,
    Option.mem_toList] at hparts
  obtain ⟨htype, hmodifiers⟩ := htexts
  obtain ⟨⟨⟨hdecorators, hkey⟩, hvalue⟩, hblock⟩ := hparts
  refine (decorators_gives h hdecorators rfl).bind fun decorators hdecorators ↦ ?_
  have hlead {text : Bytes} (htext : Paired text) :
      Paired (decorators ++ words m.modifiers ++ text) := by
    simp only [Paired, unpaired_append, hdecorators, paired_words hmodifiers, htext]
    rfl
  cases m.kind with
  | staticBlock =>
    have hstatic {block : Bytes} (hblock : Paired block) :
        Paired (decorators ++ words m.modifiers ++ bytes "static " ++ block) := by
      rw [List.append_assoc]
      refine hlead ?_
      simp only [Paired, unpaired_append, hblock]
      rfl
    cases hsome : m.block with
    | none => exact .pure (hstatic rfl)
    | some block =>
      exact (braced_gives h (hblock block hsome)).bind fun _ htext ↦ .pure (hstatic htext)
  | indexSignature =>
    refine .pure ?_
    rw [List.append_assoc]
    refine hlead ?_
    simp only [Paired, unpaired_append, htype]
    rfl
  | property => exact (fieldText_gives h htype hkey hvalue).bind fun _ htext ↦ .pure (hlead htext)
  | getter | setter | constructor | method =>
    exact (memberFunctionText_gives h hkey hvalue rfl).bind fun _ htext ↦ .pure (hlead htext)

theorem classText_gives {c : ClassShape View} (hc : AreSpelled c.texts c.slots) (isValue : Bool) :
    Gives Unwrapped (e.classText isValue c) := by
  obtain ⟨htexts, hparts⟩ := hc
  simp only [ClassShape.texts, List.cons_append, List.forall_mem_cons,
    List.forall_mem_append] at htexts
  simp only [ClassShape.slots, parts_append, parts_filled, List.forall_mem_append,
    Option.mem_toList] at hparts
  obtain ⟨hname, htypeParameters, ⟨hsuperArguments, himplemented⟩, htexts⟩ := htexts
  obtain ⟨⟨hdecorators, hsuper⟩, hparts⟩ := hparts
  have hname : Paired (if c.name.isEmpty then [] else bytes " " ++ c.name) := by
    split
    · rfl
    · simp only [Paired, unpaired_append, hname]
      rfl
  have hfull {decorators parent rest : Bytes} (hdecorators : Paired decorators)
      (hparent : Paired parent) (hrest : Paired rest) :
      Unwrapped (decorators ++ when c.isDeclare "declare " ++ when c.isAbstract "abstract " ++
        bytes "class" ++ (if c.name.isEmpty then [] else bytes " " ++ c.name) ++
        c.typeParameters ++ parent ++ typeList " implements " c.implemented ++ rest) := by
    have hfront : Paired (decorators ++ when c.isDeclare "declare " ++
        when c.isAbstract "abstract ") := by
      simp only [Paired, unpaired_append, hdecorators, paired_when _ "declare " rfl,
        paired_when _ "abstract " rfl]
      rfl
    refine .of_hasWord ((HasWord.behind hfront (by decide)).append _ |>.append _ |>.append _
      |>.append _ |>.append _) ?_
    simp only [Paired, unpaired_append, hdecorators, paired_when _ "declare " rfl,
      paired_when _ "abstract " rfl, hname, htypeParameters, hparent,
      @paired_typeList " implements " rfl _ himplemented, hrest]
    rfl
  have hmembers : Gives (fun lines ↦ ∀ line ∈ lines, Paired line)
      (indented (c.members.mapM fun m ↦ do e.line (← e.memberText m))) := by
    refine .indented (.mapM fun m hm ↦ ?_)
    exact (memberText_gives h (.of_mem htexts hparts hm)).bind fun text htext ↦
      (h.line text).mono fun _ hline ↦ hline.trans htext
  have hbody {decorators parent : Bytes} (hdecorators : Paired decorators)
      (hparent : Paired parent) : Gives Unwrapped (
        let head := decorators ++ when c.isDeclare "declare " ++ when c.isAbstract "abstract " ++
          bytes "class" ++ (if c.name.isEmpty then [] else bytes " " ++ c.name) ++
          c.typeParameters ++ parent ++ typeList " implements " c.implemented
        if c.members.isEmpty then pure (head ++ bytes " \x7b\x7d")
        else do
          let lines ← indented (c.members.mapM fun m ↦ do e.line (← e.memberText m))
          return head ++ bytes " \x7b\n" ++ lines.flatten ++ (← e.pad) ++ bytes "\x7d") := by
    refine .ite (fun _ ↦ .pure (hfull hdecorators hparent rfl)) fun _ ↦ ?_
    refine hmembers.bind fun lines hlines ↦ h.pad.bind fun margin hmargin ↦ .pure ?_
    have hrest : Paired (bytes " \x7b\n" ++ lines.flatten ++ margin ++ bytes "\x7d") := by
      simp only [Paired, unpaired_append, paired_flatten hlines, hmargin]
      rfl
    simpa only [List.append_assoc] using hfull hdecorators hparent hrest
  refine .ite (fun _ ↦ .bind (.pure (P := Paired) rfl) fun separator hseparator ↦ ?_)
    fun _ ↦ h.pad.bind fun margin hmargin ↦
      .bind (.pure (P := Paired) (by simp only [Paired, unpaired_append, hmargin]; rfl))
        fun separator hseparator ↦ ?_
  all_goals
    refine (decorators_gives h hdecorators hseparator).bind fun decorators hdecorators ↦ ?_
    cases hparent : c.superClass with
    | none => exact .bind (.pure (P := Paired) rfl) fun parent hparent ↦ hbody hdecorators hparent
    | some parent =>
      refine (h.value (hsuper parent hparent)).bind fun text htext ↦
        .bind (.pure (P := Paired) ?_) fun parent hparent ↦ hbody hdecorators hparent
      simp only [Paired, unpaired_append, htext, paired_typeArguments hsuperArguments]
      rfl

/-! ## Templates and operators -/

theorem templateParts_gives {holes : List View} (hholes : ∀ hole ∈ holes, hole.WellSpelled)
    {quasis : List Bytes} (hquasis : ∀ quasi ∈ quasis, Paired quasi) :
    Gives Paired (e.templateParts quasis holes) := by
  induction quasis generalizing holes with
  | nil => exact .pure rfl
  | cons quasi quasis ih =>
    rw [List.forall_mem_cons] at hquasis
    cases holes with
    | nil =>
      refine (ih hholes hquasis.2).bind fun rest hrest ↦ .pure ?_
      simp only [Paired, unpaired_append, hquasis.1, hrest]
      rfl
    | cons hole holes =>
      rw [List.forall_mem_cons] at hholes
      refine (h.value hholes.1).bind fun text htext ↦ ?_
      refine (ih hholes.2 hquasis.2).bind fun rest hrest ↦ .pure ?_
      simp only [Paired, unpaired_append, hquasis.1, htext, hrest]
      rfl

omit h in
theorem unwrapped_leadingText {op operand : Bytes} (hop : Paired op) (hword : IsWord op)
    (hoperand : Paired operand) : Unwrapped (leadingText op operand) := by
  have hcases : leadingText op operand = op ++ bytes " " ++ operand ∨
      leadingText op operand = op ++ operand := ite_eq_or_eq _ _ _
  rcases hcases with htext | htext <;> rw [htext]
  · refine .of_hasWord (.of_isWord (hword.append _ |>.append _)) ?_
    simp only [Paired, unpaired_append, hop, hoperand]
    rfl
  · refine .of_hasWord (.of_isWord (hword.append _)) ?_
    simp only [Paired, unpaired_append, hop, hoperand]
    rfl

theorem memberAccess_gives {key : MemberKey View} (hname : Paired key.name)
    (hkey : ∀ part ∈ parts key.slots, part.WellSpelled) {receiver : Bytes}
    (hreceiver : Paired receiver) (optional : Bool) :
    Gives Unwrapped (e.memberAccess receiver key optional) := by
  cases key with
  | named name =>
    have hdot : Paired (if optional then bytes "?." else bytes ".") ∧
        IsWord (if optional then bytes "?." else bytes ".") := by
      cases optional <;> decide
    refine .pure (.of_hasWord ((HasWord.behind hreceiver hdot.2).append _) ?_)
    simp only [MemberKey.name] at hname
    simp only [Paired, unpaired_append, hreceiver, hdot.1, hname]
    rfl
  | computed index =>
    simp only [MemberKey.slots, parts_filled, List.forall_mem_singleton] at hkey
    have hbracket : Paired (if optional then bytes "?.[" else bytes "[") ∧
        IsWord (if optional then bytes "?.[" else bytes "[") := by
      cases optional <;> decide
    refine (h.value hkey).bind fun text htext ↦ .pure ?_
    refine .of_hasWord ((HasWord.behind hreceiver hbracket.2).append _ |>.append _) ?_
    simp only [Paired, unpaired_append, hreceiver, hbracket.1, htext]
    rfl

theorem infixed_gives {left right : View} (hleft : left.WellSpelled) (hright : right.WellSpelled)
    {op : Bytes} (hop : Paired op) : Gives Unwrapped (e.infixed left op right) := by
  refine (h.value hleft).bind fun left hleft ↦ (h.value hright).bind fun right hright ↦ .pure ?_
  refine .of_hasWord ((HasWord.behind hleft (by decide)).append _ |>.append _ |>.append _) ?_
  simp only [Paired, unpaired_append, hleft, hop, hright]
  rfl

/-! ## All plain expressions -/

/-- Several expressions are not in one pair of parentheses. -/
theorem sequence_gives {parts : List View} (hparts : ∀ part ∈ parts, part.WellSpelled)
    (hlength : 2 ≤ parts.length) : Gives Unwrapped (e.expressionList parts) := by
  obtain ⟨first, second, rest, rfl⟩ : ∃ first second rest, parts = first :: second :: rest := by
    obtain ⟨first, parts, rfl⟩ := List.exists_cons_of_length_pos (Nat.lt_of_succ_lt hlength)
    obtain ⟨second, rest, rfl⟩ := List.exists_cons_of_length_pos (Nat.lt_of_succ_lt_succ hlength)
    exact ⟨first, second, rest, rfl⟩
  simp only [List.forall_mem_cons] at hparts
  have hrest : Gives (fun texts ↦ ∀ text ∈ texts, Paired text) (rest.mapM e.expression) :=
    .mapM fun part hpart ↦ h.value (hparts.2.2 part hpart)
  rw [expressionList, List.mapM_cons, List.mapM_cons]
  simp only [bind_assoc, pure_bind]
  refine (h.value hparts.1).bind fun first hfirst ↦ ?_
  refine (h.value hparts.2.1).bind fun second hsecond ↦ hrest.bind fun texts htexts ↦ .pure ?_
  have hjoin : Bytes.join (bytes ", ") (first :: second :: texts) =
      first ++ bytes ", " ++ Bytes.join (bytes ", ") (second :: texts) := by
    simp [Bytes.join]
  rw [hjoin]
  refine .of_hasWord ((HasWord.behind hfirst (by decide)).append _) ?_
  simp only [Paired, unpaired_append, hfirst,
    paired_list (List.forall_mem_cons.mpr ⟨hsecond, htexts⟩)]
  rfl

omit h in
/-- A word in front of a text. -/
theorem unwrapped_lead {word rest : Bytes} (hword : IsWord word) (hpaired : Paired word)
    (hrest : Paired rest) : Unwrapped (word ++ rest) := by
  refine .of_hasWord (.of_isWord (hword.append rest)) ?_
  simp only [Paired, unpaired_append, hpaired, hrest]
  rfl

section Forms

variable {view : View}

theorem template_gives {quasis : List Bytes} {holes : List View}
    (hquasis : ∀ quasi ∈ quasis, Paired quasi) (hholes : ∀ hole ∈ holes, hole.WellSpelled) :
    Gives Unwrapped (e.plainExpression view (.template quasis holes)) := by
  refine (templateParts_gives h hholes hquasis).bind fun text htext ↦ .pure ?_
  refine .of_hasWord (.of_isWord (.append (.append (by decide) _) _)) ?_
  simp only [Paired, unpaired_append, htext]
  rfl

theorem taggedTemplate_gives {tag quasi : View} {args : List Bytes}
    (htag : tag.WellSpelled) (hquasi : quasi.WellSpelled) (hargs : ∀ text ∈ args, Paired text)
    (hwritten : tag.isWritten ∧ quasi.isWritten) :
    Gives Unwrapped (e.plainExpression view (.taggedTemplate tag args quasi)) := by
  refine (h.expression htag).bind fun tag htag ↦ (h.expression hquasi).bind fun quasi hquasi ↦ ?_
  refine .pure (.append ?_ (List.append_ne_nil_of_left_ne_nil (htag.ne_nil hwritten.1) _)
    hquasi.paired (hquasi.ne_nil hwritten.2))
  simp only [Paired, unpaired_append, htag.paired, paired_typeArguments hargs]
  rfl

theorem array_gives {elements : List View} (helements : ∀ element ∈ elements, element.WellSpelled) :
    Gives Unwrapped (e.plainExpression view (.array elements)) := by
  refine (expressionList_gives h helements).bind fun text htext ↦ .pure ?_
  refine .of_hasWord (.of_isWord (.append (.append (.append (by decide) _) _) _)) ?_
  simp only [Paired, unpaired_append, htext, paired_when _ "," rfl]
  rfl

theorem object_gives {properties : List (Property View)}
    (hproperties : ∀ p ∈ properties, ∀ part ∈ parts p.slots, part.WellSpelled) :
    Gives Unwrapped (e.plainExpression view (.object properties)) := by
  refine .bind (.mapM fun p hp ↦ propertyText_gives h (hproperties p hp))
    fun entries hentries ↦ .pure (.of_hasWord (.of_isWord ?_) (paired_bracedEntries hentries))
  unfold bracedEntries
  split
  · decide
  · exact .append (.append (by decide) _) _

theorem unary_gives {op : Bytes} {operand : View} (hop : Paired op) (hword : IsWord op)
    (hoperand : operand.WellSpelled) (leading : Bool) :
    Gives Unwrapped (e.plainExpression view (.unary op operand leading)) := by
  refine (h.value hoperand).bind fun text htext ↦ .pure ?_
  split
  · exact unwrapped_leadingText hop hword htext
  · refine .of_hasWord (.behind htext hword) ?_
    simp only [Paired, unpaired_append, htext, hop]
    rfl

theorem yield_gives {argument : Option View} (hargument : ∀ part ∈ argument, part.WellSpelled)
    (delegate : Bool) : Gives Unwrapped (e.plainExpression view (.yield argument delegate)) := by
  have hword : IsWord (bytes "yield" ++ when delegate "*") := .append (by decide) _
  have hpaired : Paired (bytes "yield" ++ when delegate "*") := by
    simp only [Paired, unpaired_append, paired_when _ "*" rfl]
    rfl
  cases argument with
  | none => exact .pure (unwrapped_lead hword hpaired rfl)
  | some argument =>
    refine (h.value (hargument argument rfl)).bind fun text htext ↦ .pure ?_
    refine unwrapped_lead hword hpaired ?_
    simp only [Paired, unpaired_append, htext]
    rfl

theorem conditional_gives {test consequent alternate : View} (htest : test.WellSpelled)
    (hconsequent : consequent.WellSpelled) (halternate : alternate.WellSpelled) :
    Gives Unwrapped (e.plainExpression view (.conditional test consequent alternate)) := by
  refine (h.value htest).bind fun test htest ↦ ?_
  refine (h.value hconsequent).bind fun consequent hconsequent ↦ ?_
  refine (h.value halternate).bind fun alternate halternate ↦ .pure ?_
  refine .of_hasWord ((HasWord.behind htest (by decide)).append _ |>.append _ |>.append _) ?_
  simp only [Paired, unpaired_append, htest, hconsequent, halternate]
  rfl

theorem call_gives {callee : View} {args : List Bytes} {values : List View}
    (hcallee : callee.WellSpelled) (hwritten : callee.isWritten)
    (hargs : ∀ text ∈ args, Paired text) (hvalues : ∀ value ∈ values, value.WellSpelled)
    (optional : Bool) :
    Gives Unwrapped (e.plainExpression view (.call callee args values optional)) := by
  refine (h.expression hcallee).bind fun callee hcallee ↦ ?_
  refine (expressionList_gives h hvalues).bind fun values hvalues ↦ .pure ?_
  have hrest : Paired (when optional "?." ++ typeArguments args ++ bytes "(" ++ values ++
      bytes ")") := by
    simp only [Paired, unpaired_append, paired_when _ "?." rfl, paired_typeArguments hargs,
      hvalues]
    rfl
  have hcall := Unwrapped.append hcallee.paired (hcallee.ne_nil hwritten) hrest
    (List.append_ne_nil_of_right_ne_nil _ (by decide))
  simpa only [List.append_assoc] using hcall

theorem new_gives {callee : View} {args : List Bytes} {values : Option (List View)}
    (hcallee : callee.WellSpelled) (hargs : ∀ text ∈ args, Paired text)
    (hvalues : ∀ value ∈ values.getD [], value.WellSpelled) :
    Gives Unwrapped (e.plainExpression view (.new callee args values)) := by
  refine (h.value hcallee).bind fun callee hcallee ↦ ?_
  have hword : IsWord (bytes "new " ++ callee ++ typeArguments args) :=
    .append (.append (by decide) _) _
  have hpaired : Paired (bytes "new " ++ callee ++ typeArguments args) := by
    simp only [Paired, unpaired_append, hcallee, paired_typeArguments hargs]
    rfl
  cases values with
  | none => exact .pure (unwrapped_lead hword hpaired rfl)
  | some values =>
    refine (expressionList_gives h hvalues).bind fun text htext ↦ .pure ?_
    refine unwrapped_lead hword hpaired ?_
    simp only [Paired, unpaired_append, htext]
    rfl

end Forms

theorem plainExpression_gives {line column : Nat} {form : Plain View}
    (hview : (View.plain line column form).WellSpelled) (view : View) :
    Gives (View.plain line column form).StandsAs (e.plainExpression view form) := by
  obtain ⟨⟨htexts, hparts⟩, hwords⟩ := View.wellSpelled_iff.mp hview
  simp only [View.texts, View.slots, View.HasWords] at htexts hparts hwords
  have hunwrapped {action : Emit Bytes} (haction : Gives Unwrapped action) :
      Gives (View.plain line column form).StandsAs action :=
    haction.mono fun _ htext ↦ htext.standsAs _
  cases form with
  | identifier name | number name _ | regex name =>
    simp only [Plain.texts, List.forall_mem_singleton] at htexts
    exact hunwrapped (.pure (.of_hasWord (.of_isWord hwords) htexts))
  | string value =>
    simp only [Plain.texts, List.forall_mem_singleton] at htexts
    refine hunwrapped (.pure (.of_hasWord (.of_isWord (isWord_quoted value)) ?_))
    rwa [Paired, Quoted.unpaired_quoted]
  | boolean value =>
    cases value <;> exact hunwrapped (.pure (.of_hasWord (.of_isWord (by decide)) rfl))
  | null | this | super => exact hunwrapped (.pure (.of_hasWord (.of_isWord (by decide)) rfl))
  | omitted => exact .pure ⟨rfl, fun hwritten ↦ absurd hwritten Bool.false_ne_true, fun _ ↦ rfl⟩
  | template quasis holes =>
    simp only [Plain.slots, parts_filled] at hparts
    exact hunwrapped (template_gives h htexts hparts)
  | taggedTemplate tag args quasi =>
    simp only [Plain.slots, parts_filled, List.forall_mem_cons] at hparts
    exact hunwrapped (taggedTemplate_gives h hparts.1 hparts.2.1 htexts hwords)
  | array elements =>
    simp only [Plain.slots, parts_filled] at hparts
    exact hunwrapped (array_gives h hparts)
  | object properties =>
    simp only [Plain.slots, parts_flatMap, List.mem_flatMap, forall_exists_index,
      and_imp] at hparts
    exact hunwrapped (object_gives h fun p hp part ↦ hparts part p hp)
  | function f => exact hunwrapped (callableText_gives h ⟨htexts, hparts⟩ false)
  | functionDeclaration f isDeclare =>
    exact hunwrapped (callableText_gives h ⟨htexts, hparts⟩ isDeclare)
  | arrow f => exact hunwrapped (arrowText_gives h ⟨htexts, hparts⟩)
  | classDeclaration c => exact hunwrapped (classText_gives h ⟨htexts, hparts⟩ false)
  | unary op operand leading =>
    simp only [Plain.texts, List.forall_mem_singleton] at htexts
    simp only [Plain.slots, parts_filled, List.forall_mem_singleton] at hparts
    exact hunwrapped (unary_gives h htexts hwords hparts leading)
  | await argument | spread argument =>
    simp only [Plain.slots, parts_filled, List.forall_mem_singleton] at hparts
    exact hunwrapped ((h.value hparts).bind fun text htext ↦
      .pure (unwrapped_lead (by decide) rfl htext))
  | yield argument delegate =>
    simp only [Plain.slots, parts_filled, Option.mem_toList] at hparts
    exact hunwrapped (yield_gives h hparts delegate)
  | binary op left right | assignment op left right =>
    simp only [Plain.texts, List.forall_mem_singleton] at htexts
    simp only [Plain.slots, parts_filled, List.forall_mem_cons] at hparts
    exact hunwrapped (infixed_gives h hparts.1 hparts.2.1 htexts)
  | assignmentPattern target initial =>
    simp only [Plain.slots, parts_filled, List.forall_mem_cons] at hparts
    exact hunwrapped (infixed_gives h hparts.1 hparts.2.1 rfl)
  | conditional test consequent alternate =>
    simp only [Plain.slots, parts_filled, List.forall_mem_cons] at hparts
    exact hunwrapped (conditional_gives h hparts.1 hparts.2.1 hparts.2.2.1)
  | call callee args values optional =>
    simp only [Plain.slots, parts_filled, List.forall_mem_cons] at hparts
    exact hunwrapped (call_gives h hparts.1 hwords htexts hparts.2 optional)
  | new callee args values =>
    simp only [Plain.slots, parts_filled, List.forall_mem_cons] at hparts
    exact hunwrapped (new_gives h hparts.1 htexts hparts.2)
  | member receiver key optional =>
    simp only [Plain.texts, List.forall_mem_singleton] at htexts
    simp only [Plain.slots, parts_append, parts_filled, List.forall_mem_append,
      List.forall_mem_singleton] at hparts
    exact hunwrapped ((h.value hparts.1).bind fun receiver hreceiver ↦
      memberAccess_gives h htexts hparts.2 hreceiver optional)
  | sequence parts =>
    simp only [Plain.slots, parts_filled] at hparts
    exact hunwrapped (sequence_gives h hparts hwords)
  | paren inner =>
    simp only [Plain.slots, parts_filled, List.forall_mem_singleton] at hparts
    refine (h.value hparts).bind fun text htext ↦ .pure ⟨?_, fun _ ↦ ?_, fun hnone ↦ ?_⟩
    · simp only [Paired, unpaired_append, htext]
      rfl
    · exact List.append_ne_nil_of_right_ne_nil _ (by decide)
    · exact absurd hnone (Option.some_ne_none inner)
  | cast inner type keyword =>
    simp only [Plain.texts, List.forall_mem_cons] at htexts
    simp only [Plain.slots, parts_filled, List.forall_mem_singleton] at hparts
    refine hunwrapped ((h.value hparts).bind fun text htext ↦ .pure ?_)
    refine .of_hasWord ((HasWord.behind htext (by decide)).append _ |>.append _ |>.append _) ?_
    simp only [Paired, unpaired_append, htext, htexts.1, htexts.2.1]
    rfl
  | nonNull inner =>
    simp only [Plain.slots, parts_filled, List.forall_mem_singleton] at hparts
    refine hunwrapped ((h.value hparts).bind fun text htext ↦ .pure ?_)
    refine .of_hasWord (.behind htext (by decide)) ?_
    simp only [Paired, unpaired_append, htext]
    rfl
  | _ => exact .fail

end Spelling

end Emission

end SignalView
