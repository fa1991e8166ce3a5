import SignalView.Proofs.Script.Parens.Expressions

/-!
# Parentheses of views

The lines that build a view open and close their parentheses together. A view stands as a call: of a
function of the runtime, of a component, or of a function that is in parentheses itself.
-/

namespace SignalView

open Slot

namespace Emission

open Emit

theorem paired_propertyKey {name : Bytes} (h : Paired name) : Paired (Name.propertyKey name) := by
  unfold Name.propertyKey
  split
  · exact h
  · rwa [Paired, Quoted.unpaired_quoted]

/-- The names in the lines of a region. -/
def RegionNames.texts (names : RegionNames) : List Bytes :=
  [names.anchor, names.nodes, names.value, names.member, names.node]

section Spelling

variable {e : Emission} (h : Spells e)
include h

/-! ## Attributes -/

theorem attributeEntry_gives {a : ViewAttribute View} (domNames : Bool)
    (hname : Paired (if domNames then Attribute.domProperty a.name else a.name))
    (hvalue : ∀ part ∈ a.value, part.WellSpelled) :
    Gives Paired (e.attributeEntry domNames a) := by
  refine .ite (fun _ ↦ ?_) fun _ ↦ ?_
  · refine (optionalExpression_gives h hvalue).bind fun text htext ↦ .pure ?_
    simp only [Paired, unpaired_append, htext]
    rfl
  · have hentry {value : Bytes} (hvalue : Paired value) :
        Paired (Name.propertyKey (if domNames then Attribute.domProperty a.name else a.name) ++
          bytes ": " ++ value) := by
      simp only [Paired, unpaired_append, paired_propertyKey hname, hvalue]
      rfl
    cases hsome : a.value with
    | none => exact .bind (.pure (P := Paired) rfl) fun _ htext ↦ .pure (hentry htext)
    | some value => exact (h.value (hvalue value hsome)).bind fun _ htext ↦ .pure (hentry htext)

omit h in
theorem unwrapped_elementCall {tag attributes children : Bytes} (htag : Paired tag)
    (hattributes : Paired attributes) (hchildren : Paired children) :
    Unwrapped (elementCall tag attributes children) := by
  refine .of_hasWord (.of_isWord ?_) ?_
  · exact .append (.append (.append (.append (.append (.append (by decide) _) _) _) _) _) _
  · simp only [elementCall, Paired, unpaired_append, Quoted.unpaired_quoted, htag, hattributes,
      hchildren]
    rfl

theorem elementAttributes_gives {element : ElementShape View}
    (hnames : ∀ a ∈ element.attributes, Paired (Attribute.domProperty a.name))
    (hvalues : ∀ a ∈ element.attributes, ∀ part ∈ a.value, part.WellSpelled) :
    Gives Paired (e.elementAttributes element) :=
  .bind (.mapM fun a ha ↦ attributeEntry_gives h true (hnames a ha) (hvalues a ha)) fun _ hentries ↦
    .pure (paired_bracedEntries hentries)

theorem attributeEffect_gives {el : Bytes} (hel : Paired el) {b : PropertyBinding View}
    (hproperty : Paired b.property) (hvalue : b.expression.WellSpelled) :
    Gives Paired (e.attributeEffect el b) := by
  refine .after fun _ ↦ (Gives.temporary rfl).bind fun v hv ↦ ?_
  refine .bind (P := Paired) (.indented ?_) fun body hbody ↦ ?_
  · refine (h.value hvalue).bind fun value hvalue ↦ (h.line _).bind fun first hfirst ↦ ?_
    refine (h.line _).bind fun second hsecond ↦ (h.line _).bind fun third hthird ↦ .pure ?_
    simp only [Paired, unpaired_append, Quoted.unpaired_quoted, hfirst, hsecond, hthird, hv, hvalue,
      hel, hproperty]
    rfl
  · refine (h.line _).bind fun first hfirst ↦ (h.line _).bind fun last hlast ↦ .pure ?_
    simp only [Paired, unpaired_append, hfirst, hbody, hlast]
    rfl

theorem bindingLines_gives {el : Bytes} (hel : Paired el) {b : PropertyBinding View}
    (hproperty : Paired b.property) (hvalue : b.expression.WellSpelled) :
    Gives Paired (e.bindingLines el b) := by
  refine .ite (fun _ ↦ attributeEffect_gives h hel hproperty hvalue) fun _ ↦ .after fun _ ↦ ?_
  refine (arrowBody_gives h hvalue).bind fun body hbody ↦ (h.line _).mono fun line hline ↦ ?_
  simp only [hline, Paired, unpaired_append, Quoted.unpaired_quoted, hel, hproperty, hbody]
  rfl

theorem listenerLines_gives {el : Bytes} (hel : Paired el) {listener : Listener View}
    (hevent : Paired listener.event) (hhandler : listener.handler.WellSpelled) :
    Gives Paired (e.listenerLines el listener) := by
  refine (h.value hhandler).bind fun text htext ↦ (h.line _).mono fun line hline ↦ ?_
  simp only [hline, Paired, unpaired_append, Quoted.unpaired_quoted, hel, hevent, htext]
  rfl

/-! ## Children -/

theorem guardedLines_gives {parent value : Bytes} (hparent : Paired parent)
    (hvalue : Paired value) : Gives Paired (e.guardedLines parent value) := by
  refine (Gives.temporary rfl).bind fun v hv ↦ (h.line _).bind fun first hfirst ↦ ?_
  refine (h.line _).bind fun second hsecond ↦ .pure ?_
  simp only [Paired, unpaired_append, hfirst, hsecond, hv, hvalue, hparent]
  rfl

omit h in
theorem paired_flatLoop {n v : Bytes} (hn : Paired n) (hv : Paired v) :
    Paired (flatLoop n v) := by
  simp only [flatLoop, Paired, unpaired_append, hn, hv]
  rfl

theorem listLines_gives {parent : Bytes} (hparent : Paired parent) {value : View}
    (hvalue : value.WellSpelled) : Gives Paired (e.listLines parent value) := by
  refine (Gives.temporary rfl).bind fun v hv ↦ (Gives.temporary rfl).bind fun n hn ↦ ?_
  refine (h.value hvalue).bind fun text htext ↦ (h.line _).bind fun first hfirst ↦ ?_
  refine (h.line _).bind fun loop hloop ↦ (h.line _).indented.bind fun body hbody ↦ ?_
  refine (h.line _).bind fun last hlast ↦ .pure ?_
  simp only [Paired, unpaired_append, hfirst, hloop, hbody, hlast, paired_flatLoop hn hv, hv, hn,
    htext, hparent]
  rfl

omit h in
theorem regionNames_gives : Gives (fun names ↦ ∀ text ∈ names.texts, Paired text) regionNames := by
  refine (Gives.temporary rfl).bind fun anchor hanchor ↦ ?_
  refine (Gives.temporary rfl).bind fun nodes hnodes ↦ ?_
  refine (Gives.temporary rfl).bind fun value hvalue ↦ ?_
  refine (Gives.temporary rfl).bind fun member hmember ↦ ?_
  refine (Gives.temporary rfl).bind fun node hnode ↦ .pure ?_
  simp only [RegionNames.texts, List.forall_mem_cons]
  exact ⟨hanchor, hnodes, hvalue, hmember, hnode, List.forall_mem_nil _⟩

theorem regionMembers_gives {names : RegionNames} (hnames : ∀ text ∈ names.texts, Paired text) :
    Gives Paired (e.regionMembers names) := by
  simp only [RegionNames.texts, List.forall_mem_cons] at hnames
  obtain ⟨hanchor, hnodes, -, hmember, hnode, -⟩ := hnames
  refine (h.line _).bind fun skip hskip ↦ (h.line _).bind fun make hmake ↦ ?_
  refine (h.line _).bind fun insert hinsert ↦ (h.line _).bind fun keep hkeep ↦ .pure ?_
  simp only [Paired, unpaired_append, hskip, hmake, hinsert, hkeep, hanchor, hnodes, hmember, hnode]
  rfl

theorem regionBody_gives {names : RegionNames} (hnames : ∀ text ∈ names.texts, Paired text)
    {value : View} (hvalue : value.WellSpelled) : Gives Paired (e.regionBody names value) := by
  have hmembers := regionMembers_gives h hnames
  simp only [RegionNames.texts, List.forall_mem_cons] at hnames
  obtain ⟨-, hnodes, hname, hmember, -⟩ := hnames
  refine (h.value hvalue).bind fun text htext ↦ (h.line _).bind fun first hfirst ↦ ?_
  refine (h.line _).bind fun clear hclear ↦ (h.line _).bind fun reset hreset ↦ ?_
  refine (h.line _).bind fun loop hloop ↦ hmembers.indented.bind fun members hmembers ↦ ?_
  refine (h.line _).bind fun last hlast ↦ .pure ?_
  simp only [Paired, unpaired_append, hfirst, hclear, hreset, hloop, hmembers, hlast,
    paired_flatLoop hmember hname, hname, htext, hmember, hnodes]
  rfl

theorem regionLines_gives {parent : Bytes} (hparent : Paired parent) {value : View}
    (hvalue : value.WellSpelled) : Gives Paired (e.regionLines parent value) := by
  refine .after fun _ ↦ regionNames_gives.bind fun names hnames ↦ ?_
  have hbody := regionBody_gives h hnames hvalue
  simp only [RegionNames.texts, List.forall_mem_cons] at hnames
  obtain ⟨hanchor, hnodes, -⟩ := hnames
  refine (h.line _).bind fun anchor hanchorLine ↦ (h.line _).bind fun append happend ↦ ?_
  refine (h.line _).bind fun nodes hnodesLine ↦ (h.line _).bind fun effect heffect ↦ ?_
  refine hbody.indented.bind fun body hbody ↦ (h.line _).bind fun last hlast ↦ .pure ?_
  simp only [Paired, unpaired_append, hanchorLine, happend, hnodesLine, heffect, hbody, hlast,
    hanchor, hnodes, hparent]
  rfl

theorem textLines_gives {parent : Bytes} (hparent : Paired parent) {value : View}
    (hvalue : value.WellSpelled) (isNullable : Bool) :
    Gives Paired (e.textLines parent isNullable value) := by
  have hrest {t getter : Bytes} (ht : Paired t) (hgetter : Paired getter) : Gives Paired (do
      let make ← e.line (bytes "const " ++ t ++ bytes " = document.createTextNode('');")
      let wire ← e.line (bytes "$REGISTRY.wire(" ++ t ++ bytes ", 'textContent', () => " ++
        getter ++ bytes ");")
      return make ++ wire ++ (← e.line (parent ++ bytes ".appendChild(" ++ t ++ bytes ");"))) := by
    refine (h.line _).bind fun make hmake ↦ (h.line _).bind fun wire hwire ↦ ?_
    refine (h.line _).bind fun append happend ↦ .pure ?_
    simp only [Paired, unpaired_append, hmake, hwire, happend, ht, hgetter, hparent]
    rfl
  refine .after fun _ ↦ (Gives.temporary rfl).bind fun t ht ↦ .ite (fun _ ↦ ?_) fun _ ↦ ?_
  · refine (Gives.temporary rfl).bind fun v hv ↦ (h.value hvalue).bind fun text htext ↦ ?_
    refine .bind (.pure (P := Paired) ?_) fun getter hgetter ↦ hrest ht hgetter
    simp only [Paired, unpaired_append, hv, htext]
    rfl
  · exact (arrowBody_gives h hvalue).bind fun getter hgetter ↦ hrest ht hgetter

theorem nodeLines_gives {parent : Bytes} (hparent : Paired parent) {view : View}
    (hview : view.WellSpelled) : Gives Paired (e.nodeLines parent view) := by
  refine (h.value hview).bind fun text htext ↦ (h.line _).mono fun line hline ↦ ?_
  simp only [hline, Paired, unpaired_append, hparent, htext]
  rfl

theorem valueLines_gives {parent : Bytes} (hparent : Paired parent) {value : View}
    (hvalue : value.WellSpelled) (c : Classification) (isSpread : Bool) :
    Gives Paired (e.valueLines parent c isSpread value) := by
  refine .ite (fun _ ↦ textLines_gives h hparent hvalue _) fun _ ↦ ?_
  refine .ite (fun _ ↦ regionLines_gives h hparent hvalue) fun _ ↦ ?_
  refine .ite (fun _ ↦ listLines_gives h hparent hvalue) fun _ ↦ ?_
  refine .ite (fun _ ↦ ?_) fun _ ↦ ?_
  · exact (h.value hvalue).bind fun text htext ↦ guardedLines_gives h hparent htext
  · refine (h.value hvalue).bind fun text htext ↦ (h.line _).mono fun line hline ↦ ?_
    simp only [hline, Paired, unpaired_append, hparent, htext]
    rfl

theorem childLines_gives {parent : Bytes} (hparent : Paired parent) {child : View}
    (hchild : child.WellSpelled) : Gives Paired (e.childLines parent child) := by
  cases child with
  | plain line column form => exact nodeLines_gives h hparent hchild
  | rendered line column form =>
    cases form with
    | text value =>
      have hvalue : Paired value := (View.wellSpelled_iff.mp hchild).1.1 _ List.mem_cons_self
      refine (h.line _).mono fun text htext ↦ ?_
      simp only [htext, Paired, unpaired_append, Quoted.unpaired_quoted, hparent, hvalue]
      rfl
    | child c value =>
      have hvalue : value.WellSpelled :=
        (View.wellSpelled_iff.mp hchild).1.2 _ (by simp [View.slots, Rendered.slots])
      refine .ite (fun _ ↦ nodeLines_gives h hparent hvalue) fun _ ↦ ?_
      split
      · next argument _ =>
        have hargument : argument.WellSpelled :=
          (View.wellSpelled_iff.mp hvalue).1.2 _ (by simp [View.slots, Plain.slots])
        exact valueLines_gives h hparent hargument c true
      · exact valueLines_gives h hparent hvalue c false
    | _ => exact nodeLines_gives h hparent hchild

theorem childrenLines_gives {parent : Bytes} (hparent : Paired parent) {children : List View}
    (hchildren : ∀ child ∈ children, child.WellSpelled) :
    Gives (fun lines ↦ ∀ text ∈ lines, Paired text) (children.mapM (e.childLines parent)) :=
  .mapM fun child hchild ↦ childLines_gives h hparent (hchildren child hchild)

/-! ## Elements, fragments and calls -/

/-- The call of a function in parentheses is in no pair of its own. -/
theorem immediate_gives {lines : Emit Bytes} (hlines : Gives Paired lines) :
    Gives Unwrapped (e.immediate lines) := by
  refine hlines.indented.bind fun lines hlines ↦ h.pad.bind fun margin hmargin ↦ .pure ?_
  have hfront : Paired (bytes "(() => \x7b\n" ++ lines ++ margin ++ bytes "\x7d)") := by
    simp only [Paired, unpaired_append, hlines, hmargin]
    rfl
  have hcall := Unwrapped.append hfront (List.append_ne_nil_of_right_ne_nil _ (by decide))
    (rfl : Paired (bytes "()")) (by decide)
  rwa [List.append_assoc] at hcall

theorem elementText_gives {element : ElementShape View}
    (helement : AreSpelled element.texts element.slots) :
    Gives Unwrapped (e.elementText element) := by
  obtain ⟨htexts, hparts⟩ := helement
  simp only [ElementShape.texts, List.cons_append, List.forall_mem_cons, List.forall_mem_append,
    List.forall_mem_map] at htexts
  simp only [ElementShape.slots, ViewAttribute.slots, parts_append, parts_flatMap, parts_filled,
    parts_held, List.forall_mem_append, List.forall_mem_map, List.mem_flatMap, Option.mem_toList,
    forall_exists_index, and_imp] at hparts
  obtain ⟨htag, ⟨hnames, hproperties⟩, hevents⟩ := htexts
  obtain ⟨⟨⟨hvalues, hhandlers⟩, hexpressions⟩, hchildren⟩ := hparts
  have hattributes : Gives Paired (e.elementAttributes element) :=
    elementAttributes_gives h hnames fun a ha part ↦ hvalues part a ha
  refine .after fun _ ↦ .ite (fun _ ↦ ?_) fun _ ↦ ?_
  · refine hattributes.bind fun attributes hattributes ↦ ?_
    exact (expressionList_gives h hchildren).bind fun children hchildren ↦
      .pure (unwrapped_elementCall htag hattributes hchildren)
  · refine (Gives.temporary rfl).bind fun el hel ↦ immediate_gives h ?_
    refine hattributes.bind fun attributes hattributes ↦ ?_
    refine (h.line _).bind fun first hfirst ↦ ?_
    refine .bind (.mapM fun b hb ↦ bindingLines_gives h hel (hproperties b hb)
      (hexpressions b hb)) fun bindings hbindings ↦ ?_
    refine .bind (.mapM fun listener hlistener ↦ listenerLines_gives h hel
      (hevents listener hlistener) (hhandlers listener hlistener)) fun listeners hlisteners ↦ ?_
    refine (childrenLines_gives h hel hchildren).bind fun children hchildren ↦ ?_
    refine (h.line _).bind fun last hlast ↦ .pure ?_
    have hcall : Paired (elementCall element.tag attributes []) :=
      (unwrapped_elementCall htag hattributes rfl).paired
    simp only [Paired, unpaired_append, hfirst, hcall, paired_flatten hbindings,
      paired_flatten hlisteners, paired_flatten hchildren, hlast, hel]
    rfl

theorem fragmentText_gives {children : List View}
    (hchildren : ∀ child ∈ children, child.WellSpelled) :
    Gives Unwrapped (e.fragmentText children) := by
  refine (Gives.temporary rfl).bind fun frag hfrag ↦ immediate_gives h ?_
  refine (h.line _).bind fun first hfirst ↦ ?_
  refine (childrenLines_gives h hfrag hchildren).bind fun children hchildren ↦ ?_
  refine (h.line _).bind fun last hlast ↦ .pure ?_
  simp only [Paired, unpaired_append, hfirst, paired_flatten hchildren, hlast, hfrag]
  rfl

theorem callChildren_gives {children : List View}
    (hchildren : ∀ child ∈ children, child.WellSpelled) :
    Gives Paired (e.callChildren children) := by
  unfold callChildren
  split
  · next child =>
    rw [List.forall_mem_singleton] at hchildren
    refine .ite (fun _ ↦ ?_) fun _ ↦ h.value hchildren
    refine (h.value hchildren).bind fun text htext ↦ .pure ?_
    simp only [Paired, unpaired_append, htext]
    rfl
  · refine (expressionList_gives h hchildren).bind fun text htext ↦ .pure ?_
    simp only [Paired, unpaired_append, htext]
    rfl

theorem callText_gives {name : Bytes} (hword : IsWord name) (hname : Paired name)
    {props : List (ViewAttribute View)} {children : List View}
    (hnames : ∀ a ∈ props, Paired a.name)
    (hvalues : ∀ a ∈ props, ∀ part ∈ a.value, part.WellSpelled)
    (hchildren : ∀ child ∈ children, child.WellSpelled) :
    Gives Unwrapped (e.callText name props children) := by
  have hcall {entries : List Bytes} (hentries : ∀ text ∈ entries, Paired text) :
      Unwrapped (name ++ bytes "(" ++ bracedEntries entries ++ bytes ")") := by
    refine .of_hasWord (.of_isWord (hword.append _ |>.append _ |>.append _)) ?_
    simp only [Paired, unpaired_append, hname, paired_bracedEntries hentries]
    rfl
  refine .bind (.mapM fun a ha ↦ attributeEntry_gives h false (hnames a ha)
    (hvalues a ha)) fun entries hentries ↦ .ite (fun _ ↦ ?_) fun _ ↦ ?_
  · exact .pure (hcall (by simpa using hentries))
  · refine (callChildren_gives h hchildren).bind fun text htext ↦ .pure (hcall ?_)
    rw [List.forall_mem_append, List.forall_mem_singleton]
    refine ⟨hentries, ?_⟩
    simp only [Paired, unpaired_append, htext]
    rfl

end Spelling

end Emission

end SignalView
