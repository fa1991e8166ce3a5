import SignalView.Proofs.Script.Formats.Expressions

/-!
# Views in two formats

Temporaries are numbered by what is written before them, not by its text. So the lines that build a
view use the same names in both formats.
-/

namespace SignalView

open Slot

namespace Emission

open Emit

section Formats

variable {p : Prop} {e e' : Emission} (h : Parallel p e e')
include h

/-! ## Attributes -/

theorem attributeEntry_alike {a : ViewAttribute View} (hvalue : ∀ part ∈ a.value, part.Stable p)
    (domNames : Bool) : Alike p (e.attributeEntry domNames a) (e'.attributeEntry domNames a) := by
  refine .ite (fun _ ↦ ?_) fun _ ↦ ?_
  · exact (optionalExpression_alike h hvalue).bind fun _ _ htext ↦
      .pure fun hp ↦ by rw [htext hp]
  · cases hsome : a.value with
    | none => exact .refl _
    | some value =>
      exact (h.expression (hvalue value hsome)).bind fun _ _ htext ↦
        .pure fun hp ↦ by rw [htext hp]

theorem elementAttributes_alike {element : ElementShape View}
    (hvalues : ∀ a ∈ element.attributes, ∀ part ∈ a.value, part.Stable p) :
    Alike p (e.elementAttributes element) (e'.elementAttributes element) :=
  .bind (.mapM fun a ha ↦ attributeEntry_alike h (hvalues a ha) true) fun _ _ hentries ↦
    .pure fun hp ↦ by rw [hentries hp]

theorem attributeEffect_alike {b : PropertyBinding View} (hvalue : b.expression.Stable p)
    (el : Bytes) : Alike p (e.attributeEffect el b) (e'.attributeEffect el b) := by
  refine (h.useRuntime _).bind fun _ _ _ ↦ .after fun v ↦ ?_
  refine .bind (.indented ?_) fun _ _ hbody ↦ ?_
  · refine (h.expression hvalue).bind fun _ _ hvalue ↦ ?_
    refine (h.line fun hp ↦ by rw [hvalue hp]).bind fun _ _ hfirst ↦ ?_
    refine (h.line fun _ ↦ rfl).bind fun _ _ hsecond ↦ (h.line fun _ ↦ rfl).bind fun _ _ hthird ↦ ?_
    exact .pure fun hp ↦ by rw [hfirst hp, hsecond hp, hthird hp]
  · refine (h.line fun _ ↦ rfl).bind fun _ _ hfirst ↦ (h.line fun _ ↦ rfl).bind fun _ _ hlast ↦ ?_
    exact .pure fun hp ↦ by rw [hfirst hp, hbody hp, hlast hp]

theorem bindingLines_alike {b : PropertyBinding View} (hvalue : b.expression.Stable p)
    (el : Bytes) : Alike p (e.bindingLines el b) (e'.bindingLines el b) := by
  refine .ite (fun _ ↦ attributeEffect_alike h hvalue el) fun _ ↦ ?_
  refine (h.useRuntime _).bind fun _ _ _ ↦ (arrowBody_alike h hvalue).bind fun _ _ hbody ↦ ?_
  exact h.line fun hp ↦ by rw [hbody hp]

theorem listenerLines_alike {listener : Listener View} (hhandler : listener.handler.Stable p)
    (el : Bytes) : Alike p (e.listenerLines el listener) (e'.listenerLines el listener) :=
  (h.expression hhandler).bind fun _ _ htext ↦ h.line fun hp ↦ by rw [htext hp]

/-! ## Children -/

theorem guardedLines_alike (parent : Bytes) {value value' : Bytes} (hvalue : p → value = value') :
    Alike p (e.guardedLines parent value) (e'.guardedLines parent value') := by
  refine .after fun v ↦ (h.line fun hp ↦ by rw [hvalue hp]).bind fun _ _ hfirst ↦ ?_
  refine (h.line fun _ ↦ rfl).bind fun _ _ hsecond ↦ ?_
  exact .pure fun hp ↦ by rw [hfirst hp, hsecond hp]

theorem listLines_alike (parent : Bytes) {value : View} (hvalue : value.Stable p) :
    Alike p (e.listLines parent value) (e'.listLines parent value) := by
  refine .after fun v ↦ .after fun n ↦ (h.expression hvalue).bind fun _ _ htext ↦ ?_
  refine (h.line fun hp ↦ by rw [htext hp]).bind fun _ _ hfirst ↦ ?_
  refine (h.line fun _ ↦ rfl).bind fun _ _ hloop ↦ ?_
  refine (h.line fun _ ↦ rfl).indented.bind fun _ _ hbody ↦ ?_
  refine (h.line fun _ ↦ rfl).bind fun _ _ hlast ↦ ?_
  exact .pure fun hp ↦ by rw [hfirst hp, hloop hp, hbody hp, hlast hp]

theorem regionMembers_alike (names : RegionNames) :
    Alike p (e.regionMembers names) (e'.regionMembers names) := by
  refine (h.line fun _ ↦ rfl).bind fun _ _ hskip ↦ (h.line fun _ ↦ rfl).bind fun _ _ hmake ↦ ?_
  refine (h.line fun _ ↦ rfl).bind fun _ _ hinsert ↦ (h.line fun _ ↦ rfl).bind fun _ _ hkeep ↦ ?_
  exact .pure fun hp ↦ by rw [hskip hp, hmake hp, hinsert hp, hkeep hp]

theorem regionBody_alike (names : RegionNames) {value : View} (hvalue : value.Stable p) :
    Alike p (e.regionBody names value) (e'.regionBody names value) := by
  refine (h.expression hvalue).bind fun _ _ htext ↦ ?_
  refine (h.line fun hp ↦ by rw [htext hp]).bind fun _ _ hfirst ↦ ?_
  refine (h.line fun _ ↦ rfl).bind fun _ _ hclear ↦ (h.line fun _ ↦ rfl).bind fun _ _ hreset ↦ ?_
  refine (h.line fun _ ↦ rfl).bind fun _ _ hloop ↦ ?_
  refine (regionMembers_alike h names).indented.bind fun _ _ hmembers ↦ ?_
  refine (h.line fun _ ↦ rfl).bind fun _ _ hlast ↦ ?_
  exact .pure fun hp ↦ by
    rw [hfirst hp, hclear hp, hreset hp, hloop hp, hmembers hp, hlast hp]

theorem regionLines_alike (parent : Bytes) {value : View} (hvalue : value.Stable p) :
    Alike p (e.regionLines parent value) (e'.regionLines parent value) := by
  refine (h.useRuntime _).bind fun _ _ _ ↦ .after fun names ↦ ?_
  refine (h.line fun _ ↦ rfl).bind fun _ _ hanchor ↦ (h.line fun _ ↦ rfl).bind fun _ _ happend ↦ ?_
  refine (h.line fun _ ↦ rfl).bind fun _ _ hnodes ↦ (h.line fun _ ↦ rfl).bind fun _ _ heffect ↦ ?_
  refine (regionBody_alike h names hvalue).indented.bind fun _ _ hbody ↦ ?_
  refine (h.line fun _ ↦ rfl).bind fun _ _ hlast ↦ ?_
  exact .pure fun hp ↦ by
    rw [hanchor hp, happend hp, hnodes hp, heffect hp, hbody hp, hlast hp]

/-- The lines of a text node, behind the function that gives its content. -/
theorem textNode_alike (parent t : Bytes) {getter getter' : Bytes}
    (hgetter : p → getter = getter') :
    Alike p
      (do
        let make ← e.line (bytes "const " ++ t ++ bytes " = document.createTextNode('');")
        let wire ← e.line (bytes "$REGISTRY.wire(" ++ t ++ bytes ", 'textContent', () => " ++
          getter ++ bytes ");")
        return make ++ wire ++ (← e.line (parent ++ bytes ".appendChild(" ++ t ++ bytes ");")))
      (do
        let make ← e'.line (bytes "const " ++ t ++ bytes " = document.createTextNode('');")
        let wire ← e'.line (bytes "$REGISTRY.wire(" ++ t ++ bytes ", 'textContent', () => " ++
          getter' ++ bytes ");")
        return make ++ wire ++
          (← e'.line (parent ++ bytes ".appendChild(" ++ t ++ bytes ");"))) := by
  refine (h.line fun _ ↦ rfl).bind fun _ _ hmake ↦ ?_
  refine (h.line fun hp ↦ by rw [hgetter hp]).bind fun _ _ hwire ↦ ?_
  refine (h.line fun _ ↦ rfl).bind fun _ _ happend ↦ ?_
  exact .pure fun hp ↦ by rw [hmake hp, hwire hp, happend hp]

theorem textLines_alike (parent : Bytes) {value : View} (hvalue : value.Stable p)
    (isNullable : Bool) :
    Alike p (e.textLines parent isNullable value) (e'.textLines parent isNullable value) := by
  refine (h.useRuntime _).bind fun _ _ _ ↦ .after fun t ↦ .ite (fun _ ↦ ?_) fun _ ↦ ?_
  · refine .after fun v ↦ (h.expression hvalue).bind fun _ _ htext ↦ ?_
    exact .bind (.pure fun hp ↦ by rw [htext hp]) fun _ _ hgetter ↦
      textNode_alike h parent t hgetter
  · exact (arrowBody_alike h hvalue).bind fun _ _ hgetter ↦ textNode_alike h parent t hgetter

theorem nodeLines_alike (parent : Bytes) {view : View} (hview : view.Stable p) :
    Alike p (e.nodeLines parent view) (e'.nodeLines parent view) :=
  (h.expression hview).bind fun _ _ htext ↦ h.line fun hp ↦ by rw [htext hp]

theorem valueLines_alike (parent : Bytes) {value : View} (hvalue : value.Stable p)
    (c : Classification) (isSpread : Bool) :
    Alike p (e.valueLines parent c isSpread value) (e'.valueLines parent c isSpread value) := by
  refine .ite (fun _ ↦ textLines_alike h parent hvalue _) fun _ ↦ ?_
  refine .ite (fun _ ↦ regionLines_alike h parent hvalue) fun _ ↦ ?_
  refine .ite (fun _ ↦ listLines_alike h parent hvalue) fun _ ↦ ?_
  refine .ite (fun _ ↦ ?_) fun _ ↦ ?_
  · exact (h.expression hvalue).bind fun _ _ htext ↦ guardedLines_alike h parent htext
  · exact (h.expression hvalue).bind fun _ _ htext ↦ h.line fun hp ↦ by rw [htext hp]

theorem childLines_alike (parent : Bytes) {child : View} (hchild : child.Stable p) :
    Alike p (e.childLines parent child) (e'.childLines parent child) := by
  cases child with
  | plain line column form => exact nodeLines_alike h parent hchild
  | rendered line column form =>
    cases form with
    | text value => exact h.line fun _ ↦ rfl
    | child c value =>
      have hvalue : value.Stable p :=
        (View.stable_iff.mp hchild).2 _ (by simp [View.slots, Rendered.slots])
      refine .ite (fun _ ↦ nodeLines_alike h parent hvalue) fun _ ↦ ?_
      split
      · next argument _ =>
        have hargument : argument.Stable p :=
          (View.stable_iff.mp hvalue).2 _ (by simp [View.slots, Plain.slots])
        exact valueLines_alike h parent hargument c true
      · exact valueLines_alike h parent hvalue c false
    | _ => exact nodeLines_alike h parent hchild

theorem childrenLines_alike (parent : Bytes) {children : List View}
    (hchildren : ∀ child ∈ children, child.Stable p) :
    Alike p (children.mapM (e.childLines parent)) (children.mapM (e'.childLines parent)) :=
  .mapM fun child hchild ↦ childLines_alike h parent (hchildren child hchild)

/-! ## Elements, fragments and calls -/

theorem immediate_alike {lines lines' : Emit Bytes} (hlines : Alike p lines lines') :
    Alike p (e.immediate lines) (e'.immediate lines') :=
  hlines.indented.bind fun _ _ hlines ↦ h.pad.bind fun _ _ hmargin ↦
    .pure fun hp ↦ by rw [hlines hp, hmargin hp]

theorem elementText_alike {element : ElementShape View}
    (hparts : ∀ part ∈ parts element.slots, part.Stable p) :
    Alike p (e.elementText element) (e'.elementText element) := by
  simp only [ElementShape.slots, ViewAttribute.slots, parts_append, parts_flatMap, parts_filled,
    parts_held, List.forall_mem_append, List.forall_mem_map, List.mem_flatMap, Option.mem_toList,
    forall_exists_index, and_imp] at hparts
  obtain ⟨⟨⟨hvalues, hhandlers⟩, hexpressions⟩, hchildren⟩ := hparts
  have hattributes : Alike p (e.elementAttributes element) (e'.elementAttributes element) :=
    elementAttributes_alike h fun a ha part ↦ hvalues part a ha
  refine (h.useRuntime _).bind fun _ _ _ ↦ .ite (fun _ ↦ ?_) fun _ ↦ ?_
  · refine hattributes.bind fun _ _ hattributes ↦ ?_
    exact (expressionList_alike h hchildren).bind fun _ _ hchildren ↦
      .pure fun hp ↦ by rw [hattributes hp, hchildren hp]
  · refine .after fun el ↦ immediate_alike h (hattributes.bind fun _ _ hattributes ↦ ?_)
    refine (h.line fun hp ↦ by rw [hattributes hp]).bind fun _ _ hfirst ↦ ?_
    refine .bind (.mapM fun b hb ↦ bindingLines_alike h (hexpressions b hb) el)
      fun _ _ hbindings ↦ ?_
    refine .bind (.mapM fun listener hlistener ↦
      listenerLines_alike h (hhandlers listener hlistener) el) fun _ _ hlisteners ↦ ?_
    refine (childrenLines_alike h el hchildren).bind fun _ _ hchildren ↦ ?_
    refine (h.line fun _ ↦ rfl).bind fun _ _ hlast ↦ ?_
    exact .pure fun hp ↦ by
      rw [hfirst hp, hbindings hp, hlisteners hp, hchildren hp, hlast hp]

theorem fragmentText_alike {children : List View}
    (hchildren : ∀ child ∈ children, child.Stable p) :
    Alike p (e.fragmentText children) (e'.fragmentText children) := by
  refine .after fun frag ↦ immediate_alike h ?_
  refine (h.line fun _ ↦ rfl).bind fun _ _ hfirst ↦ ?_
  refine (childrenLines_alike h frag hchildren).bind fun _ _ hchildren ↦ ?_
  refine (h.line fun _ ↦ rfl).bind fun _ _ hlast ↦ ?_
  exact .pure fun hp ↦ by rw [hfirst hp, hchildren hp, hlast hp]

theorem callChildren_alike {children : List View}
    (hchildren : ∀ child ∈ children, child.Stable p) :
    Alike p (e.callChildren children) (e'.callChildren children) := by
  unfold callChildren
  split
  · next child =>
    rw [List.forall_mem_singleton] at hchildren
    refine .ite (fun _ ↦ ?_) fun _ ↦ h.expression hchildren
    exact (h.expression hchildren).bind fun _ _ htext ↦ .pure fun hp ↦ by rw [htext hp]
  · exact (expressionList_alike h hchildren).bind fun _ _ htext ↦
      .pure fun hp ↦ by rw [htext hp]

theorem callText_alike (name : Bytes) {props : List (ViewAttribute View)} {children : List View}
    (hvalues : ∀ a ∈ props, ∀ part ∈ a.value, part.Stable p)
    (hchildren : ∀ child ∈ children, child.Stable p) :
    Alike p (e.callText name props children) (e'.callText name props children) := by
  refine .bind (.mapM fun a ha ↦ attributeEntry_alike h (hvalues a ha) false)
    fun _ _ hentries ↦ .ite (fun _ ↦ ?_) fun _ ↦ ?_
  · exact .pure fun hp ↦ by rw [hentries hp]
  · exact (callChildren_alike h hchildren).bind fun _ _ htext ↦
      .pure fun hp ↦ by rw [hentries hp, htext hp]

end Formats

end Emission

end SignalView
