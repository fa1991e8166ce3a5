import SignalView.Proofs.Script.Expressions

/-!
# Writing markup

What an element, a fragment or a call of a component is made of stands in its slots. Writing it
imports helpers and takes temporaries, and nothing else is gathered.
-/

namespace SignalView

open EmitState Slot

namespace Emission

open Emit

section Served

variable {I : EmitState → Prop} {deep : Prop} {n : Nat} {e e' : Emission}
  (h : Serves I deep n e e')

include h

/-! ## Attributes -/

theorem attributeEntry_writes {a : ViewAttribute View}
    (ha : AllHold (View.Placed deep n) a.slots) (domNames : Bool) :
    Writes I deep (e.attributeEntry domNames a) (e'.attributeEntry domNames a) := by
  obtain ⟨-, hvalue⟩ := allHold_held.mp ha
  refine .ite (fun _ ↦ ?_) fun _ ↦ ?_
  · exact (optionalExpression_writes h hvalue).bind fun _ ↦ .pure
  · cases hsome : a.value with
    | none => exact .bind .pure fun _ ↦ .pure
    | some value => exact (h.value (hvalue value hsome)).bind fun _ ↦ .pure

theorem elementAttributes_writes {element : ElementShape View}
    (helement : ∀ a ∈ element.attributes, AllHold (View.Placed deep n) a.slots) :
    Writes I deep (e.elementAttributes element) (e'.elementAttributes element) :=
  (Writes.mapM fun a ha ↦ attributeEntry_writes h (helement a ha) true).bind fun _ ↦ .pure

theorem attributeEffect_writes {b : PropertyBinding View}
    (hb : b.expression.Placed deep n .expression) (el : Bytes) :
    Writes I deep (e.attributeEffect el b) (e'.attributeEffect el b) := by
  refine (h.useRuntime (by simp [helpers])).bind fun _ ↦ ?_
  refine (h.temporary (by simp [labels])).bind fun v ↦ ?_
  refine Writes.bind (.indented ?_) fun _ ↦ ?_
  · refine (h.value hb).bind fun _ ↦ (h.line _).bind fun _ ↦ (h.line _).bind fun _ ↦ ?_
    exact (h.line _).bind fun _ ↦ .pure
  · exact (h.line _).bind fun _ ↦ (h.line _).bind fun _ ↦ .pure

theorem bindingLines_writes {b : PropertyBinding View}
    (hb : b.expression.Placed deep n .expression) (el : Bytes) :
    Writes I deep (e.bindingLines el b) (e'.bindingLines el b) := by
  refine .ite (fun _ ↦ attributeEffect_writes h hb el) fun _ ↦ ?_
  refine (h.useRuntime (by simp [helpers])).bind fun _ ↦ ?_
  exact (arrowBody_writes h hb).bind fun _ ↦ h.line _

theorem listenerLines_writes {listener : Listener View}
    (hlistener : listener.handler.Placed deep n .expression) (el : Bytes) :
    Writes I deep (e.listenerLines el listener) (e'.listenerLines el listener) :=
  (h.value hlistener).bind fun _ ↦ h.line _

/-! ## Children -/

theorem guardedLines_writes (parent value : Bytes) :
    Writes I deep (e.guardedLines parent value) (e'.guardedLines parent value) := by
  refine (h.temporary (by simp [labels])).bind fun v ↦ ?_
  exact (h.line _).bind fun _ ↦ (h.line _).bind fun _ ↦ .pure

theorem listLines_writes {value : View} (hvalue : value.Placed deep n .expression)
    (parent : Bytes) : Writes I deep (e.listLines parent value) (e'.listLines parent value) := by
  refine (h.temporary (by simp [labels])).bind fun v ↦ ?_
  refine (h.temporary (by simp [labels])).bind fun m ↦ (h.value hvalue).bind fun _ ↦ ?_
  refine (h.line _).bind fun _ ↦ (h.line _).bind fun _ ↦ ?_
  exact Writes.bind (.indented (h.line _)) fun _ ↦ (h.line _).bind fun _ ↦ .pure

theorem regionNames_writes : Writes I deep regionNames regionNames := by
  refine (h.temporary (by simp [labels])).bind fun anchor ↦ ?_
  refine (h.temporary (by simp [labels])).bind fun nodes ↦ ?_
  refine (h.temporary (by simp [labels])).bind fun value ↦ ?_
  refine (h.temporary (by simp [labels])).bind fun member ↦ ?_
  exact (h.temporary (by simp [labels])).bind fun node ↦ .pure

theorem regionMembers_writes (names : RegionNames) :
    Writes I deep (e.regionMembers names) (e'.regionMembers names) := by
  refine (h.line _).bind fun _ ↦ (h.line _).bind fun _ ↦ ?_
  exact (h.line _).bind fun _ ↦ (h.line _).bind fun _ ↦ .pure

theorem regionBody_writes {value : View} (hvalue : value.Placed deep n .expression)
    (names : RegionNames) :
    Writes I deep (e.regionBody names value) (e'.regionBody names value) := by
  refine (h.value hvalue).bind fun _ ↦ (h.line _).bind fun _ ↦ (h.line _).bind fun _ ↦ ?_
  refine (h.line _).bind fun _ ↦ (h.line _).bind fun _ ↦ ?_
  refine Writes.bind (.indented (regionMembers_writes h names)) fun _ ↦ ?_
  exact (h.line _).bind fun _ ↦ .pure

theorem regionLines_writes {value : View} (hvalue : value.Placed deep n .expression)
    (parent : Bytes) :
    Writes I deep (e.regionLines parent value) (e'.regionLines parent value) := by
  refine (h.useRuntime (by simp [helpers])).bind fun _ ↦ ?_
  refine (regionNames_writes h).bind fun names ↦ (h.line _).bind fun _ ↦ ?_
  refine (h.line _).bind fun _ ↦ (h.line _).bind fun _ ↦ (h.line _).bind fun _ ↦ ?_
  refine Writes.bind (.indented (regionBody_writes h hvalue names)) fun _ ↦ ?_
  exact (h.line _).bind fun _ ↦ .pure

theorem textLines_writes {value : View} (hvalue : value.Placed deep n .expression)
    (parent : Bytes) (isNullable : Bool) :
    Writes I deep (e.textLines parent isNullable value) (e'.textLines parent isNullable value) := by
  refine (h.useRuntime (by simp [helpers])).bind fun _ ↦ ?_
  refine (h.temporary (by simp [labels])).bind fun t ↦ .ite (fun _ ↦ ?_) fun _ ↦ ?_
  · refine (h.temporary (by simp [labels])).bind fun v ↦ (h.value hvalue).bind fun _ ↦ ?_
    refine .bind .pure fun _ ↦ (h.line _).bind fun _ ↦ (h.line _).bind fun _ ↦ ?_
    exact (h.line _).bind fun _ ↦ .pure
  · refine (arrowBody_writes h hvalue).bind fun _ ↦ (h.line _).bind fun _ ↦ ?_
    exact (h.line _).bind fun _ ↦ (h.line _).bind fun _ ↦ .pure

theorem nodeLines_writes {view : View} (hview : view.Placed deep n .expression) (parent : Bytes) :
    Writes I deep (e.nodeLines parent view) (e'.nodeLines parent view) :=
  (h.value hview).bind fun _ ↦ h.line _

theorem valueLines_writes {value : View} (hvalue : value.Placed deep n .expression)
    (parent : Bytes) (c : Classification) (isSpread : Bool) :
    Writes I deep (e.valueLines parent c isSpread value)
      (e'.valueLines parent c isSpread value) := by
  refine .ite (fun _ ↦ textLines_writes h hvalue _ _) fun _ ↦ ?_
  refine .ite (fun _ ↦ regionLines_writes h hvalue _) fun _ ↦ ?_
  refine .ite (fun _ ↦ listLines_writes h hvalue _) fun _ ↦ ?_
  refine .ite (fun _ ↦ ?_) fun _ ↦ (h.value hvalue).bind fun _ ↦ h.line _
  exact (h.value hvalue).bind fun _ ↦ guardedLines_writes h _ _

theorem childLines_writes {child : View} (hchild : child.Placed deep n .expression)
    (parent : Bytes) : Writes I deep (e.childLines parent child) (e'.childLines parent child) := by
  unfold childLines
  split
  · exact h.line _
  · next classification value =>
    have hvalue : value.Placed deep n .expression := by
      simpa [Rendered.slots] using hchild.rendered_slots
    refine .ite (fun _ ↦ nodeLines_writes h hvalue parent) fun _ ↦ ?_
    split
    · next argument _ =>
      have hargument : argument.Placed deep n .expression := by
        simpa [Plain.slots] using hvalue.plain_slots
      exact valueLines_writes h hargument _ _ _
    · exact valueLines_writes h hvalue _ _ _
  · exact nodeLines_writes h hchild parent

/-! ## Elements, fragments and calls -/

theorem immediate_writes {lines lines' : Emit Bytes} (hlines : Writes I deep lines lines') :
    Writes I deep (e.immediate lines) (e'.immediate lines') :=
  hlines.indented.bind fun _ ↦ h.pad.bind fun _ ↦ .pure

theorem elementText_writes {element : ElementShape View}
    (helement : AllHold (View.Placed deep n) element.slots) :
    Writes I deep (e.elementText element) (e'.elementText element) := by
  simp only [ElementShape.slots, allHold_append, allHold_flatMap, allHold_filled,
    List.forall_mem_map] at helement
  obtain ⟨⟨⟨hattributes, hlisteners⟩, hbindings⟩, hchildren⟩ := helement
  refine (h.useRuntime (by simp [helpers])).bind fun _ ↦ .ite (fun _ ↦ ?_) fun _ ↦ ?_
  · refine (elementAttributes_writes h hattributes).bind fun _ ↦ ?_
    exact (expressionList_writes h hchildren).bind fun _ ↦ .pure
  · refine (h.temporary (by simp [labels])).bind fun el ↦ immediate_writes h ?_
    refine (elementAttributes_writes h hattributes).bind fun _ ↦ (h.line _).bind fun _ ↦ ?_
    refine Writes.bind (.mapM fun b hb ↦ bindingLines_writes h (hbindings b hb) el) fun _ ↦ ?_
    refine Writes.bind (.mapM fun a ha ↦ listenerLines_writes h (hlisteners a ha) el) fun _ ↦ ?_
    refine Writes.bind (.mapM fun c hc ↦ childLines_writes h (hchildren c hc) el) fun _ ↦ ?_
    exact (h.line _).bind fun _ ↦ .pure

theorem fragmentText_writes {children : List View}
    (hchildren : ∀ child ∈ children, child.Placed deep n .expression) :
    Writes I deep (e.fragmentText children) (e'.fragmentText children) := by
  refine (h.temporary (by simp [labels])).bind fun frag ↦ immediate_writes h ?_
  refine (h.line _).bind fun _ ↦ ?_
  refine Writes.bind (.mapM fun c hc ↦ childLines_writes h (hchildren c hc) frag) fun _ ↦ ?_
  exact (h.line _).bind fun _ ↦ .pure

theorem callChildren_writes {children : List View}
    (hchildren : ∀ child ∈ children, child.Placed deep n .expression) :
    Writes I deep (e.callChildren children) (e'.callChildren children) := by
  unfold callChildren
  split
  · next child =>
    have hchild : child.Placed deep n .expression := by simpa using hchildren
    exact .ite (fun _ ↦ (h.value hchild).bind fun _ ↦ .pure) fun _ ↦ h.value hchild
  · exact (expressionList_writes h hchildren).bind fun _ ↦ .pure

theorem callText_writes {props : List (ViewAttribute View)} {children : List View}
    (hprops : ∀ a ∈ props, AllHold (View.Placed deep n) a.slots)
    (hchildren : ∀ child ∈ children, child.Placed deep n .expression) (name : Bytes) :
    Writes I deep (e.callText name props children) (e'.callText name props children) := by
  refine Writes.bind (.mapM fun a ha ↦ attributeEntry_writes h (hprops a ha) false) fun _ ↦ ?_
  refine .ite (fun _ ↦ .bind .pure fun _ ↦ .pure) fun _ ↦ ?_
  exact (callChildren_writes h hchildren).bind fun _ ↦ .bind .pure fun _ ↦ .pure

end Served

end Emission

end SignalView
