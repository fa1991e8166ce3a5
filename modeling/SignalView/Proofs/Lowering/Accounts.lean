import SignalView.Proofs.Lowering.Idle
import SignalView.Proofs.Lowering.Patterns

/-!
# What lowering builds

Every view that an action of the lowering builds is accounted for: the components among them are the
ones that are put on record, each once, and their keys are the ones that are taken. Where the source
stands in its places, each of these views keeps to what is asked of it.
-/

namespace SignalView

open Lower Slot

/-! ## Gains -/

/-- From the first state to the second some views have been built. -/
structure LoweringState.Gains (built : Multiset View) (s t : LoweringState) : Prop where
  components : (t.components : Multiset (Component View)) =
    s.components + built.filterMap View.component?
  registered : (t.registered : Multiset Bytes) =
    s.registered + (built.filterMap View.component?).map (·.registryKey)
  nodup : s.registered.Nodup → t.registered.Nodup
  sound : ∀ view ∈ built, view.Sound

namespace LoweringState.Gains

variable {built more : Multiset View} {s t u : LoweringState}

theorem of_eq (hcomponents : t.components = s.components)
    (hregistered : t.registered = s.registered) : s.Gains 0 t where
  components := by simp [hcomponents]
  registered := by simp [hregistered]
  nodup := hregistered ▸ id
  sound := by simp

theorem trans (h : s.Gains built t) (h' : t.Gains more u) : s.Gains (built + more) u where
  components := by
    rw [h'.components, h.components, Multiset.filterMap_add, add_assoc]
  registered := by
    rw [h'.registered, h.registered, Multiset.filterMap_add, Multiset.map_add, add_assoc]
  nodup := h'.nodup ∘ h.nodup
  sound view hview := (Multiset.mem_add.mp hview).elim (h.sound view) (h'.sound view)

/-- A view that is no component changes nothing on record. -/
theorem add_view (h : s.Gains built t) {view : View} (hview : view.component? = none)
    (hsound : view.Sound) : s.Gains (built + {view}) t where
  components := by
    rw [h.components, Multiset.filterMap_add, ← Multiset.cons_zero,
      Multiset.filterMap_cons_none _ _ hview, Multiset.filterMap_zero, add_zero]
  registered := by
    rw [h.registered, Multiset.filterMap_add, ← Multiset.cons_zero,
      Multiset.filterMap_cons_none _ _ hview, Multiset.filterMap_zero, add_zero]
  nodup := h.nodup
  sound := by simpa [or_imp, forall_and] using ⟨h.sound, hsound⟩

/-- A component takes its key before its parts are built and goes on record after that. -/
theorem add_component {s' t' : LoweringState} (h : s'.Gains built t') {c : Component View}
    (hcomponents : s'.components = s.components)
    (hregistered : s'.registered = c.registryKey :: s.registered)
    (hcomponents' : t.components = t'.components ++ [c])
    (hregistered' : t.registered = t'.registered) (hnew : c.registryKey ∉ s.registered)
    (hsound : c.Sound) (line column : Nat) :
    s.Gains (built + {.rendered line column (.component c)}) t := by
  have hself : Multiset.filterMap View.component? {.rendered line column (.component c)} = {c} := by
    have hview : (View.rendered line column (.component c)).component? = some c := rfl
    rw [← Multiset.cons_zero, Multiset.filterMap_cons_some _ _ _ hview, Multiset.filterMap_zero,
      Multiset.cons_zero]
  exact {
    components := by
      rw [hcomponents', ← Multiset.coe_add, h.components, hcomponents, Multiset.filterMap_add,
        hself, add_assoc, Multiset.coe_singleton]
    registered := by
      rw [hregistered', h.registered, hregistered, Multiset.filterMap_add, hself, Multiset.map_add,
        Multiset.map_singleton, ← Multiset.cons_coe, ← Multiset.singleton_add, add_assoc, add_comm,
        add_assoc]
    nodup := fun hnodup ↦ by
      rw [hregistered']
      exact h.nodup (by simpa [hregistered] using ⟨hnew, hnodup⟩)
    sound := by simpa [or_imp, forall_and] using ⟨h.sound, hsound⟩ }

end LoweringState.Gains

/-! ## Actions -/

namespace Lower

variable {α β : Type} {built : Multiset View} {action : Lower α} {next : α → Lower β}
  {P Q : α → Multiset View → Prop} {R : β → Multiset View → Prop}

/-- After some views have been built, the action builds more of them, if it gives a value, and all
of them together are related to that value. -/
def Builds (built : Multiset View) (action : Lower α) (Q : α → Multiset View → Prop) : Prop :=
  ∀ ⦃s value t⦄, action s = (.ok value, t) → ∃ more, s.Gains more t ∧ Q value (built + more)

namespace Builds

theorem mono (h : Builds built action P) (hmono : ∀ value more, P value more → Q value more) :
    Builds built action Q := by
  intro s value t hrun
  obtain ⟨more, hgains, hP⟩ := h hrun
  exact ⟨more, hgains, hmono value _ hP⟩

theorem pure {value : α} (h : Q value built) : Builds built (Pure.pure value) Q := by
  intro s _ t hrun
  cases hrun
  exact ⟨0, .of_eq rfl rfl, by rwa [add_zero]⟩

theorem bind (h : Builds 0 action P)
    (hnext : ∀ value more, P value more → Builds (built + more) (next value) R) :
    Builds built (action >>= next) R := by
  intro s result t hrun
  obtain ⟨value, middle, hvalue, hresult⟩ := bind_eq_ok.mp hrun
  obtain ⟨first, hfirst, hP⟩ := h hvalue
  rw [zero_add] at hP
  obtain ⟨second, hsecond, hR⟩ := hnext value first hP hresult
  exact ⟨first + second, hfirst.trans hsecond, by rwa [← add_assoc]⟩

/-- An action that leaves the record alone goes in front of another. -/
theorem after (h : Idle action) (hnext : ∀ value, Builds built (next value) R) :
    Builds built (action >>= next) R := by
  intro s result t hrun
  obtain ⟨value, middle, hvalue, hresult⟩ := bind_eq_ok.mp hrun
  obtain ⟨more, hgains, hR⟩ := hnext value hresult
  have hidles := h hvalue
  have hfirst := LoweringState.Gains.of_eq hidles.components hidles.registered
  exact ⟨more, zero_add more ▸ hfirst.trans hgains, hR⟩

/-- To note signals builds nothing. -/
theorem afterNoting {names : List Bytes} {next : Unit → Lower β}
    (hnext : Builds built (next ()) R) : Builds built (noteDependencies names >>= next) R := by
  intro s result t hrun
  obtain ⟨_, _, ⟨⟩, hresult⟩ := bind_eq_ok.mp hrun
  obtain ⟨more, hgains, hR⟩ := hnext hresult
  exact ⟨more, ⟨hgains.components, hgains.registered, hgains.nodup, hgains.sound⟩, hR⟩

theorem ite {c : Prop} [Decidable c] {other : Lower α} (h : c → Builds built action Q)
    (hother : ¬c → Builds built other Q) : Builds built (if c then action else other) Q := by
  split
  · next hc => exact h hc
  · next hc => exact hother hc

/-- An action that may be left out goes in front of the rest. -/
theorem iteThen {c : Prop} [Decidable c] {action : Lower Unit} {next : Unit → Lower β}
    (h : Idle action) (hnext : Builds built (next ()) R) :
    Builds built (if c then action >>= next else next ()) R :=
  ite (fun _ ↦ after h fun _ ↦ hnext) fun _ ↦ hnext

theorem fail (failure : Failure) : Builds built (Lower.fail failure) Q := by
  intro s _ t hrun
  cases hrun

theorem failAt (code : String) (message : Bytes) (line column : Nat) :
    Builds built (Lower.failAt code message line column) Q :=
  fail _

theorem inScope (h : Builds built action Q) (kind : ScopeKind) :
    Builds built (Lower.inScope kind action) Q := by
  intro s value t hrun
  obtain ⟨middle, haction, rfl⟩ := inScope_eq_ok.mp hrun
  obtain ⟨more, hgains, hQ⟩ := h haction
  exact ⟨more, ⟨hgains.components, hgains.registered, hgains.nodup, hgains.sound⟩, hQ⟩

/-- A view joins its parts, unless it is a component, which goes on record as well. -/
theorem view {view : View} (hsound : view.Sound) (hcomponent : view.component? = none)
    (hbuilt : built = Slot.subviews view.slots) :
    Builds built (Pure.pure view) fun view built ↦ built = view.subviews := by
  intro s _ t hrun
  cases hrun
  have hgains : s.Gains (0 + {view}) s :=
    (LoweringState.Gains.of_eq rfl rfl).add_view hcomponent hsound
  refine ⟨0 + {view}, hgains, ?_⟩
  simp only [View.subviews_eq, hbuilt, zero_add, ← Multiset.singleton_add, add_comm]

/-! ## Lists and options -/

variable {f : α → Lower β} {w : β → Multiset View}

theorem mapM {items : List α}
    (h : ∀ item ∈ items, Builds 0 (f item) fun value built ↦ built = w value) :
    Builds 0 (items.mapM f) fun values built ↦
      values.length = items.length ∧ built = (values.map w).sum := by
  induction items with
  | nil => exact pure ⟨rfl, rfl⟩
  | cons item items ih =>
    rw [List.mapM_cons]
    refine (h item List.mem_cons_self).bind ?_
    rintro value _ rfl
    refine (ih fun _ hmem ↦ h _ (List.mem_cons_of_mem _ hmem)).bind ?_
    rintro values _ ⟨hlength, rfl⟩
    exact pure (by simp [hlength])

/-- Each of the values has a property. -/
theorem mapMEach {p : β → Prop} {items : List α}
    (h : ∀ item ∈ items, Builds 0 (f item) fun value built ↦ p value ∧ built = w value) :
    Builds 0 (items.mapM f) fun values built ↦
      (∀ value ∈ values, p value) ∧ built = (values.map w).sum := by
  induction items with
  | nil => exact pure ⟨by simp, rfl⟩
  | cons item items ih =>
    rw [List.mapM_cons]
    refine (h item List.mem_cons_self).bind ?_
    rintro value _ ⟨hvalue, rfl⟩
    refine (ih fun _ hmem ↦ h _ (List.mem_cons_of_mem _ hmem)).bind ?_
    rintro values _ ⟨hvalues, rfl⟩
    exact pure ⟨List.forall_mem_cons.mpr ⟨hvalue, hvalues⟩, by simp⟩

/-- The value has a property, if there is one. -/
theorem optionMapMEach {p : β → Prop} {item : Option α}
    (h : ∀ value ∈ item, Builds 0 (f value) fun value built ↦ p value ∧ built = w value) :
    Builds 0 (item.mapM f) fun value built ↦ value.isSome = item.isSome ∧
      (∀ part ∈ value, p part) ∧ built = (value.toList.map w).sum := by
  cases item with
  | none => exact pure ⟨rfl, by simp, rfl⟩
  | some item =>
    refine (h item rfl).bind ?_
    rintro value _ ⟨hvalue, rfl⟩
    exact pure (by simpa using hvalue)

theorem optionMapM {item : Option α}
    (h : ∀ value ∈ item, Builds 0 (f value) fun value built ↦ built = w value) :
    Builds 0 (item.mapM f) fun value built ↦
      value.isSome = item.isSome ∧ built = (value.toList.map w).sum :=
  (optionMapMEach (p := fun _ ↦ True) fun value hvalue ↦
    (h value hvalue).mono fun _ _ hbuilt ↦ ⟨trivial, hbuilt⟩).mono fun _ _ h ↦ ⟨h.1, h.2.2⟩

end Builds

end Lower

end SignalView
