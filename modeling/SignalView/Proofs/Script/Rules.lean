import SignalView.Proofs.Lowering.Outcome
import SignalView.Proofs.View.Places

/-!
# What writing actions give

An action is looked at together with the same action under a limit that is no lower. Both give the
same value and gather the same things, or the first fails, which it does where the nesting exceeds
its limit and for no other reason. What is gathered are helpers of the runtime and temporaries with
one of a few labels.
-/

namespace SignalView

namespace EmitState

/-- The runtime's exports that views are written with. -/
def helpers : List Bytes := [bytes "$REGISTRY", bytes "t_element", bytes "createEffect"]

/-- What temporaries are called after. -/
def labels : List String := ["el", "frag", "a", "v", "t", "n", "anchor", "nodes", "node"]

/-- A property of what has been gathered that lasts while expressions and statements are written. -/
structure Lasting (runtimeModule : Bytes) (I : EmitState → Prop) : Prop where
  helper {s : EmitState} (h : I s) {name : Bytes} (hname : name ∈ helpers) :
    I { s with imports := s.imports.addNamed runtimeModule name [] false }
  temporary {s : EmitState} (h : I s) {label : String} (hlabel : label ∈ labels) :
    I { s with
      temporaries :=
        (bytes "_" ++ bytes label ++ Bytes.ofNat s.temporaries.length) :: s.temporaries }

end EmitState

open EmitState

namespace Emit

variable {α β : Type}

/-- From a state with a property the action and the deeper one give the same value and go to the
same state, which has the property too; or the action fails because the nesting is too deep, where
deep nesting is allowed for. -/
def Writes (I : EmitState → Prop) (deep : Prop) (action deeper : Emit α) : Prop :=
  ∀ level ⦃state⦄, I state →
    (∃ value state', I state' ∧ action level state = .ok (value, state') ∧
      deeper level state = .ok (value, state')) ∨
    ∃ failure, action level state = .error failure ∧
      failure.code = Failure.depthCode .emitter ∧ deep

variable {I : EmitState → Prop} {deep : Prop} {action deeper : Emit α} {next next' : α → Emit β}

namespace Writes

theorem pure {value : α} : Writes I deep (pure value) (pure value) :=
  fun _ state hstate ↦ .inl ⟨value, state, hstate, rfl, rfl⟩

theorem bind (h : Writes I deep action deeper)
    (hnext : ∀ value, Writes I deep (next value) (next' value)) :
    Writes I deep (action >>= next) (deeper >>= next') := by
  intro level state hstate
  obtain ⟨value, state', hstate', hrun, hdeeper⟩ | ⟨failure, hrun, hcode⟩ := h level hstate
  · rw [bind_of_ok hrun, bind_of_ok hdeeper]
    exact hnext value level hstate'
  · exact .inr ⟨failure, bind_of_error hrun, hcode⟩

theorem ite {c : Prop} [Decidable c] {other other' : Emit α}
    (h : c → Writes I deep action deeper) (hother : ¬c → Writes I deep other other') :
    Writes I deep (if c then action else other) (if c then deeper else other') := by
  split
  · next hc => exact h hc
  · next hc => exact hother hc

theorem tooDeep {limit : Int} {line column : Nat} {other : Emit α} (h : deep) :
    Writes I deep (Emit.fail (.tooDeep .emitter limit line column)) other :=
  fun _ _ _ ↦ .inr ⟨_, rfl, rfl, h⟩

theorem level : Writes I deep Emit.level Emit.level :=
  fun level state hstate ↦ .inl ⟨level, state, hstate, rfl, rfl⟩

theorem modify {change : EmitState → EmitState} (h : ∀ s, I s → I (change s)) :
    Writes I deep (Emit.modify change) (Emit.modify change) :=
  fun _ state hstate ↦ .inl ⟨(), change state, h state hstate, rfl, rfl⟩

theorem indented (h : Writes I deep action deeper) :
    Writes I deep (Emit.indented action) (Emit.indented deeper) :=
  fun level _ hstate ↦ h (level + 1) hstate

theorem temporary {runtimeModule : Bytes} (h : Lasting runtimeModule I) {label : String}
    (hlabel : label ∈ labels) : Writes I deep (Emit.temporary label) (Emit.temporary label) :=
  fun _ _ hstate ↦ .inl ⟨_, _, h.temporary hstate hlabel, rfl, rfl⟩

theorem mapM {items : List α} {f f' : α → Emit β}
    (h : ∀ item ∈ items, Writes I deep (f item) (f' item)) :
    Writes I deep (items.mapM f) (items.mapM f') := by
  induction items with
  | nil => exact pure
  | cons item items ih =>
    rw [List.mapM_cons, List.mapM_cons]
    refine (h item List.mem_cons_self).bind fun _ ↦ ?_
    exact (ih fun _ hmem ↦ h _ (List.mem_cons_of_mem _ hmem)).bind fun _ ↦ pure

theorem forM {items : List α} {f f' : α → Emit PUnit}
    (h : ∀ item ∈ items, Writes I deep (f item) (f' item)) :
    Writes I deep (items.forM f) (items.forM f') := by
  induction items with
  | nil => exact pure
  | cons item items ih =>
    refine (h item List.mem_cons_self).bind fun _ ↦ ?_
    exact ih fun _ hmem ↦ h _ (List.mem_cons_of_mem _ hmem)

end Writes

end Emit

end SignalView
