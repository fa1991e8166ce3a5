import SignalView.Script.Program

/-!
# Runs of lowering and writing actions

Both kinds of actions can be chained, and a chain is followed step by step as long as its steps give
a value. Lists are worked off from front to back.
-/

namespace SignalView

variable {α β : Type}

namespace Lower

variable {action : Lower α} {next : α → Lower β} {value : α} {state state' : LoweringState}

theorem bind_of_ok (h : action state = (.ok value, state')) :
    (action >>= next) state = next value state' := by
  simp only [bind, h]

theorem bind_of_error {failure : Failure} (h : action state = (.error failure, state')) :
    (action >>= next) state = (.error failure, state') := by
  simp only [bind, h]

theorem bind_eq_ok {result : β} :
    (action >>= next) state = (.ok result, state') ↔
      ∃ value middle, action state = (.ok value, middle) ∧
        next value middle = (.ok result, state') := by
  cases h : action state with
  | mk outcome middle =>
    cases outcome with
    | ok value =>
      rw [bind_of_ok h]
      refine ⟨fun hnext ↦ ⟨value, middle, rfl, hnext⟩, ?_⟩
      rintro ⟨_, _, ⟨⟩, hnext⟩
      exact hnext
    | error failure => simp [bind_of_error h]

theorem pure_eq_ok {result : α} :
    (pure value : Lower α) state = (.ok result, state') ↔ value = result ∧ state = state' := by
  simp [pure]

theorem id_map_eq (action : Lower α) : id <$> action = action := by
  funext state
  change (action >>= fun value ↦ pure (id value)) state = _
  cases h : action state with
  | mk result state' =>
    cases result with
    | ok value => exact bind_of_ok h
    | error failure => exact bind_of_error h

theorem bind_assoc_eq {γ : Type} (action : Lower α) (next : α → Lower β) (last : β → Lower γ) :
    action >>= next >>= last = action >>= fun value ↦ next value >>= last := by
  funext state
  cases h : action state with
  | mk result state' =>
    cases result with
    | ok value =>
      simp only [bind, h]
    | error failure => rw [bind_of_error h, bind_of_error (bind_of_error h)]

instance : LawfulMonad Lower :=
  LawfulMonad.mk' Lower id_map_eq (fun _ _ ↦ rfl) bind_assoc_eq

end Lower

namespace Emit

variable {action : Emit α} {next : α → Emit β} {value : α} {level : Nat} {state state' : EmitState}

theorem bind_of_ok (h : action level state = .ok (value, state')) :
    (action >>= next) level state = next value level state' := by
  simp only [bind, h]

theorem bind_of_error {failure : Failure} (h : action level state = .error failure) :
    (action >>= next) level state = .error failure := by
  simp only [bind, h]

theorem bind_eq_ok {result : β} :
    (action >>= next) level state = .ok (result, state') ↔
      ∃ value middle, action level state = .ok (value, middle) ∧
        next value level middle = .ok (result, state') := by
  cases h : action level state with
  | ok pair =>
    obtain ⟨value, middle⟩ := pair
    rw [bind_of_ok h]
    refine ⟨fun hnext ↦ ⟨value, middle, rfl, hnext⟩, ?_⟩
    rintro ⟨_, _, ⟨⟩, hnext⟩
    exact hnext
  | error failure => simp [bind_of_error h]

theorem id_map_eq (action : Emit α) : id <$> action = action := by
  funext level state
  change (action >>= fun value ↦ pure (id value)) level state = _
  cases h : action level state with
  | ok result => exact bind_of_ok h
  | error failure => exact bind_of_error h

theorem bind_assoc_eq {γ : Type} (action : Emit α) (next : α → Emit β) (last : β → Emit γ) :
    action >>= next >>= last = action >>= fun value ↦ next value >>= last := by
  funext level state
  cases h : action level state with
  | ok result =>
    obtain ⟨value, state'⟩ := result
    simp only [bind, h]
  | error failure => rw [bind_of_error h, bind_of_error (bind_of_error h)]

instance : LawfulMonad Emit :=
  LawfulMonad.mk' Emit id_map_eq (fun _ _ ↦ rfl) bind_assoc_eq

end Emit

end SignalView
