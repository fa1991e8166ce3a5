import SignalView.Proofs.Lowering.Outcome
import SignalView.Proofs.View.Sound
import SignalView.Script.Statement

/-!
# Exports and the module format

Only exports are written by the format of the module. What writes no export is written the same in
all formats.
-/

namespace SignalView

/-! ## Exports that are written by the module format

An export is written by the format of the module wherever it stands, in a namespace or in a function
as well as at the level of the module. What exports only types is written the same in all formats.
-/

section

open Slot

namespace View

/-- Whether the view is an export whose text is chosen by the module format. -/
def readsFormat : View → Bool
  | .plain _ _ (.exportNamed (some declaration) _ _ _) =>
    !(Emission.valueNames declaration).isEmpty
  | .plain _ _ (.exportNamed none _ _ typeOnly) | .plain _ _ (.exportAll _ _ typeOnly) => !typeOnly
  | .plain _ _ (.exportDefault (.expression _)) => true
  | .plain _ _ (.exportDefault (.declaration declaration)) =>
    !(Emission.isConstant declaration && (Emission.declaredName declaration).isEmpty)
  | _ => false

/-- No export in the view is written by the module format. -/
def FormatFree (view : View) : Prop := ∀ part ∈ view.subviews, part.readsFormat = false

/-- What a view is made of is sound, and under a condition no export in it is written by the module
format. -/
def Stable (p : Prop) (view : View) : Prop :=
  ∀ part ∈ view.subviews, part.Sound ∧ (p → part.readsFormat = false)

theorem stable_iff {p : Prop} {view : View} : view.Stable p ↔
    (view.Sound ∧ (p → view.readsFormat = false)) ∧
      ∀ part ∈ parts view.slots, part.Stable p := by
  rw [Stable, subviews_eq, Multiset.forall_mem_cons]
  apply and_congr_right
  intro _
  constructor
  · intro h part hpart inner hinner
    exact h inner (Slot.mem_subviews.mpr ⟨part, hpart, hinner⟩)
  · intro h inner hinner
    obtain ⟨part, hpart, hinner⟩ := Slot.mem_subviews.mp hinner
    exact h part hpart inner hinner

end View

end

/-! ## Writing in two formats

An action is looked at together with the same action for another module format. Both fail with the
same failure, or both give a value and gather the same things; where no export is written by the
format, they give the same value. The rules follow the way in which actions are put together.
-/

namespace Emit

variable {α β : Type}

/-- An action that gives a value and gathers nothing. -/
def Still (action : Emit α) : Prop := ∀ level s, ∃ value, action level s = .ok (value, s)

/-- From every state the actions fail alike, or they lead to the same state. Under a condition they
give the same value. -/
def Alike (p : Prop) (action other : Emit α) : Prop :=
  ∀ level s,
    (∃ failure, action level s = .error failure ∧ other level s = .error failure) ∨
      ∃ value value' t, action level s = .ok (value, t) ∧ other level s = .ok (value', t) ∧
        (p → value = value')

variable {p : Prop} {action other : Emit α} {next next' : α → Emit β}

namespace Still

theorem pure (value : α) : Still (Pure.pure value) := fun _ _ ↦ ⟨value, rfl⟩

theorem bind (h : Still action) (hnext : ∀ value, Still (next value)) :
    Still (action >>= next) := by
  intro level s
  obtain ⟨value, hrun⟩ := h level s
  rw [bind_of_ok hrun]
  exact hnext value level s

theorem ite {c : Prop} [Decidable c] {action' : Emit α} (h : Still action) (h' : Still action') :
    Still (if c then action else action') := by
  split
  · exact h
  · exact h'

end Still

namespace Alike

theorem of_still (h : Still action) (h' : Still other) (heq : p → action = other) :
    Alike p action other := by
  intro level s
  obtain ⟨value, hrun⟩ := h level s
  obtain ⟨value', hrun'⟩ := h' level s
  refine .inr ⟨value, value', s, hrun, hrun', fun hp ↦ ?_⟩
  rw [heq hp, hrun'] at hrun
  cases hrun
  rfl

theorem refl (action : Emit α) : Alike p action action := by
  intro level s
  cases action level s with
  | error failure => exact .inl ⟨failure, rfl, rfl⟩
  | ok result => exact .inr ⟨result.1, result.1, result.2, rfl, rfl, fun _ ↦ rfl⟩

theorem pure {value value' : α} (h : p → value = value') :
    Alike p (Pure.pure value) (Pure.pure value') :=
  fun _ s ↦ .inr ⟨value, value', s, rfl, rfl, h⟩

theorem bind (h : Alike p action other)
    (hnext : ∀ value value', (p → value = value') → Alike p (next value) (next' value')) :
    Alike p (action >>= next) (other >>= next') := by
  intro level s
  obtain ⟨failure, hrun, hother⟩ | ⟨value, value', t, hrun, hother, hvalue⟩ := h level s
  · exact .inl ⟨failure, bind_of_error hrun, bind_of_error hother⟩
  · rw [bind_of_ok hrun, bind_of_ok hother]
    exact hnext value value' hvalue level t

/-- The same action in front of two others. -/
theorem after (hnext : ∀ value, Alike p (next value) (next' value)) :
    Alike p (action >>= next) (action >>= next') := by
  intro level s
  cases hrun : action level s with
  | error failure => exact .inl ⟨failure, bind_of_error hrun, bind_of_error hrun⟩
  | ok result =>
    rw [bind_of_ok hrun, bind_of_ok hrun]
    exact hnext result.1 level result.2

theorem ite {c : Prop} [Decidable c] {action' other' : Emit α} (h : c → Alike p action other)
    (h' : ¬c → Alike p action' other') :
    Alike p (if c then action else action') (if c then other else other') := by
  split
  · next hc => exact h hc
  · next hc => exact h' hc

theorem indented (h : Alike p action other) :
    Alike p (Emit.indented action) (Emit.indented other) :=
  fun level s ↦ h (level + 1) s

theorem mapM {items : List α} {f f' : α → Emit β} (h : ∀ item ∈ items, Alike p (f item) (f' item)) :
    Alike p (items.mapM f) (items.mapM f') := by
  induction items with
  | nil => exact refl _
  | cons item items ih =>
    rw [List.forall_mem_cons] at h
    rw [List.mapM_cons, List.mapM_cons]
    refine h.1.bind fun value value' hvalue ↦ (ih h.2).bind fun values values' hvalues ↦ ?_
    exact pure fun hp ↦ by rw [hvalue hp, hvalues hp]

/-- Two runs over a list, side by side. -/
theorem exists_rows {items : List α} {f f' : α → Emit β} {P : α → Prop}
    (h : ∀ item ∈ items, Alike (P item) (f item) (f' item)) (level : Nat) (s : EmitState) :
    (∃ failure, items.mapM f level s = .error failure ∧
      items.mapM f' level s = .error failure) ∨
    ∃ (rows : List (β × β)) (t : EmitState),
      items.mapM f level s = .ok (rows.map Prod.fst, t) ∧
      items.mapM f' level s = .ok (rows.map Prod.snd, t) ∧
      List.Forall₂ (fun item row ↦ P item → row.1 = row.2) items rows := by
  induction items generalizing s with
  | nil => exact .inr ⟨[], s, rfl, rfl, .nil⟩
  | cons item items ih =>
    rw [List.forall_mem_cons] at h
    rw [List.mapM_cons, List.mapM_cons]
    obtain ⟨failure, hrun, hother⟩ | ⟨value, value', t, hrun, hother, hvalue⟩ := h.1 level s
    · exact .inl ⟨failure, bind_of_error hrun, bind_of_error hother⟩
    · rw [bind_of_ok hrun, bind_of_ok hother]
      obtain ⟨failure, hrun, hother⟩ | ⟨rows, t, hrun, hother, hrows⟩ := ih h.2 t
      · exact .inl ⟨failure, bind_of_error hrun, bind_of_error hother⟩
      · exact .inr ⟨(value, value') :: rows, t, bind_of_ok hrun, bind_of_ok hother,
          .cons hvalue hrows⟩

theorem eq (h : Alike True action other) : action = other := by
  funext level s
  obtain ⟨failure, hrun, hother⟩ | ⟨value, value', t, hrun, hother, hvalue⟩ := h level s
  · rw [hrun, hother]
  · rw [hrun, hother, hvalue trivial]

end Alike

end Emit

namespace Emission

open Emit

theorem pad_still (e : Emission) : Still e.pad := fun _ _ ↦ ⟨_, rfl⟩

/-- The entry points of two groups write alike what is sound, and they write the same where no
export is written by the module format. -/
structure Parallel (p : Prop) (e e' : Emission) : Prop where
  indent : e'.options.indent = e.options.indent
  runtimeModule : e'.options.runtimeModule = e.options.runtimeModule
  statement {view : View} (h : view.Stable p) : Alike p (e.statement view) (e'.statement view)
  expression {view : View} (h : view.Stable p) : Alike p (e.expression view) (e'.expression view)

namespace Parallel

variable {p : Prop} {e e' : Emission} (h : Parallel p e e')
include h

theorem pad : Alike p e.pad e'.pad := by
  have hpad : e'.pad = e.pad := by rw [Emission.pad, Emission.pad, h.indent]
  rw [hpad]
  exact .refl _

theorem line {text text' : Bytes} (htext : p → text = text') :
    Alike p (e.line text) (e'.line text') :=
  h.pad.bind fun margin margin' hmargin ↦ .pure fun hp ↦ by rw [hmargin hp, htext hp]

theorem useRuntime (name : Bytes) : Alike p (e.useRuntime name) (e'.useRuntime name) := by
  have huse : e'.useRuntime name = e.useRuntime name := by
    rw [Emission.useRuntime, Emission.useRuntime, h.runtimeModule]
  rw [huse]
  exact .refl _

end Parallel

end Emission

end SignalView
