import SignalView.Proofs.Lowering.Outcome
import SignalView.Proofs.Script.Imports
import SignalView.Proofs.Script.Rules
import SignalView.Proofs.View.Calls

/-!
# What writing actions account for

An action is run beside one that takes a note of certain views on the way. What the first one
imports from the runtime are the helpers of some calls, all of which are in the text that it gives.
The second one gives a text as well, and takes as many notes as there are views to be counted.
-/

namespace SignalView

/-! ## Calls in texts -/

/-- The calls of an account are in a text. -/
def Account.In (account : Account) (text : Bytes) : Prop :=
  ∀ call ∈ account.1, call.text <:+: text

/-- The calls of an account are in some texts. -/
def Account.InSome (account : Account) (texts : List Bytes) : Prop :=
  ∀ call ∈ account.1, ∃ text ∈ texts, call.text <:+: text

namespace Account

variable {account more : Account} {text other : Bytes} {texts others : List Bytes}

namespace In

theorem zero (text : Bytes) : In 0 text := fun _ h ↦ absurd h (Multiset.notMem_zero _)

theorem mono (h : account.In text) (htext : text <:+: other) : account.In other :=
  fun call hcall ↦ (h call hcall).trans htext

theorem back (h : account.In text) (other : Bytes) : account.In (text ++ other) :=
  h.mono (List.prefix_append _ _).isInfix

theorem front (h : account.In text) (other : Bytes) : account.In (other ++ text) :=
  h.mono (List.suffix_append _ _).isInfix

theorem add (h : account.In text) (h' : more.In other) : (account + more).In (text ++ other) := by
  intro call hcall
  obtain hcall | hcall := Multiset.mem_add.mp hcall
  · exact h.back other call hcall
  · exact h'.front text call hcall

theorem only (h : account.In text) : (0 + account).In text := by
  rwa [zero_add]

theorem call (call : RuntimeCall) : (calling {call}).In call.text := by
  intro other hother
  rw [Multiset.mem_singleton.mp hother]

end In

namespace InSome

theorem nil (texts : List Bytes) : InSome 0 texts := fun _ h ↦ absurd h (Multiset.notMem_zero _)

theorem cons (h : account.In text) (h' : more.InSome texts) :
    (account + more).InSome (text :: texts) := by
  intro call hcall
  obtain hcall | hcall := Multiset.mem_add.mp hcall
  · exact ⟨text, List.mem_cons_self, h call hcall⟩
  · obtain ⟨other, hother, hin⟩ := h' call hcall
    exact ⟨other, List.mem_cons_of_mem _ hother, hin⟩

theorem append (h : account.InSome texts) (h' : more.InSome others) :
    (account + more).InSome (texts ++ others) := by
  intro call hcall
  obtain hcall | hcall := Multiset.mem_add.mp hcall
  · obtain ⟨text, htext, hin⟩ := h call hcall
    exact ⟨text, List.mem_append_left _ htext, hin⟩
  · obtain ⟨text, htext, hin⟩ := h' call hcall
    exact ⟨text, List.mem_append_right _ htext, hin⟩

theorem flatten (h : account.InSome texts) : account.In texts.flatten := by
  intro call hcall
  obtain ⟨text, htext, hin⟩ := h call hcall
  exact hin.trans (List.infix_of_mem_flatten htext)

theorem infix_join (separator : Bytes) (h : text ∈ texts) :
    text <:+: Bytes.join separator texts := by
  induction texts with
  | nil => cases h
  | cons first texts ih =>
    cases texts with
    | nil =>
      rw [List.mem_singleton.mp h]
      simp [Bytes.join]
    | cons second texts =>
      have hjoin : Bytes.join separator (first :: second :: texts) =
          first ++ (separator ++ Bytes.join separator (second :: texts)) := by
        simp [Bytes.join]
      rw [hjoin]
      obtain rfl | h := List.mem_cons.mp h
      · exact (List.prefix_append _ _).isInfix
      · refine (ih h).trans (List.IsSuffix.isInfix ?_)
        exact (List.suffix_append _ _).trans (List.suffix_append _ _)

theorem join (h : account.InSome texts) (separator : Bytes) :
    account.In (Bytes.join separator texts) := by
  intro call hcall
  obtain ⟨text, htext, hin⟩ := h call hcall
  exact hin.trans (infix_join separator htext)

end InSome

end Account

/-! ## Notes -/

namespace EmitState

/-- The label of notes, which no other temporary has. -/
def noteLabel : String := "seen"

/-- Whether a temporary is a note: the label of a note has a letter of its own. -/
def isNote (name : Bytes) : Bool := name[1]? == some (byte 's')

def notes (s : EmitState) : Nat := s.temporaries.countP isNote

/-- From the first state to the second, what has been imported from the runtime are the helpers of
some calls. -/
def Imports (runtimeModule : Bytes) (calls : Multiset RuntimeCall) (s t : EmitState) : Prop :=
  ∀ b : ImportedName, b.source = runtimeModule →
    (b ∈ t.imports.bindings ↔ b ∈ s.imports.bindings ∨
      ∃ call ∈ calls, b = ImportBinding.under runtimeModule ⟨call.helper, call.helper⟩)

variable {runtimeModule : Bytes} {calls more : Multiset RuntimeCall} {s t u : EmitState}

theorem Imports.of_iff (h : ∀ b : ImportedName, b.source = runtimeModule →
    (b ∈ t.imports.bindings ↔ b ∈ s.imports.bindings)) : s.Imports runtimeModule 0 t := by
  intro b hb
  rw [h b hb]
  exact (or_iff_left fun ⟨_, hcall, _⟩ ↦ absurd hcall (Multiset.notMem_zero _)).symm

theorem Imports.refl (himports : t.imports = s.imports) : s.Imports runtimeModule 0 t :=
  .of_iff fun _ _ ↦ by rw [himports]

theorem Imports.trans (h : s.Imports runtimeModule calls t) (h' : t.Imports runtimeModule more u) :
    s.Imports runtimeModule (calls + more) u := by
  intro b hb
  rw [h' b hb, h b hb, or_assoc]
  simp only [Multiset.mem_add, or_and_right, exists_or]

end EmitState

open EmitState

namespace Emit

/-- Takes a note, if something is counted. -/
def noteIf (counted : Bool) : Emit Unit := do
  if counted then
    let _ ← temporary noteLabel

variable {α β : Type} {runtimeModule : Bytes} {done : Account} {action noting : Emit α}
  {next next' : α → Emit β} {P Q : α → Account → Prop} {R : β → Account → Prop}

/-- On top of what is done already, the action imports the helpers of more calls, and the one beside
it takes more notes, from whatever state it starts; the sum is related to the value of the
action. -/
def Accounts (runtimeModule : Bytes) (done : Account) (action noting : Emit α)
    (Q : α → Account → Prop) : Prop :=
  ∀ ⦃level s value t⦄ s', action level s = .ok (value, t) → ∃ (more : Account) (value' : α) (t' : _),
    s.Imports runtimeModule more.1 t ∧ Q value (done + more) ∧
      noting level s' = .ok (value', t') ∧ t'.notes = s'.notes + more.2

/-- The action accounts for some calls, which are in its text, and some notes. -/
def Puts (runtimeModule : Bytes) (action noting : Emit Bytes) (account : Account) : Prop :=
  Accounts runtimeModule 0 action noting fun text done ↦ done = account ∧ account.In text

/-- The action imports nothing, and no note is taken. -/
abbrev Quiet (runtimeModule : Bytes) (action noting : Emit α) : Prop :=
  Accounts runtimeModule 0 action noting fun _ done ↦ done = 0

namespace Accounts

theorem pure {value value' : α} (h : Q value done) :
    Accounts runtimeModule done (Pure.pure value) (Pure.pure value') Q := by
  intro level s _ t s' hrun
  cases hrun
  exact ⟨0, value', s', .refl rfl, by rwa [add_zero], rfl, rfl⟩

theorem mono (h : Accounts runtimeModule done action noting Q)
    (hQ : ∀ value sum, Q value sum → P value sum) :
    Accounts runtimeModule done action noting P := by
  intro level s value t s' hrun
  obtain ⟨more, value', t', himports, hvalue, hnoting⟩ := h s' hrun
  exact ⟨more, value', t', himports, hQ _ _ hvalue, hnoting⟩

/-- What is done already stays done. -/
theorem frame (h : Accounts runtimeModule 0 action noting P) :
    Accounts runtimeModule done action noting fun value sum ↦
      ∃ more, sum = done + more ∧ P value more := by
  intro level s value t s' hrun
  obtain ⟨more, value', t', himports, hP, hnoting, hnotes⟩ := h s' hrun
  exact ⟨more, value', t', himports, ⟨more, rfl, by rwa [zero_add] at hP⟩, hnoting, hnotes⟩

/-- An action is followed by another one. -/
theorem seq (h : Accounts runtimeModule done action noting P)
    (hnext : ∀ value value' sum, P value sum →
      Accounts runtimeModule sum (next value) (next' value') R) :
    Accounts runtimeModule done (action >>= next) (noting >>= next') R := by
  intro level s result t s' hrun
  obtain ⟨value, middle, hvalue, hrest⟩ := bind_eq_ok.mp hrun
  obtain ⟨first, value', middle', hfirst, hP, hnoting, hnotes⟩ := h s' hvalue
  obtain ⟨second, result', t', hsecond, hR, hnotingRest, hmore⟩ := hnext _ value' _ hP middle' hrest
  refine ⟨first + second, result', t', hfirst.trans hsecond, by rwa [← add_assoc], ?_, ?_⟩
  · rw [bind_of_ok hnoting, hnotingRest]
  · rw [hmore, hnotes, add_assoc]
    rfl

theorem bind (h : Accounts runtimeModule 0 action noting P)
    (hnext : ∀ value value' more, P value more →
      Accounts runtimeModule (done + more) (next value) (next' value') R) :
    Accounts runtimeModule done (action >>= next) (noting >>= next') R := by
  refine h.frame.seq ?_
  rintro value value' _ ⟨more, rfl, hmore⟩
  exact hnext value value' more hmore

/-- An action that accounts for nothing goes in front of another. -/
theorem after (h : Quiet runtimeModule action noting)
    (hnext : ∀ value value', Accounts runtimeModule done (next value) (next' value') R) :
    Accounts runtimeModule done (action >>= next) (noting >>= next') R := by
  refine h.bind fun value value' more hmore ↦ ?_
  rw [hmore, add_zero]
  exact hnext value value'

theorem ite {c : Prop} [Decidable c] {other other' : Emit α}
    (h : c → Accounts runtimeModule done action noting Q)
    (hother : ¬c → Accounts runtimeModule done other other' Q) :
    Accounts runtimeModule done (if c then action else other) (if c then noting else other') Q := by
  split
  · next hc => exact h hc
  · next hc => exact hother hc

theorem fail (failure : Failure) : Accounts runtimeModule done (Emit.fail failure) noting Q := by
  intro level s value t s' hrun
  cases hrun

theorem indented (h : Accounts runtimeModule done action noting Q) :
    Accounts runtimeModule done (Emit.indented action) (Emit.indented noting) Q := by
  intro level s value t s' hrun
  exact @h (level + 1) s value t s' hrun

/-- The last text of an action. -/
theorem text {text text' : Bytes} {account : Account} (hdone : done = account)
    (h : done.In text) : Accounts runtimeModule done (Pure.pure text) (Pure.pure text')
      fun text done ↦ done = account ∧ account.In text :=
  pure ⟨hdone, hdone ▸ h⟩

theorem mapM {items : List α} {f f' : α → Emit Bytes} {w : α → Account}
    (h : ∀ item ∈ items, Puts runtimeModule (f item) (f' item) (w item)) :
    Accounts runtimeModule 0 (items.mapM f) (items.mapM f') fun texts done ↦
      done = (items.map w).sum ∧ (items.map w).sum.InSome texts := by
  induction items with
  | nil => exact pure ⟨rfl, .nil _⟩
  | cons item items ih =>
    rw [List.mapM_cons, List.mapM_cons]
    refine (h item List.mem_cons_self).bind ?_
    rintro text text' _ ⟨rfl, htext⟩
    refine (ih fun _ hmem ↦ h _ (List.mem_cons_of_mem _ hmem)).bind ?_
    rintro texts texts' _ ⟨rfl, htexts⟩
    simp only [List.map_cons, List.sum_cons]
    exact pure ⟨by rw [zero_add], .cons htext htexts⟩

end Accounts

namespace Quiet

theorem level : Quiet runtimeModule Emit.level Emit.level := by
  intro level s _ t s' hrun
  cases hrun
  exact ⟨0, level, s', .refl rfl, rfl, rfl, rfl⟩

/-- A temporary with one of the labels of the output is no note. -/
theorem temporary {label : String} (hlabel : label ∈ labels) :
    Quiet runtimeModule (Emit.temporary label) (Emit.temporary label) := by
  have hlabels : ∀ label ∈ labels, 1 < (bytes "_" ++ bytes label).length ∧
      isNote (bytes "_" ++ bytes label) = false := by
    decide
  obtain ⟨hlength, hletter⟩ := hlabels label hlabel
  intro level s _ t s' hrun
  cases hrun
  refine ⟨0, _, _, .refl rfl, rfl, rfl, List.countP_cons_of_neg ?_⟩
  rw [isNote, List.getElem?_append_left hlength]
  exact ne_true_of_eq_false hletter

end Quiet

theorem Accounts.noteIf (counted : Bool) : Accounts runtimeModule 0 (Pure.pure ()) (noteIf counted)
    fun _ done ↦ done = (0, if counted then 1 else 0) := by
  intro level s _ t s' hrun
  cases hrun
  cases counted with
  | true => exact ⟨(0, 1), (), _, .refl rfl, rfl, rfl, List.countP_cons_of_pos rfl⟩
  | false => exact ⟨0, (), s', .refl rfl, rfl, rfl, rfl⟩

end Emit

end SignalView
