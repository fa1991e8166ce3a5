import SignalView.Proofs.Lowering.Outcome
import SignalView.Proofs.Syntax.Paths
import SignalView.Proofs.Text.Sorted
import SignalView.Proofs.View.Places

/-!
# What lowering actions give

An action is looked at together with the same action under a limit that is no lower. Both give the
same value, of a kind, or the first fails with one of the faults that a tree can have although
everything in it stands in its place. The rules follow the way in which actions are put together.
-/

namespace SignalView

/-- The exports that the names of primitives stand for. -/
def Primitive.exports : List Bytes :=
  [bytes "createSignal", bytes "createMemo", bytes "createEffect"]

theorem Primitive.canonicalName_mem_exports {name : Bytes} (h : isImplicit name = true) :
    canonicalName name ∈ exports := by
  have hmem : name ∈ [bytes "signal", bytes "computed", bytes "effect", bytes "createSignal",
      bytes "createMemo", bytes "createEffect"] := by
    simpa only [isImplicit, List.contains_iff_mem] using h
  clear h
  revert name
  decide

namespace LoweringState

/-- A property of what has been found out that no action of the lowering breaks. -/
class Lasting (I : LoweringState → Prop) : Prop where
  symbols {s : LoweringState} (h : I s) (table : SymbolTable) : I { s with symbols := table }
  diagnostic {s : LoweringState} (h : I s) {d : Diagnostic} (hd : d.severity = .warning) :
    I { s with diagnostics := s.diagnostics ++ [d] }
  entry {s : LoweringState} (h : I s) (e : Log.Entry) : I { s with log := s.log ++ [e] }
  component {s : LoweringState} (h : I s) (c : Component View) :
    I { s with components := s.components ++ [c] }
  markup {s : LoweringState} (h : I s) : I { s with hasMarkup := true }
  primitive {s : LoweringState} (h : I s) {name : Bytes} (hname : name ∈ Primitive.exports) :
    I { s with primitives := insertSorted Bytes.before name s.primitives }
  key {s : LoweringState} (h : I s) (key : Bytes) : I { s with registered := key :: s.registered }
  runtimeName {s : LoweringState} (h : I s) (binding : Bytes × Bytes) :
    I { s with runtimeNames := binding :: s.runtimeNames }
  facts {s : LoweringState} (h : I s) (facts : Option ComponentFacts) :
    I { s with current := facts }

/-- All that has been reported so far are warnings. -/
def OnlyWarns (s : LoweringState) : Prop := ∀ d ∈ s.diagnostics, d.severity = .warning

instance : Lasting OnlyWarns where
  symbols h _ := h
  diagnostic h _ hd := by simpa [OnlyWarns, or_imp, forall_and] using ⟨h, hd⟩
  entry h _ := h
  component h _ := h
  markup h := h
  primitive h _ _ := h
  key h _ := h
  runtimeName h _ := h
  facts h _ := h

/-- All primitives that are to be imported are exports of the runtime. -/
def ImportsExports (s : LoweringState) : Prop := ∀ name ∈ s.primitives, name ∈ Primitive.exports

instance : Lasting ImportsExports where
  symbols h _ := h
  diagnostic h _ _ := h
  entry h _ := h
  component h _ := h
  markup h := h
  primitive h _ hname other hother := by
    obtain rfl | hother := mem_insertSorted.mp hother
    · exact hname
    · exact h other hother
  key h _ := h
  runtimeName h _ := h
  facts h _ := h

instance {I J : LoweringState → Prop} [Lasting I] [Lasting J] : Lasting fun s ↦ I s ∧ J s where
  symbols h _ := ⟨Lasting.symbols h.1 _, Lasting.symbols h.2 _⟩
  diagnostic h _ hd := ⟨Lasting.diagnostic h.1 hd, Lasting.diagnostic h.2 hd⟩
  entry h _ := ⟨Lasting.entry h.1 _, Lasting.entry h.2 _⟩
  component h _ := ⟨Lasting.component h.1 _, Lasting.component h.2 _⟩
  markup h := ⟨Lasting.markup h.1, Lasting.markup h.2⟩
  primitive h _ hname := ⟨Lasting.primitive h.1 hname, Lasting.primitive h.2 hname⟩
  key h _ := ⟨Lasting.key h.1 _, Lasting.key h.2 _⟩
  runtimeName h _ := ⟨Lasting.runtimeName h.1 _, Lasting.runtimeName h.2 _⟩
  facts h _ := ⟨Lasting.facts h.1 _, Lasting.facts h.2 _⟩

end LoweringState

open LoweringState

namespace Lower

variable {α β : Type}

/-- Malformed parameters of a component, and a key or an attribute that occurs twice. -/
def faultCodes : List Bytes := [bytes "PSR-A001", bytes "PSR-A003", bytes "PSR-A004"]

/-- From a state with a lasting property the action leads to another one and gives a value of a
kind, and so does the deeper one; or it fails with a known fault, which is the nesting only where
deep nesting is allowed for. -/
def Yields (I : LoweringState → Prop) (deep : Prop) (action deeper : Lower α) (Q : α → Prop) :
    Prop :=
  ∀ ⦃state⦄, I state → ∃ state', I state' ∧
    ((∃ value, action state = (.ok value, state') ∧ deeper state = (.ok value, state') ∧ Q value) ∨
      ∃ failure, action state = (.error failure, state') ∧
        (failure.code ∈ faultCodes ∨ failure.code = Failure.depthCode .analyzer ∧ deep))

/-- An action without a limit of its own gives some value or fails with a known fault. -/
abbrev Runs (I : LoweringState → Prop) (deep : Prop) (action : Lower α) : Prop :=
  Yields I deep action action fun _ ↦ True

variable {I : LoweringState → Prop} {deep : Prop} {action deeper : Lower α}
  {next next' : α → Lower β} {P Q : α → Prop} {R : β → Prop}

namespace Yields

theorem mono (h : Yields I deep action deeper P) (hmono : ∀ value, P value → Q value) :
    Yields I deep action deeper Q := by
  intro state hstate
  obtain ⟨state', hstate', hrun⟩ := h hstate
  refine ⟨state', hstate', hrun.imp ?_ id⟩
  rintro ⟨value, hvalue, hdeeper, hP⟩
  exact ⟨value, hvalue, hdeeper, hmono value hP⟩

theorem pure {value : α} (h : Q value) : Yields I deep (pure value) (pure value) Q :=
  fun state hstate ↦ ⟨state, hstate, .inl ⟨value, rfl, rfl, h⟩⟩

theorem bind (h : Yields I deep action deeper P)
    (hnext : ∀ value, P value → Yields I deep (next value) (next' value) R) :
    Yields I deep (action >>= next) (deeper >>= next') R := by
  intro state hstate
  obtain ⟨middle, hmiddle, ⟨value, hrun, hdeeper, hP⟩ | ⟨failure, hrun, hcode⟩⟩ := h hstate
  · rw [bind_of_ok hrun, bind_of_ok hdeeper]
    exact hnext value hP hmiddle
  · exact ⟨middle, hmiddle, .inr ⟨failure, bind_of_error hrun, hcode⟩⟩

theorem ite {c : Prop} [Decidable c] {other other' : Lower α}
    (h : c → Yields I deep action deeper Q) (hother : ¬c → Yields I deep other other' Q) :
    Yields I deep (if c then action else other) (if c then deeper else other') Q := by
  split
  · next hc => exact h hc
  · next hc => exact hother hc

/-- An action that may be left out goes in front of the rest. -/
theorem iteThen {c : Prop} [Decidable c] {action : Lower Unit} {next next' : Unit → Lower β}
    (h : c → Runs I deep action) (hnext : Yields I deep (next ()) (next' ()) R) :
    Yields I deep (if c then action >>= next else next ())
      (if c then action >>= next' else next' ()) R :=
  ite (fun hc ↦ (h hc).bind fun _ _ ↦ hnext) fun _ ↦ hnext

theorem fail {failure : Failure} {other : Lower α} (h : failure.code ∈ faultCodes) :
    Yields I deep (Lower.fail failure) other Q :=
  fun state hstate ↦ ⟨state, hstate, .inr ⟨failure, rfl, .inl h⟩⟩

theorem failAt {code : String} {message : Bytes} {line column : Nat} {other : Lower α}
    (h : bytes code ∈ faultCodes) :
    Yields I deep (Lower.failAt code message line column) other Q :=
  fail h

theorem tooDeep {limit : Int} {line column : Nat} {other : Lower α} (h : deep) :
    Yields I deep (Lower.fail (.tooDeep .analyzer limit line column)) other Q :=
  fun state hstate ↦ ⟨state, hstate, .inr ⟨_, rfl, .inr ⟨rfl, h⟩⟩⟩

/-! ## The state -/

theorem state : Yields I deep Lower.state Lower.state I :=
  fun s hs ↦ ⟨s, hs, .inl ⟨s, rfl, rfl, hs⟩⟩

theorem modify {change : LoweringState → LoweringState} (h : ∀ s, I s → I (change s)) :
    Runs I deep (Lower.modify change) :=
  fun s hs ↦ ⟨change s, h s hs, .inl ⟨(), rfl, rfl, trivial⟩⟩

section Lasting

variable [Lasting I]

theorem remark (level : Log.Level) (phase : Phase) (message : Bytes) :
    Runs I deep (Lower.remark level phase message) := modify fun _ hs ↦ Lasting.entry hs _

theorem report {diagnostic : Diagnostic} (h : diagnostic.severity = .warning) :
    Runs I deep (Lower.report diagnostic) :=
  (remark _ _ _).bind fun _ _ ↦ modify fun _ hs ↦ Lasting.diagnostic hs h

theorem warn (code : String) (message : Bytes) (line column : Nat) :
    Runs I deep (Lower.warn code message line column) := report rfl

theorem noteFact (change : ComponentFacts → ComponentFacts) :
    Runs I deep (Lower.noteFact change) := modify fun _ hs ↦ Lasting.facts hs _

theorem noteDependencies (names : List Bytes) : Runs I deep (Lower.noteDependencies names) :=
  noteFact _

theorem noteListener : Runs I deep Lower.noteListener := noteFact _

theorem noteSignals : Runs I deep Lower.noteSignals := noteFact _

theorem markUsed (name : Bytes) : Runs I deep (Lower.markUsed name) :=
  modify fun _ hs ↦ Lasting.symbols hs _

theorem inScope {kind : ScopeKind} (h : Yields I deep action deeper Q) :
    Yields I deep (Lower.inScope kind action) (Lower.inScope kind deeper) Q := by
  refine bind (modify fun _ hs ↦ Lasting.symbols hs _) fun _ _ ↦ h.bind fun value hvalue ↦ ?_
  exact bind (modify fun _ hs ↦ Lasting.symbols hs _) fun _ _ ↦ pure hvalue

end Lasting

/-! ## Lists and options -/

variable {f f' : α → Lower β}

theorem mapM {items : List α} (h : ∀ item ∈ items, Yields I deep (f item) (f' item) R) :
    Yields I deep (items.mapM f) (items.mapM f') fun values ↦ ∀ value ∈ values, R value := by
  induction items with
  | nil => exact pure (by simp)
  | cons item items ih =>
    rw [List.mapM_cons, List.mapM_cons]
    refine (h item List.mem_cons_self).bind fun value hvalue ↦ ?_
    refine (ih fun _ hmem ↦ h _ (List.mem_cons_of_mem _ hmem)).bind fun values hvalues ↦ pure ?_
    simpa using ⟨hvalue, hvalues⟩

theorem forM {items : List α} {f : α → Lower PUnit} (h : ∀ item ∈ items, Runs I deep (f item)) :
    Runs I deep (items.forM f) := by
  induction items with
  | nil => exact pure trivial
  | cons item items ih =>
    refine (h item List.mem_cons_self).bind fun _ _ ↦ ?_
    exact ih fun _ hmem ↦ h _ (List.mem_cons_of_mem _ hmem)

/-- What is there is worked on, and what is not there stays so. -/
theorem optionMapM {item : Option α} (h : ∀ value ∈ item, Yields I deep (f value) (f' value) R) :
    Yields I deep (item.mapM f) (item.mapM f') fun result ↦
      result.isSome = item.isSome ∧ ∀ value ∈ result, R value := by
  cases item with
  | none => exact pure (by simp)
  | some item => exact (h item rfl).bind fun value hvalue ↦ pure (by simpa using hvalue)

theorem optionForM {item : Option α} {f : α → Lower PUnit}
    (h : ∀ value ∈ item, Runs I deep (f value)) : Runs I deep (item.forM f) := by
  cases item with
  | none => exact pure trivial
  | some item => exact h item rfl

end Yields

end Lower

end SignalView
