import SignalView.Proofs.Grammar.Levels
import SignalView.Proofs.Grammar.Tape

/-!
# Values on a tape

What the values of an action are like when it starts on a tape and does not fail. The action stays
on the tape, so that every token which it looks at is one of the program's or stands for the end of
input. However many rounds it is given, and however deep it may go, makes no difference.
-/

namespace SignalView.Tape

open Parse (Under)

variable {α β σ : Type} {tape : Tape} {p q : Nat} {action other : Parse α} {P Q : α → Prop}
  {R : β → Prop}

/-- From a place the action comes to a place with a value of a kind, unless it fails. -/
def Provides (tape : Tape) (p : Nat) (action : Parse α) (Q : α → Prop) : Prop :=
  ∀ ⦃context value cursor⦄, context.final = tape.final → p ≤ tape.size →
    action context (tape.cursor p) = .ok value cursor →
    Q value ∧ ∃ q ≤ tape.size, cursor = tape.cursor q

/-- From each place the action comes to a place, unless it fails. -/
class Stays (tape : Tape) (action : Parse α) : Prop where
  provides : ∀ p, tape.Provides p action fun _ ↦ True

/-- A total reading has the value that the run has. -/
theorem Reads.provides {Q : α → Nat → Prop} (h : tape.Reads p p action Q) :
    tape.Provides p action fun value ↦ ∃ q, Q value q := by
  intro context value cursor hfinal hp hrun
  have hbeside : tape.Beside context context := ⟨hfinal, hfinal, Int.le_refl _, rfl, rfl⟩
  obtain ⟨value', q, hrun', -, -, hq, hvalue⟩ | ⟨failure, q, hfailed, -⟩ :=
    h (Nat.le_refl p) hp hbeside
  · rw [hrun] at hrun'
    cases hrun'
    exact ⟨⟨q, hvalue⟩, q, hq, rfl⟩
  · rw [hrun] at hfailed
    cases hfailed

theorem Stays.of_reads {Q : Nat → α → Nat → Prop} (h : ∀ p, tape.Reads p p action (Q p)) :
    tape.Stays action where
  provides p := fun _ _ _ hfinal hp hrun ↦ ⟨trivial, ((h p).provides hfinal hp hrun).2⟩

namespace Provides

theorem mono (h : tape.Provides p action P) (hmono : ∀ value, P value → Q value) :
    tape.Provides p action Q := by
  intro context value cursor hfinal hp hrun
  obtain ⟨hvalue, hplace⟩ := h hfinal hp hrun
  exact ⟨hmono value hvalue, hplace⟩

theorem within (h : p ≤ tape.size → tape.Provides p action Q) : tape.Provides p action Q :=
  fun _ _ _ hfinal hp ↦ h hp hfinal hp

/-- What stays on the tape and gives a value of a kind may be looked at for its place alone. -/
theorem any (h : tape.Provides p action P) : tape.Provides p action fun _ ↦ True :=
  h.mono fun _ _ ↦ trivial

theorem bind {next : α → Parse β} (h : tape.Provides p action P)
    (hnext : ∀ value q, P value → tape.Provides q (next value) R) :
    tape.Provides p (action >>= next) R := by
  intro context value cursor hfinal hp hrun
  obtain ⟨first, middle, haction, hrun⟩ := Parse.bind_eq_ok hrun
  obtain ⟨hfirst, q, hq, rfl⟩ := h hfinal hp haction
  exact hnext first q hfirst hfinal hq hrun

/-- An action whose value does not matter comes first. -/
theorem skip {next : α → Parse β} [h : tape.Stays action]
    (hnext : ∀ value q, tape.Provides q (next value) R) :
    tape.Provides p (action >>= next) R :=
  (h.provides p).bind fun value q _ ↦ hnext value q

theorem pure {value : α} (h : Q value) : tape.Provides p (pure value) Q := by
  intro context result cursor hfinal hp hrun
  obtain ⟨rfl, rfl⟩ := Parse.pure_eq_ok hrun
  exact ⟨h, p, hp, rfl⟩

theorem ite {c : Prop} [Decidable c] (h : c → tape.Provides p action Q)
    (hother : ¬c → tape.Provides p other Q) :
    tape.Provides p (if c then action else other) Q := by
  split
  · next hc => exact h hc
  · next hc => exact hother hc

theorem failWith (failure : Failure) :
    tape.Provides p (Parse.failWith failure : Parse α) Q := by
  intro context value cursor hfinal hp hrun
  cases hrun

/-! ## Questions -/

theorem ask {value : α} {next : α → Parse β} [h : Asks tape p action value]
    (hnext : tape.Provides p (next value) R) : tape.Provides p (action >>= next) R := by
  intro context result cursor hfinal hp hrun
  rw [Parse.bind_of_ok (h.run context hfinal)] at hrun
  exact hnext hfinal hp hrun

theorem fail (code message : String) : tape.Provides p (Parse.fail code message : Parse α) Q :=
  ask (failWith _)

section Conditions

variable {condition : Parse Bool} {c : Prop} [hcondition : Tests tape p condition q c]
include hcondition

theorem decide {next : Bool → Parse β} (h : c → tape.Provides q (next true) R)
    (hother : tape.Provides p (next false) R) :
    tape.Provides p (condition >>= next) R := by
  intro context value cursor hfinal hp hrun
  obtain ⟨b, hcondition, hb⟩ := hcondition.run hp
  rw [Parse.bind_of_ok (hcondition context hfinal)] at hrun
  cases b with
  | false => exact hother hfinal hp hrun
  | true =>
    obtain ⟨hc, -, hq⟩ := hb rfl
    exact h hc hfinal hq hrun

theorem test (h : c → tape.Provides q action Q) (hother : tape.Provides p other Q) :
    tape.Provides p (condition >>= fun b ↦ if b = true then action else other) Q :=
  decide h hother

theorem optionally (h : c → tape.Provides q action Q) :
    tape.Provides p (Parse.optionally condition action) fun part ↦ ∀ value ∈ part, Q value :=
  test (fun hc ↦ (h hc).bind fun _ _ hvalue ↦ pure (by simpa using hvalue)) (pure (by simp))

theorem textIf {text : Parse Bytes} {Q : Bytes → Prop} (h : c → tape.Provides q text Q)
    (hnil : Q []) : tape.Provides p (Parse.textIf condition text) Q :=
  test h (pure hnil)

end Conditions

/-- One of two actions comes first. -/
theorem choose {c : Prop} [Decidable c] {next : α → Parse β}
    (h : c → tape.Provides p action P) (hother : ¬c → tape.Provides p other P)
    (hnext : ∀ value q, P value → tape.Provides q (next value) R) :
    tape.Provides p (if c then action >>= next else other >>= next) R :=
  ite (fun hc ↦ (h hc).bind hnext) fun hc ↦ (hother hc).bind hnext

/-- An action may come first whose value does not matter. -/
theorem whenSo {c : Prop} [Decidable c] {first : Parse Unit} [tape.Stays first]
    {next : Unit → Parse β} (hnext : ∀ q, tape.Provides q (next ()) R) :
    tape.Provides p (if c then first >>= next else next ()) R :=
  ite (fun _ ↦ skip fun _ q ↦ hnext q) fun _ ↦ hnext p

/-! ## Tokens -/

/-- A total reading comes first. -/
theorem after {S : α → Nat → Prop} {next : α → Parse β} (h : tape.Reads p p action S)
    (hnext : ∀ value q, S value q → tape.Provides q (next value) R) :
    tape.Provides p (action >>= next) R := by
  intro context result cursor hfinal hp hrun
  obtain ⟨value, middle, haction, hrun⟩ := Parse.bind_eq_ok hrun
  have hbeside : tape.Beside context context := ⟨hfinal, hfinal, Int.le_refl _, rfl, rfl⟩
  obtain ⟨value', q, haction', -, -, hq, hvalue⟩ | ⟨failure, q, hfailed, -⟩ :=
    h (Nat.le_refl p) hp hbeside
  · rw [haction] at haction'
    cases haction'
    exact hnext value q hvalue hfinal hq hrun
  · rw [haction] at hfailed
    cases hfailed

theorem advance {next : Unit → Parse β} (hlt : p < tape.size)
    (hnext : tape.Provides (p + 1) (next ()) R) : tape.Provides p (Parse.advance >>= next) R := by
  refine after (Reads.advances hlt) ?_
  rintro _ q rfl
  exact hnext

theorem take {next : Bytes → Parse β} (hlt : p < tape.size)
    (hnext : tape.Provides (p + 1) (next (tape.token p).value) R) :
    tape.Provides p (Parse.take >>= next) R := by
  refine after (Reads.takes hlt) ?_
  rintro _ q ⟨rfl, rfl⟩
  exact hnext

theorem takes {Q : Bytes → Prop} (hlt : p < tape.size) (h : Q (tape.token p).value) :
    tape.Provides p Parse.take Q := by
  refine (Reads.takes hlt).provides.mono ?_
  rintro _ ⟨q, rfl, rfl⟩
  exact h

theorem expect {kind : TokenKind} {message : String} {next : Token → Parse β} [kind.Present]
    (hnext : tape.kind p = kind → p < tape.size →
      tape.Provides (p + 1) (next (tape.token p)) R) :
    tape.Provides p (Parse.expect kind message >>= next) R := by
  refine after Reads.expectWith ?_
  rintro _ q ⟨rfl, rfl, hkind, hlt⟩
  exact hnext hkind hlt

theorem expectName {message : String} {Q : Bytes → Prop}
    (h : (tape.kind p).isName → p < tape.size → Q (tape.token p).value) :
    tape.Provides p (Parse.expectName message) Q := by
  refine test (fun hname ↦ ?_) (fail _ _)
  have hlt : p < tape.size := lt_size_of_holds (f := TokenKind.isName) hname rfl
  exact takes hlt (h hname hlt)

theorem expectMemberName {code message : String} {Q : Bytes → Prop}
    (h : (tape.kind p).isMemberName → p < tape.size → Q (tape.token p).value) :
    tape.Provides p (Parse.expectMemberName code message) Q := by
  refine ask (ite (fun hname ↦ ?_) fun _ ↦ fail _ _)
  have hlt : p < tape.size := lt_size_of_holds (f := TokenKind.isMemberName) hname rfl
  exact takes hlt (h hname hlt)

/-! ## Nodes and surroundings -/

theorem node {start : Token} {form : Plain Node} {Q : Node → Prop}
    (h : ∀ range, Q (.plain range form)) : tape.Provides p (Parse.node start form) Q :=
  (Reads.node (Q := fun value _ ↦ Q value) h).provides.mono fun _ ⟨_, hvalue⟩ ↦ hvalue

theorem surface {start : Token} {form : Surface Node} {Q : Node → Prop}
    (h : ∀ range, Q (.surface range form)) : tape.Provides p (Parse.surface start form) Q :=
  (Reads.surface (Q := fun value _ ↦ Q value) h).provides.mono fun _ ⟨_, hvalue⟩ ↦ hvalue

theorem nested (h : tape.Provides p action Q) : tape.Provides p (Parse.nested action) Q := by
  intro context value cursor hfinal hp hrun
  unfold Parse.nested at hrun
  split at hrun
  · cases hrun
  · refine h ?_ hp hrun
    exact hfinal

theorem allowingIn (h : tape.Provides p action Q) : tape.Provides p (Parse.allowingIn action) Q :=
  fun context _ _ hfinal ↦ @h { context with noIn := false } _ _ hfinal

theorem withoutIn (h : tape.Provides p action Q) : tape.Provides p (Parse.withoutIn action) Q :=
  fun context _ _ hfinal ↦ @h { context with noIn := true } _ _ hfinal

/-- Goes on at a place that was left. -/
theorem resume {next : Unit → Parse β} (hq : q ≤ tape.size)
    (hnext : tape.Provides q (next ()) R) :
    tape.Provides p (Parse.resume (tape.cursor q) >>= next) R :=
  fun _ _ _ hfinal _ hrun ↦ hnext hfinal hq hrun

/-! ## Repetition -/

/-- A round gives a state that is gone on with, or the last one. -/
theorem iterateTo {step : σ → Parse (σ × Bool)} {P S : σ → Prop} {rounds : Nat} {state : σ}
    (hstep : ∀ state q, P state → tape.Provides q (step state) fun result ↦
      if result.2 then P result.1 else S result.1)
    (hstate : P state) : tape.Provides p (Parse.iterate step rounds state) S := by
  induction rounds generalizing p state with
  | zero => exact failWith _
  | succ rounds ih =>
    refine (hstep state p hstate).bind ?_
    rintro ⟨state, more⟩ q hresult
    cases more with
    | false => exact pure hresult
    | true => exact ih hresult

/-- A round that keeps what holds of the state makes a repetition that keeps it. -/
theorem iterate {step : σ → Parse (σ × Bool)} {P : σ → Prop} {rounds : Nat} {state : σ}
    (hstep : ∀ state q, P state → tape.Provides q (step state) fun result ↦ P result.1)
    (hstate : P state) : tape.Provides p (Parse.iterate step rounds state) P :=
  iterateTo (fun state q hstate ↦ (hstep state q hstate).mono fun _ h ↦ by rwa [ite_self]) hstate

section Lists

variable {more : Parse Bool} {f : Nat → Nat} {c : Nat → Prop}
  [hmore : ∀ q, Tests tape q more (f q) (c q)] {rounds : Nat}

theorem manyWhile {item : Parse α} (hitem : ∀ q, c q → tape.Provides (f q) item Q) :
    tape.Provides p (Parse.manyWhile rounds more item) fun values ↦ ∀ value ∈ values, Q value := by
  refine iterate (fun values q hvalues ↦ test (fun hc ↦ ?_) (pure hvalues)) (by simp)
  exact (hitem q hc).bind fun value _ hvalue ↦ pure (Under.forall_mem_concat hvalues hvalue)

theorem looseList {item : Parse (α × Bool)}
    (hitem : ∀ q, c q → tape.Provides (f q) item fun value ↦ Q value.1) :
    tape.Provides p (Parse.looseList rounds more item) fun values ↦ ∀ value ∈ values, Q value := by
  refine iterate (fun values q hvalues ↦ test (fun hc ↦ ?_) (pure hvalues)) (by simp)
  refine (hitem q hc).bind fun value _ hvalue ↦ ?_
  have hmore := Under.forall_mem_concat hvalues hvalue
  exact ite (fun _ ↦ decide (fun _ ↦ pure hmore) (pure hmore)) fun _ ↦ pure hmore

theorem commaList {item : Parse α} (hitem : ∀ q, c q → tape.Provides (f q) item Q) :
    tape.Provides p (Parse.commaList rounds more item) fun values ↦ ∀ value ∈ values, Q value :=
  looseList fun q hc ↦ (hitem q hc).bind fun _ _ hvalue ↦ pure hvalue

end Lists

theorem separated {item : Parse α} {m : Mark} {rounds : Nat}
    (hitem : ∀ q, tape.Provides q item Q) :
    tape.Provides p (Parse.separated rounds m item) fun values ↦ ∀ value ∈ values, Q value := by
  refine iterate (fun values q hvalues ↦ (hitem q).bind fun value r hvalue ↦ ?_) (by simp)
  have hmore := Under.forall_mem_concat hvalues hvalue
  exact decide (fun _ ↦ pure hmore) (pure hmore)

end Provides

/-! ## Actions that stay on the tape -/

namespace Stays

instance ask {f : Nat → α} [h : ∀ p, Asks tape p action (f p)] : tape.Stays action :=
  of_reads fun _ ↦ Reads.asked

instance test {condition : Parse Bool} {f : Nat → Nat} {c : Nat → Prop}
    [h : ∀ p, Tests tape p condition (f p) (c p)] : tape.Stays condition :=
  of_reads fun _ ↦ Reads.condition

instance context : tape.Stays Parse.context where
  provides p := fun _ _ _ _ hp hrun ↦ by
    cases hrun
    exact ⟨trivial, p, hp, rfl⟩

instance failAt {token : Token} {code : String} {message : Bytes} :
    tape.Stays (Parse.failAt token code message : Parse α) where
  provides _ := .failWith _

instance fail {code message : String} : tape.Stays (Parse.fail code message : Parse α) where
  provides _ := .fail _ _

instance advance : tape.Stays Parse.advance := of_reads fun _ ↦ Reads.advance_skips

instance semicolon : tape.Stays Parse.semicolon := of_reads fun _ ↦ Reads.semicolon

instance expectWith {kind : TokenKind} {message : Bytes} [kind.Present] :
    tape.Stays (Parse.expectWith kind message) := of_reads fun _ ↦ Reads.expectWith

instance expect {kind : TokenKind} {message : String} [kind.Present] :
    tape.Stays (Parse.expect kind message) := expectWith

instance discard [h : tape.Stays action] : tape.Stays (Functor.discard action) where
  provides p := (h.provides p).bind fun _ _ _ ↦ .pure trivial

instance expectMark {m : Mark} {message : String} : tape.Stays (Parse.expectMark m message) :=
  discard

instance expectWord {w : Word} {message : String} : tape.Stays (Parse.expectWord w message) :=
  discard

instance expectName {message : String} : tape.Stays (Parse.expectName message) :=
  of_reads fun _ ↦ Reads.expectName

end Stays

end SignalView.Tape
