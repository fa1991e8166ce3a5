import SignalView.Proofs.Grammar.Reading

/-!
# Outcomes of parsing actions

What every run of an action has in common, whatever lies ahead: the kind of value that it gives, and
the kind of place that it comes to when it starts at such a place. The rules follow the way in which
actions are put together, so that a statement about a construct is one about its parts.
-/

namespace SignalView.Parse

variable {α β σ : Type} {I : TokenCursor → Prop} {action : Parse α} {P Q : α → Prop}

/-- From places of a kind an action comes to places of that kind, and gives values of a kind. -/
def Ensures (I : TokenCursor → Prop) (action : Parse α) (Q : α → Prop) : Prop :=
  ∀ ⦃context cursor value cursor'⦄, I cursor → action context cursor = .ok value cursor' →
    I cursor' ∧ Q value

namespace Ensures

theorem mono (h : action.Ensures I P) (hmono : ∀ value, P value → Q value) :
    action.Ensures I Q := by
  intro context cursor value cursor' hcursor hrun
  obtain ⟨hcursor', hvalue⟩ := h hcursor hrun
  exact ⟨hcursor', hmono value hvalue⟩

theorem bind {next : α → Parse β} {Q : β → Prop} (h : action.Ensures I P)
    (hnext : ∀ value, P value → (next value).Ensures I Q) : (action >>= next).Ensures I Q := by
  intro context cursor value cursor' hcursor hrun
  obtain ⟨first, middle, haction, hrun⟩ := bind_eq_ok hrun
  obtain ⟨hmiddle, hfirst⟩ := h hcursor haction
  exact hnext first hfirst hmiddle hrun

theorem pure {value : α} (h : Q value) : (pure value : Parse α).Ensures I Q := by
  intro context cursor value cursor' hcursor hrun
  obtain ⟨rfl, rfl⟩ := pure_eq_ok hrun
  exact ⟨hcursor, h⟩

theorem ite {c : Prop} [Decidable c] {other : Parse α} (h : action.Ensures I Q)
    (hother : other.Ensures I Q) : (if c then action else other).Ensures I Q := by
  split
  · exact h
  · exact hother

/-- A condition is read off the tokens, and one of two actions follows. -/
theorem guard {condition : Parse Bool} {other : Parse α}
    (hcondition : condition.Ensures I fun _ ↦ True) (h : action.Ensures I Q)
    (hother : other.Ensures I Q) :
    (do if ← condition then action else other : Parse α).Ensures I Q :=
  hcondition.bind fun _ _ ↦ ite h hother

theorem failWith (failure : Failure) : (failWith failure : Parse α).Ensures I Q := by
  intro context cursor value cursor' hcursor hrun
  cases hrun

theorem failAt (token : Token) (code : String) (message : Bytes) :
    (failAt token code message : Parse α).Ensures I Q := failWith _

theorem fail (code message : String) : (fail code message : Parse α).Ensures I Q := by
  intro context cursor value cursor' hcursor hrun
  obtain ⟨token, middle, -, hrun⟩ := bind_eq_ok hrun
  cases hrun

theorem node {start : Token} {form : Plain Node} {Q : Node → Prop}
    (h : ∀ range, Q (.plain range form)) : (node start form).Ensures I Q := by
  intro context cursor value cursor' hcursor hrun
  cases hrun
  exact ⟨hcursor, h _⟩

theorem surface {start : Token} {form : Surface Node} {Q : Node → Prop}
    (h : ∀ range, Q (.surface range form)) : (surface start form).Ensures I Q := by
  intro context cursor value cursor' hcursor hrun
  cases hrun
  exact ⟨hcursor, h _⟩

theorem nested (h : action.Ensures I Q) : (nested action).Ensures I Q := by
  intro context cursor value cursor' hcursor hrun
  unfold Parse.nested at hrun
  split at hrun
  · cases hrun
  · exact h hcursor hrun

theorem allowingIn (h : action.Ensures I Q) : (allowingIn action).Ensures I Q :=
  fun _ _ _ _ hcursor hrun ↦ h hcursor hrun

theorem withoutIn (h : action.Ensures I Q) : (withoutIn action).Ensures I Q :=
  fun _ _ _ _ hcursor hrun ↦ h hcursor hrun

/-- A round that keeps what holds of the state makes a repetition that keeps it. -/
theorem iterate {step : σ → Parse (σ × Bool)} {P : σ → Prop}
    (h : ∀ state, P state → (step state).Ensures I fun result ↦ P result.1) (rounds : Nat)
    {state : σ} (hstate : P state) : (iterate step rounds state).Ensures I P := by
  induction rounds generalizing state with
  | zero => exact failWith _
  | succ rounds ih =>
    refine (h state hstate).bind fun result hresult ↦ ?_
    exact ite (ih hresult) (pure hresult)

end Ensures

/-! ## Runs of which only the value matters -/

/-- The values that an action gives are of a kind. -/
def Gets (action : Parse α) (Q : α → Prop) : Prop := action.Ensures (fun _ ↦ True) Q

theorem Gets.of_ok (h : action.Gets Q) {context : ParseContext} {cursor cursor' : TokenCursor}
    {value : α} (hrun : action context cursor = .ok value cursor') : Q value :=
  (h trivial hrun).2

/-- The last of two actions decides on the value. -/
theorem Ensures.last {next : α → Parse β} {Q : β → Prop} (hnext : ∀ value, (next value).Gets Q) :
    (action >>= next).Gets Q :=
  have hfirst : action.Ensures (fun _ ↦ True) fun _ ↦ True := fun _ _ _ _ _ _ ↦ ⟨trivial, trivial⟩
  hfirst.bind fun value _ ↦ hnext value

/-! ## Looking ahead -/

/-- The action always gives a value and stays where it is. -/
def Looks (action : Parse α) : Prop :=
  ∀ context cursor, ∃ value, action context cursor = .ok value cursor

namespace Looks

theorem eq_of_ok (h : action.Looks) {context : ParseContext} {cursor cursor' : TokenCursor}
    {value : α} (hrun : action context cursor = .ok value cursor') : cursor' = cursor := by
  obtain ⟨_, hlooks⟩ := h context cursor
  rw [hlooks] at hrun
  cases hrun
  rfl

theorem bind {next : α → Parse β} (h : action.Looks) (hnext : ∀ value, (next value).Looks) :
    (action >>= next).Looks := by
  intro context cursor
  obtain ⟨value, hvalue⟩ := h context cursor
  rw [bind_of_ok hvalue]
  exact hnext value context cursor

theorem pure (value : α) : (pure value : Parse α).Looks := fun _ _ ↦ ⟨value, rfl⟩

theorem ite {c : Prop} [Decidable c] {other : Parse α} (h : action.Looks) (hother : other.Looks) :
    (if c then action else other).Looks := by
  split
  · exact h
  · exact hother

theorem peek (offset : Nat) : (peek offset).Looks := fun _ _ ↦ ⟨_, rfl⟩

theorem current : current.Looks := peek 0

theorem at_ (kind : TokenKind) : (at_ kind).Looks := current.bind fun _ ↦ pure _

theorem nameAhead (offset : Nat) : (nameAhead offset).Looks := (peek offset).bind fun _ ↦ pure _

theorem markAhead (offset : Nat) (m : Mark) : (markAhead offset m).Looks :=
  (peek offset).bind fun _ ↦ pure _

theorem wordAhead (offset : Nat) (w : Word) : (wordAhead offset w).Looks :=
  (peek offset).bind fun _ ↦ pure _

theorem arrowAhead (offset : Nat) : (arrowAhead offset).Looks := fun _ _ ↦ ⟨_, rfl⟩

theorem atAsyncArrow : Grammar.atAsyncArrow.Looks := by
  refine (at_ _).bind fun isAsync ↦ (peek 1).bind fun next ↦ .ite ?_ (pure _)
  refine (markAhead 1 _).bind fun isParen ↦ .ite (arrowAhead 1) ?_
  exact (nameAhead 1).bind fun _ ↦ (markAhead 2 _).bind fun _ ↦ (markAhead 1 _).bind fun _ ↦ pure _

theorem atArrow : Grammar.atArrow.Looks := by
  refine (at_ _).bind fun isParen ↦ .ite (arrowAhead 0) ?_
  exact (nameAhead 0).bind fun _ ↦ (markAhead 1 _).bind fun _ ↦ (at_ _).bind fun _ ↦ pure _

end Looks

end SignalView.Parse
