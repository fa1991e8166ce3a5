import SignalView.Proofs.Grammar.Reading

/-!
# Levels of nesting that are left

What an action gives when some levels of nesting are left below the limit. The levels are the same
throughout an action, and there is one less inside of what is guarded. The rules follow the way in
which actions are put together.
-/

namespace SignalView.Parse

variable {α β σ : Type} {levels : Nat} {action other : Parse α} {P Q : α → Prop}

/-- With some levels left the values of an action are of a kind. -/
def Under (levels : Nat) (action : Parse α) (Q : α → Prop) : Prop :=
  ∀ ⦃context cursor value cursor'⦄, (context.maxDepth - context.depth).toNat = levels →
    action context cursor = .ok value cursor' → Q value

namespace Under

theorem any : action.Under levels fun _ ↦ True := fun _ _ _ _ _ _ ↦ trivial

theorem mono (h : action.Under levels P) (hmono : ∀ value, P value → Q value) :
    action.Under levels Q :=
  fun _ _ _ _ hlevels hrun ↦ hmono _ (h hlevels hrun)

theorem bind {next : α → Parse β} {R : β → Prop} (h : action.Under levels P)
    (hnext : ∀ value, P value → (next value).Under levels R) :
    (action >>= next).Under levels R := by
  intro context cursor value cursor' hlevels hrun
  obtain ⟨first, middle, haction, hrun⟩ := bind_eq_ok hrun
  exact hnext first (h hlevels haction) hlevels hrun

/-- An action whose value does not matter comes first. -/
theorem skip {next : α → Parse β} {R : β → Prop} (hnext : ∀ value, (next value).Under levels R) :
    (action >>= next).Under levels R :=
  any.bind fun value _ ↦ hnext value

theorem pure {value : α} (h : Q value) : (pure value : Parse α).Under levels Q := by
  intro context cursor value cursor' hlevels hrun
  obtain ⟨rfl, rfl⟩ := pure_eq_ok hrun
  exact h

theorem ite {c : Prop} [Decidable c] (h : action.Under levels Q) (hother : other.Under levels Q) :
    (if c then action else other).Under levels Q := by
  split
  · exact h
  · exact hother

/-- A condition is read off the tokens, and one of two actions follows. -/
theorem guard {condition : Parse Bool} (h : action.Under levels Q) (hother : other.Under levels Q) :
    (do if ← condition then action else other : Parse α).Under levels Q :=
  skip fun _ ↦ ite h hother

/-- One of two actions comes first. -/
theorem choice {c : Prop} [Decidable c] {first second : Parse β} {next : β → Parse α}
    {R : β → Prop} (hfirst : first.Under levels R) (hsecond : second.Under levels R)
    (hnext : ∀ value, R value → (next value).Under levels Q) :
    (if c then first >>= next else second >>= next).Under levels Q :=
  ite (hfirst.bind hnext) (hsecond.bind hnext)

/-- An action whose value does not matter may come first. -/
theorem whenSo {c : Prop} [Decidable c] {first : Parse Unit} {next : Unit → Parse α}
    (hnext : (next ()).Under levels Q) :
    (if c then first >>= next else next ()).Under levels Q :=
  ite (skip fun _ ↦ hnext) hnext

theorem failWith (failure : Failure) : (failWith failure : Parse α).Under levels Q := by
  intro context cursor value cursor' hlevels hrun
  cases hrun

theorem fail (code message : String) : (fail code message : Parse α).Under levels Q :=
  skip fun _ ↦ failWith _

theorem node {start : Token} {form : Plain Node} {Q : Node → Prop}
    (h : ∀ range, Q (.plain range form)) : (node start form).Under levels Q :=
  skip fun range ↦ pure (h range)

theorem surface {start : Token} {form : Surface Node} {Q : Node → Prop}
    (h : ∀ range, Q (.surface range form)) : (surface start form).Under levels Q :=
  skip fun range ↦ pure (h range)

/-- What is guarded has one level less, if there is one. -/
theorem nested (h : ∀ fewer, levels = fewer + 1 → action.Under fewer Q) :
    (nested action).Under levels Q := by
  intro context cursor value cursor' hlevels hrun
  unfold Parse.nested at hrun
  split at hrun
  · cases hrun
  · refine h (levels - 1) (by omega) ?_ hrun
    dsimp only
    omega

theorem allowingIn (h : action.Under levels Q) : (allowingIn action).Under levels Q :=
  fun context _ _ _ hlevels hrun ↦ @h { context with noIn := false } _ _ _ hlevels hrun

theorem withoutIn (h : action.Under levels Q) : (withoutIn action).Under levels Q :=
  fun context _ _ _ hlevels hrun ↦ @h { context with noIn := true } _ _ _ hlevels hrun

/-! ## Repetition -/

/-- A round that keeps what holds of the state makes a repetition that keeps it. -/
theorem iterate {step : σ → Parse (σ × Bool)} {P : σ → Prop}
    (h : ∀ state, P state → (step state).Under levels fun result ↦ P result.1) (rounds : Nat)
    {state : σ} (hstate : P state) : (iterate step rounds state).Under levels P := by
  induction rounds generalizing state with
  | zero => exact failWith _
  | succ rounds ih =>
    refine (h state hstate).bind fun result hresult ↦ ?_
    exact ite (ih hresult) (pure hresult)

theorem forall_mem_concat {items : List α} {next : α} (hitems : ∀ item ∈ items, Q item)
    (hnext : Q next) : ∀ item ∈ items ++ [next], Q item := by
  simpa [or_imp, forall_and] using ⟨hitems, hnext⟩

theorem manyWhile {rounds : Nat} {more : Parse Bool} (h : action.Under levels Q) :
    (manyWhile rounds more action).Under levels fun items ↦ ∀ item ∈ items, Q item := by
  refine iterate (fun items hitems ↦ .guard ?_ (.pure hitems)) rounds (by simp)
  exact h.bind fun item hitem ↦ pure (forall_mem_concat hitems hitem)

theorem looseList {rounds : Nat} {more : Parse Bool} {item : Parse (α × Bool)}
    (h : item.Under levels fun next ↦ Q next.1) :
    (looseList rounds more item).Under levels fun items ↦ ∀ item ∈ items, Q item := by
  refine iterate (fun items hitems ↦ .guard ?_ (.pure hitems)) rounds (by simp)
  refine h.bind fun next hnext ↦ .ite (skip fun _ ↦ ?_) ?_
  · exact pure (forall_mem_concat hitems hnext)
  · exact pure (forall_mem_concat hitems hnext)

theorem commaList {rounds : Nat} {more : Parse Bool} (h : action.Under levels Q) :
    (commaList rounds more action).Under levels fun items ↦ ∀ item ∈ items, Q item :=
  looseList (h.bind fun _ hitem ↦ pure hitem)

theorem optionally {present : Parse Bool} (h : action.Under levels Q) :
    (optionally present action).Under levels fun part ↦ ∀ value ∈ part, Q value :=
  guard (h.bind fun _ hvalue ↦ pure (by simpa using hvalue)) (pure (by simp))

end Under

end SignalView.Parse
