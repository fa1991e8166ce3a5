import SignalView.Proofs.Grammar.Reading
import SignalView.Proofs.Syntax.Places

/-!
# Actions on a tape

The tokens of a program are a tape, and a place on it is a number. From each place an action either
gives a value and comes to a place further on, or fails at a token that it has looked at. It never
runs out of rounds, and a deeper limit on the nesting does not change what it gives. The rules
follow the way in which actions are put together.
-/

namespace SignalView

theorem Parse.bind_of_failed {α β : Type} {action : Parse α} {next : α → Parse β}
    {context : ParseContext} {cursor cursor' : TokenCursor} {failure : Failure}
    (h : action context cursor = .failed failure cursor') :
    (action >>= next) context cursor = .failed failure cursor' := by
  simp only [bind, h]

theorem Parse.bind_assoc_eq {α β γ : Type} (action : Parse α) (next : α → Parse β)
    (last : β → Parse γ) :
    action >>= next >>= last = action >>= fun value ↦ next value >>= last := by
  funext context cursor
  simp only [bind]
  cases action context cursor <;> rfl

/-- The kinds of tokens that are in the source. -/
class TokenKind.Present (kind : TokenKind) : Prop where
  ne_eof : kind ≠ .eof

namespace TokenKind

instance (w : Word) : (word w).Present := ⟨by rintro ⟨⟩⟩
instance (m : Mark) : (mark m).Present := ⟨by rintro ⟨⟩⟩
instance (piece : TemplatePiece) : (template piece).Present := ⟨by rintro ⟨⟩⟩
instance : identifier.Present := ⟨by rintro ⟨⟩⟩
instance : number.Present := ⟨by rintro ⟨⟩⟩
instance : bigint.Present := ⟨by rintro ⟨⟩⟩
instance : string.Present := ⟨by rintro ⟨⟩⟩
instance : regex.Present := ⟨by rintro ⟨⟩⟩
instance : markupText.Present := ⟨by rintro ⟨⟩⟩
instance : error.Present := ⟨by rintro ⟨⟩⟩

end TokenKind

/-- Tokens, none of which is the end of input, and the token that stands for the end. -/
structure Tape where
  tokens : List Token
  final : Token
  kind_ne : ∀ token ∈ tokens, token.kind ≠ .eof
  final_kind : final.kind = .eof

namespace Tape

/-! ## Places -/

section Places

variable (tape : Tape) (p : Nat)

def size : Nat := tape.tokens.length

/-- The cursor at a place. -/
def cursor : TokenCursor := ⟨(tape.tokens.take p).reverse, tape.tokens.drop p⟩

/-- The token at a place; behind the last one, the end of input. -/
def token : Token := tape.tokens[p]?.getD tape.final

def kind : TokenKind := (tape.token p).kind

/-- The token before a place; at the very start, the one behind it. -/
def previous : Token := (tape.cursor p).before.head?.getD (tape.token p)

/-- The names of elements: each starts with a name on the tape. -/
def Tag (tag : Bytes) : Prop :=
  ∃ token ∈ tape.tokens, token.kind.isMemberName ∧ token.value <+: tag

/-- All of some slots are filled with constructs that fit. -/
abbrev Fills (slots : List (Slot Node)) : Prop := Slot.AllHold (Node.Fits tape.Tag) slots

end Places

variable {α β σ : Type} {tape : Tape} {o p q : Nat}

@[simp]
theorem token_kind : (tape.token p).kind = tape.kind p := rfl

theorem token_mem (h : p < tape.size) : tape.token p ∈ tape.tokens := by
  rw [token, List.getElem?_eq_getElem h]
  exact List.getElem_mem h

theorem lt_size_of_kind_ne (h : tape.kind p ≠ .eof) : p < tape.size := by
  refine Nat.lt_of_not_le fun hsize ↦ h ?_
  rw [kind, token, List.getElem?_eq_none hsize]
  exact tape.final_kind

theorem lt_size_of_kind {kind : TokenKind} [hkind : kind.Present] (h : tape.kind p = kind) :
    p < tape.size :=
  lt_size_of_kind_ne (h ▸ hkind.ne_eof)

theorem lt_size_of_beq {kind : TokenKind} [kind.Present] (h : (tape.kind p == kind) = true) :
    p < tape.size :=
  lt_size_of_kind (beq_iff_eq.mp h)

/-- A question about kinds that the end of input does not meet. -/
theorem lt_size_of_holds {f : TokenKind → Bool} (h : f (tape.kind p) = true)
    (hend : f .eof = false) : p < tape.size := by
  refine lt_size_of_kind_ne fun hkind ↦ ?_
  rw [hkind, hend] at h
  exact absurd h Bool.false_ne_true

theorem lt_size_of_marks {ms : List Mark} (h : (ms.any fun m ↦ tape.kind p == .mark m) = true) :
    p < tape.size := by
  obtain ⟨m, -, hm⟩ := List.any_eq_true.mp h
  exact lt_size_of_kind (beq_iff_eq.mp hm)

theorem cursor_after_getD (i : Nat) :
    ((tape.cursor p).after[i]?).getD tape.final = tape.token (p + i) := by
  rw [cursor, token, List.getElem?_drop]

theorem cursor_after_head :
    ((tape.cursor p).after.head?).getD tape.final = tape.token p := by
  rw [List.head?_eq_getElem?]
  exact cursor_after_getD 0

theorem cursor_after_eq (h : p < tape.size) :
    (tape.cursor p).after = tape.token p :: (tape.cursor (p + 1)).after := by
  rw [token, List.getElem?_eq_getElem h]
  exact List.drop_eq_getElem_cons h

theorem cursor_succ (h : p < tape.size) : tape.cursor (p + 1) =
    ⟨tape.token p :: (tape.cursor p).before, (tape.cursor (p + 1)).after⟩ := by
  have htake : tape.tokens.take (p + 1) = tape.tokens.take p ++ [tape.token p] := by
    rw [token, List.getElem?_eq_getElem h]
    exact List.take_succ_eq_append_getElem h
  simp [cursor, htake]

/-! ## Questions -/

/-- The action only looks at the tokens, and gives a value. -/
class Asks (tape : Tape) (p : Nat) (action : Parse α) (value : outParam α) : Prop where
  run : ∀ context, context.final = tape.final →
    action context (tape.cursor p) = .ok value (tape.cursor p)

/-- A condition that leads to a place when it holds, and else stays where it is. -/
class Tests (tape : Tape) (p : Nat) (condition : Parse Bool) (q : outParam Nat)
    (c : outParam Prop) : Prop where
  run : p ≤ tape.size → ∃ b, (∀ context, context.final = tape.final →
      condition context (tape.cursor p) = .ok b (tape.cursor (if b then q else p))) ∧
    (b = true → c ∧ p ≤ q ∧ q ≤ tape.size)

namespace Asks

variable {action : Parse α} {value : α}

instance pure : Asks tape p (pure value : Parse α) value where
  run _ _ := rfl

instance bind {next : α → Parse β} {result : β} [ha : Asks tape p action value]
    [hb : Asks tape p (next value) result] : Asks tape p (action >>= next) result where
  run context hfinal := by
    rw [Parse.bind_of_ok (ha.run context hfinal)]
    exact hb.run context hfinal

instance cursor : Asks tape p Parse.cursor (tape.cursor p) where
  run _ _ := rfl

instance peek (i : Nat) : Asks tape p (Parse.peek i) (tape.token (p + i)) where
  run context hfinal := by
    rw [Parse.peek, hfinal, cursor_after_getD]

instance current : Asks tape p Parse.current (tape.token p) := peek 0

instance previous : Asks tape p Parse.previous (tape.previous p) where
  run context hfinal := by
    rw [Parse.previous, hfinal, cursor_after_head]
    rfl

instance at_ (kind : TokenKind) : Asks tape p (Parse.at_ kind) (tape.kind p == kind) := bind

instance atMark (m : Mark) : Asks tape p (Parse.atMark m) (tape.kind p == .mark m) := at_ _

instance atWord (w : Word) : Asks tape p (Parse.atWord w) (tape.kind p == .word w) := at_ _

instance atEnd : Asks tape p Parse.atEnd (tape.kind p == .eof) := at_ _

instance atMarks (ms : List Mark) :
    Asks tape p (Parse.atMarks ms) (ms.any fun m ↦ tape.kind p == .mark m) := bind

instance atSpelling (text : String) : Asks tape p (Parse.atSpelling text)
    (tape.kind p == .identifier && (tape.token p).value == bytes text) := bind

instance onNewLine : Asks tape p Parse.onNewLine (tape.token p).newlineBefore := bind

instance nameAhead (i : Nat) : Asks tape p (Parse.nameAhead i) (tape.kind (p + i)).isName := bind

instance markAhead (i : Nat) (m : Mark) :
    Asks tape p (Parse.markAhead i m) (tape.kind (p + i) == .mark m) := bind

instance wordAhead (i : Nat) (w : Word) :
    Asks tape p (Parse.wordAhead i w) (tape.kind (p + i) == .word w) := bind

instance touchesPrevious : Asks tape p Parse.touchesPrevious
    ((tape.token p).start.offset == (tape.previous p).stop) := bind

instance before (closing : TokenKind) :
    Asks tape p (Parse.before closing) (tape.kind p != closing && tape.kind p != .eof) := bind

instance beforeMark (m : Mark) :
    Asks tape p (Parse.beforeMark m) (tape.kind p != .mark m && tape.kind p != .eof) := before _

instance arrowAhead (i : Nat) : Asks tape p (Parse.arrowAhead i)
    (Lookahead.startsArrow ((tape.cursor p).after.drop i)) := bind

instance kindAfterClosing : Asks tape p Parse.kindAfterClosing
    (Lookahead.afterClosing tape.final (tape.cursor p).after) where
  run context hfinal := by
    rw [← hfinal]
    rfl

/-- A question whose answer does not matter. -/
theorem exists_bind {next : α → Parse β} [ha : Asks tape p action value]
    (h : ∃ result, Asks tape p (next value) result) :
    ∃ result, Asks tape p (action >>= next) result := by
  obtain ⟨result, hresult⟩ := h
  exact ⟨result, bind⟩

end Asks

/-- A question with a yes or no for an answer. -/
theorem Tests.of_asks {condition : Parse Bool} {b : Bool} {c : Prop} (h : Asks tape p condition b)
    (hb : b = true → c) : Tests tape p condition p c where
  run hp := by
    refine ⟨b, fun context hfinal ↦ ?_, fun hyes ↦ ⟨hb hyes, Nat.le_refl p, hp⟩⟩
    rw [ite_self]
    exact h.run context hfinal

instance Asks.tests {condition : Parse Bool} {b : Bool} [h : Asks tape p condition b] :
    Tests tape p condition p (b = true) := .of_asks h id

/-! ## Readings -/

/-- Surroundings on the tape, and the same surroundings with a limit that is no lower. -/
structure Beside (tape : Tape) (context deeper : ParseContext) : Prop where
  final : context.final = tape.final
  final_deeper : deeper.final = tape.final
  maxDepth : context.maxDepth ≤ deeper.maxDepth
  depth : deeper.depth = context.depth
  noIn : deeper.noIn = context.noIn

/-- The failure is one of the program's, at a token between two places. -/
def Blames (tape : Tape) (o q : Nat) (failure : Failure) : Prop :=
  failure.code ≠ [] ∧ ∃ t, o ≤ t ∧ t ≤ q ∧ failure.line = (tape.token t).start.line ∧
    failure.column = (tape.token t).start.column

/-- From a place the action gives a value and comes to a place that suit each other, under a deeper
limit as well, or it fails at a token from an origin on. -/
def Reads (tape : Tape) (o p : Nat) (action : Parse α) (Q : α → Nat → Prop) : Prop :=
  o ≤ p → p ≤ tape.size → ∀ ⦃context deeper⦄, tape.Beside context deeper →
    (∃ value q, action context (tape.cursor p) = .ok value (tape.cursor q) ∧
      action deeper (tape.cursor p) = .ok value (tape.cursor q) ∧
      p ≤ q ∧ q ≤ tape.size ∧ Q value q) ∨
    ∃ failure q, action context (tape.cursor p) = .failed failure (tape.cursor q) ∧
      p ≤ q ∧ q ≤ tape.size ∧ tape.Blames o q failure

/-- The action moves on and gives a value of a kind, or fails. -/
abbrev Passes (tape : Tape) (o p : Nat) (action : Parse α) (K : α → Prop) : Prop :=
  tape.Reads o p action fun value q ↦ p < q ∧ K value

/-- The action moves on and gives a construct that can stand in a place, or fails. -/
abbrev Forms (tape : Tape) (o p : Nat) (action : Parse Node) (place : Place) : Prop :=
  tape.Passes o p action (Node.Fits tape.Tag place)

/-- The action moves on or stays, and gives a value of a kind, or fails. -/
abbrev Skips (tape : Tape) (o p : Nat) (action : Parse α) (K : α → Prop) : Prop :=
  tape.Reads o p action fun value _ ↦ K value

variable {action : Parse α} {next : α → Parse β} {P Q : α → Nat → Prop} {R : β → Nat → Prop}
  {K K' : α → Prop}

namespace Reads

theorem within (h : o ≤ p → p ≤ tape.size → tape.Reads o p action Q) : tape.Reads o p action Q :=
  fun ho hp ↦ h ho hp ho hp

theorem mono (h : tape.Reads o p action P)
    (hmono : ∀ value q, p ≤ q → q ≤ tape.size → P value q → Q value q) :
    tape.Reads o p action Q := by
  intro ho hp context deeper hbeside
  obtain ⟨value, q, hrun, hdeeper, hpq, hq, hvalue⟩ | hfailed := h ho hp hbeside
  · exact .inl ⟨value, q, hrun, hdeeper, hpq, hq, hmono value q hpq hq hvalue⟩
  · exact .inr hfailed

theorem bind (h : tape.Reads o p action P)
    (hnext : ∀ value q, p ≤ q → q ≤ tape.size → P value q → tape.Reads o q (next value) R) :
    tape.Reads o p (action >>= next) R := by
  intro ho hp context deeper hbeside
  obtain ⟨value, q, hrun, hdeeper, hpq, hq, hvalue⟩ | ⟨failure, q, hrun, hfailed⟩ :=
    h ho hp hbeside
  · rw [Parse.bind_of_ok hrun, Parse.bind_of_ok hdeeper]
    obtain ⟨result, r, hrun, hdeeper, hqr, hr⟩ | ⟨failure, r, hrun, hqr, hfailed⟩ :=
      hnext value q hpq hq hvalue (Nat.le_trans ho hpq) hq hbeside
    · exact .inl ⟨result, r, hrun, hdeeper, Nat.le_trans hpq hqr, hr⟩
    · exact .inr ⟨failure, r, hrun, Nat.le_trans hpq hqr, hfailed⟩
  · exact .inr ⟨failure, q, Parse.bind_of_failed hrun, hfailed⟩

theorem pure {value : α} (h : Q value p) : tape.Reads o p (pure value) Q :=
  fun _ hp _ _ _ ↦ .inl ⟨value, p, rfl, rfl, Nat.le_refl p, hp, h⟩

theorem ite {c : Prop} [Decidable c] {other : Parse α} (h : c → tape.Reads o p action Q)
    (hother : ¬c → tape.Reads o p other Q) : tape.Reads o p (if c then action else other) Q := by
  split
  · next hc => exact h hc
  · next hc => exact hother hc

/-- An action that may be left out goes in front of the rest. -/
theorem iteThen {c : Prop} [Decidable c] {action : Parse Unit} {next : Unit → Parse β}
    {P : Nat → Prop} (h : c → tape.Reads o p action fun _ ↦ P) (hnot : ¬c → P p)
    (hnext : ∀ q, p ≤ q → q ≤ tape.size → P q → tape.Reads o q (next ()) R) :
    tape.Reads o p (if c then action >>= next else next ()) R := by
  refine within fun _ hp ↦ ite (fun hc ↦ (h hc).bind fun _ ↦ hnext) fun hc ↦ ?_
  exact hnext p (Nat.le_refl p) hp (hnot hc)

/-- A run without a choice comes first. -/
theorem after {value : α} (hpq : p ≤ q) (hq : q ≤ tape.size)
    (hrun : ∀ context, context.final = tape.final →
      action context (tape.cursor p) = .ok value (tape.cursor q))
    (hnext : tape.Reads o q (next value) R) : tape.Reads o p (action >>= next) R := by
  refine bind (P := fun v r ↦ v = value ∧ r = q) ?_ ?_
  · intro ho hp context deeper hbeside
    exact .inl ⟨value, q, hrun _ hbeside.final, hrun _ hbeside.final_deeper, hpq, hq, rfl, rfl⟩
  · rintro _ _ _ _ ⟨rfl, rfl⟩
    exact hnext

theorem ask {value : α} [h : Asks tape p action value] (hnext : tape.Reads o p (next value) R) :
    tape.Reads o p (action >>= next) R :=
  within fun _ hp ↦ after (Nat.le_refl p) hp h.run hnext

theorem condition {condition : Parse Bool} {c : Prop} [hcondition : Tests tape p condition q c] :
    tape.Reads o p condition fun b r ↦ b = true ∧ c ∧ r = q ∨ b = false ∧ r = p := by
  intro ho hp context deeper hbeside
  obtain ⟨b, hrun, hb⟩ := hcondition.run hp
  have hsame := hrun context hbeside.final
  have hdeeper := hrun deeper hbeside.final_deeper
  cases b with
  | false => exact .inl ⟨false, p, hsame, hdeeper, Nat.le_refl p, hp, .inr ⟨rfl, rfl⟩⟩
  | true =>
    obtain ⟨hc, hpq, hq⟩ := hb rfl
    exact .inl ⟨true, q, hsame, hdeeper, hpq, hq, .inl ⟨rfl, hc, rfl⟩⟩

/-- A condition whose answer the rest makes use of. -/
theorem decide {condition : Parse Bool} {c : Prop} {next : Bool → Parse β}
    [Tests tape p condition q c] (h : c → p ≤ q → q ≤ tape.size → tape.Reads o q (next true) R)
    (hother : tape.Reads o p (next false) R) : tape.Reads o p (condition >>= next) R := by
  refine Reads.bind Reads.condition ?_
  rintro _ r hpr hr (⟨rfl, hc, rfl⟩ | ⟨rfl, rfl⟩)
  · exact h hc hpr hr
  · exact hother

/-- A condition between two actions. -/
theorem test {condition : Parse Bool} {c : Prop} {action other : Parse α}
    [Tests tape p condition q c] (h : c → p ≤ q → q ≤ tape.size → tape.Reads o q action Q)
    (hother : tape.Reads o p other Q) :
    tape.Reads o p (condition >>= fun b ↦ if b = true then action else other) Q :=
  decide h hother

theorem asked {value : α} [h : Asks tape p action value] :
    tape.Reads o p action fun answer q ↦ answer = value ∧ q = p :=
  fun _ hp _ _ hbeside ↦ .inl ⟨value, p, h.run _ hbeside.final, h.run _ hbeside.final_deeper,
    Nat.le_refl p, hp, rfl, rfl⟩

/-- A choice of two actions, and what follows both. -/
theorem choose {c : Prop} [Decidable c] {first second : Parse α}
    (hfirst : c → tape.Reads o p first P) (hsecond : ¬c → tape.Reads o p second P)
    (hnext : ∀ value q, p ≤ q → q ≤ tape.size → P value q → tape.Reads o q (next value) R) :
    tape.Reads o p (if c then first >>= next else second >>= next) R :=
  ite (fun hc ↦ (hfirst hc).bind hnext) fun hc ↦ (hsecond hc).bind hnext

/-- A condition between two actions, and what follows both. -/
theorem either {condition : Parse Bool} {c : Prop} {first second : Parse α}
    [Tests tape p condition q c] (hfirst : c → p ≤ q → q ≤ tape.size → tape.Reads o q first P)
    (hsecond : tape.Reads o p second P)
    (hnext : ∀ value r, p ≤ r → r ≤ tape.size → P value r → tape.Reads o r (next value) R) :
    tape.Reads o p
      (condition >>= fun b ↦ if b = true then first >>= next else second >>= next) R :=
  test (fun hc hpq hq ↦ (hfirst hc hpq hq).bind fun value r hqr ↦ hnext value r (by omega))
    (hsecond.bind hnext)

/-! ### Failing -/

theorem bytes_ne_nil {code : String} (h : code ≠ "") : bytes code ≠ [] := by
  simpa [bytes] using h

theorem failAt {t : Nat} {code : String} {message : Bytes} (hot : o ≤ t) (htp : t ≤ p)
    (hcode : code ≠ "") :
    tape.Reads o p (Parse.failAt (tape.token t) code message) Q :=
  fun _ hp _ _ _ ↦
    .inr ⟨_, p, rfl, Nat.le_refl p, hp, bytes_ne_nil hcode, t, hot, htp, rfl, rfl⟩

theorem failAtThen {t : Nat} {code : String} {message : Bytes} (hot : o ≤ t) (htp : t ≤ p)
    (hcode : code ≠ "") :
    tape.Reads o p (Parse.failAt (tape.token t) code message >>= next) R := by
  refine bind (P := fun _ _ ↦ False) (failAt hot htp hcode) ?_
  rintro _ _ _ _ ⟨⟩

theorem fail {code message : String} (hcode : code ≠ "") :
    tape.Reads o p (Parse.fail code message) Q :=
  within fun ho _ ↦ ask (failAt ho (Nat.le_refl p) hcode)

theorem failThen {code message : String} (hcode : code ≠ "") :
    tape.Reads o p (Parse.fail code message >>= next) R := by
  refine bind (P := fun _ _ ↦ False) (fail hcode) ?_
  rintro _ _ _ _ ⟨⟩

/-- A failure in front of the rest, unless a condition is met. -/
theorem failWhen {c : Prop} [Decidable c] {code message : String} {next : Unit → Parse β}
    (hcode : code ≠ "") (h : ¬c → tape.Reads o p (next ()) R) :
    tape.Reads o p (if c then Parse.fail code message >>= next else next ()) R :=
  ite (fun _ ↦ failThen hcode) h

/-! ### Tokens -/

theorem advances (hlt : p < tape.size) : tape.Reads o p Parse.advance fun _ q ↦ q = p + 1 := by
  have hrun (context : ParseContext) :
      Parse.advance context (tape.cursor p) = .ok () (tape.cursor (p + 1)) := by
    rw [cursor_succ hlt]
    exact Parse.advance_of_cons (cursor_after_eq hlt)
  intro _ _ context deeper _
  exact .inl ⟨(), p + 1, hrun context, hrun deeper, Nat.le_succ p, hlt, rfl⟩

/-- At the end of input, moving on means staying there. -/
theorem advance_skips : tape.Skips o p Parse.advance fun _ ↦ True := by
  intro ho hp
  obtain hlt | rfl := Nat.lt_or_eq_of_le hp
  · exact (advances hlt).mono (fun _ _ _ _ _ ↦ trivial) ho hp
  · have hrun (context : ParseContext) :
        Parse.advance context (tape.cursor tape.size) = .ok () (tape.cursor tape.size) := by
      simp [Parse.advance, cursor, size]
    intro context deeper _
    exact .inl ⟨(), tape.size, hrun context, hrun deeper, Nat.le_refl _, hp, trivial⟩

theorem advance {next : Unit → Parse β} (hlt : p < tape.size)
    (hnext : tape.Reads o (p + 1) (next ()) R) : tape.Reads o p (Parse.advance >>= next) R := by
  refine (advances hlt).bind ?_
  rintro _ q _ _ rfl
  exact hnext

theorem takes (hlt : p < tape.size) :
    tape.Reads o p Parse.take fun text q ↦ q = p + 1 ∧ text = (tape.token p).value :=
  ask (advance hlt (pure ⟨rfl, rfl⟩))

theorem take {next : Bytes → Parse β} (hlt : p < tape.size)
    (hnext : tape.Reads o (p + 1) (next (tape.token p).value) R) :
    tape.Reads o p (Parse.take >>= next) R := by
  refine (takes hlt).bind ?_
  rintro text q _ _ ⟨rfl, rfl⟩
  exact hnext

theorem expectWith {kind : TokenKind} {message : Bytes} [kind.Present] :
    tape.Reads o p (Parse.expectWith kind message) fun token q ↦
      q = p + 1 ∧ token = tape.token p ∧ tape.kind p = kind ∧ p < tape.size := by
  refine within fun ho _ ↦ ask (ite (fun h ↦ ?_) (fun _ ↦ failAt ho (Nat.le_refl p) (by simp)))
  have hfound : tape.kind p = kind := beq_iff_eq.mp h
  have hlt : p < tape.size := lt_size_of_kind hfound
  exact advance hlt (pure ⟨rfl, rfl, hfound, hlt⟩)

theorem expect {kind : TokenKind} {message : String} {next : Token → Parse β}
    [kind.Present]
    (hnext : tape.kind p = kind → p < tape.size → tape.Reads o (p + 1) (next (tape.token p)) R) :
    tape.Reads o p (Parse.expect kind message >>= next) R := by
  refine expectWith.bind ?_
  rintro token q _ _ ⟨rfl, rfl, hfound, hlt⟩
  exact hnext hfound hlt

theorem discard (h : tape.Reads o p action P) :
    tape.Reads o p (Functor.discard action) fun _ q ↦ ∃ value, P value q :=
  h.bind fun value _ _ _ hvalue ↦ pure ⟨value, hvalue⟩

/-- A token that is read for its kind alone. -/
theorem discardExpect {kind : TokenKind} {message : Bytes} {next : Unit → Parse β}
    [kind.Present]
    (hnext : tape.kind p = kind → p < tape.size → tape.Reads o (p + 1) (next ()) R) :
    tape.Reads o p (Functor.discard (Parse.expectWith kind message) >>= next) R := by
  refine expectWith.discard.bind ?_
  rintro _ q _ _ ⟨_, rfl, -, hfound, hlt⟩
  exact hnext hfound hlt

theorem expectMark {m : Mark} {message : String} {next : Unit → Parse β}
    (hnext : p < tape.size → tape.Reads o (p + 1) (next ()) R) :
    tape.Reads o p (Parse.expectMark m message >>= next) R :=
  discardExpect fun _ ↦ hnext

theorem expectWord {w : Word} {message : String} {next : Unit → Parse β}
    (hnext : p < tape.size → tape.Reads o (p + 1) (next ()) R) :
    tape.Reads o p (Parse.expectWord w message >>= next) R :=
  discardExpect fun _ ↦ hnext

theorem expectName {message : String} :
    tape.Passes o p (Parse.expectName message) fun _ ↦ True := by
  refine test (fun hname _ _ ↦ ?_) (fail (by simp))
  have hlt : p < tape.size := lt_size_of_holds (f := TokenKind.isName) hname rfl
  exact (takes hlt).mono fun _ _ _ _ h ↦ ⟨by omega, trivial⟩

/-- The name starts a good tag, whatever is put behind it. -/
theorem expectMemberName {code message : String} (hcode : code ≠ "") :
    tape.Passes o p (Parse.expectMemberName code message) fun name ↦
      ∀ rest, tape.Tag (name ++ rest) := by
  refine ask (ite (fun hname ↦ ?_) (fun _ ↦ fail hcode))
  have hlt : p < tape.size := lt_size_of_holds (f := TokenKind.isMemberName) hname rfl
  refine (takes hlt).mono ?_
  rintro _ _ _ _ ⟨rfl, rfl⟩
  exact ⟨by omega, fun rest ↦ ⟨_, token_mem hlt, hname, List.prefix_append _ _⟩⟩

end Reads

namespace Tests

theorem accept {kind : TokenKind} [kind.Present] :
    Tests tape p (Parse.accept kind) (p + 1) (tape.kind p = kind ∧ p < tape.size) where
  run _ := by
    refine ⟨tape.kind p == kind, fun context hfinal ↦ ?_, fun h ↦ ?_⟩
    · rw [Parse.accept, Parse.bind_of_ok ((Asks.at_ kind).run context hfinal)]
      split
      · next h =>
        have hlt : p < tape.size := lt_size_of_kind (beq_iff_eq.mp h)
        rw [Parse.bind_of_ok (Parse.advance_of_cons (cursor_after_eq hlt)), ← cursor_succ hlt, h]
        rfl
      · next h =>
        rw [(Bool.not_eq_true _).mp h]
        rfl
    · have hfound : tape.kind p = kind := beq_iff_eq.mp h
      have hlt : p < tape.size := lt_size_of_kind hfound
      exact ⟨⟨hfound, hlt⟩, Nat.le_succ p, hlt⟩

instance acceptMark (m : Mark) : Tests tape p (Parse.acceptMark m) (p + 1)
    (tape.kind p = .mark m ∧ p < tape.size) := accept

instance acceptWord (w : Word) : Tests tape p (Parse.acceptWord w) (p + 1)
    (tape.kind p = .word w ∧ p < tape.size) := accept

instance acceptString : Tests tape p (Parse.accept .string) (p + 1)
    (tape.kind p = .string ∧ p < tape.size) := accept

instance acceptTemplate (piece : TemplatePiece) : Tests tape p (Parse.accept (.template piece))
    (p + 1) (tape.kind p = .template piece ∧ p < tape.size) := accept

end Tests

namespace Reads

theorem semicolon : tape.Skips o p Parse.semicolon fun _ ↦ True := by
  refine test (fun _ _ _ ↦ pure trivial) ?_
  refine ask (ask (ask (ite (fun _ ↦ pure trivial) (fun _ ↦ fail (by simp)))))

/-! ### Nodes -/

theorem node {start : Token} {form : Plain Node} {Q : Node → Nat → Prop}
    (h : ∀ range, Q (.plain range form) p) : tape.Reads o p (Parse.node start form) Q :=
  fun _ hp _ _ _ ↦ .inl ⟨_, p, rfl, rfl, Nat.le_refl p, hp, h _⟩

theorem nodeThen {start : Token} {form : Plain Node} {next : Node → Parse β}
    (hnext : ∀ range, tape.Reads o p (next (.plain range form)) R) :
    tape.Reads o p (Parse.node start form >>= next) R := by
  refine bind (node (Q := fun node q ↦ q = p ∧ ∃ range, node = .plain range form)
    fun range ↦ ⟨rfl, range, rfl⟩) ?_
  rintro _ q _ _ ⟨rfl, range, rfl⟩
  exact hnext range

theorem surface {start : Token} {form : Surface Node} {Q : Node → Nat → Prop}
    (h : ∀ range, Q (.surface range form) p) : tape.Reads o p (Parse.surface start form) Q :=
  fun _ hp _ _ _ ↦ .inl ⟨_, p, rfl, rfl, Nat.le_refl p, hp, h _⟩

theorem surfaceThen {start : Token} {form : Surface Node} {next : Node → Parse β}
    (hnext : ∀ range, tape.Reads o p (next (.surface range form)) R) :
    tape.Reads o p (Parse.surface start form >>= next) R := by
  refine bind (surface (Q := fun node q ↦ q = p ∧ ∃ range, node = .surface range form)
    fun range ↦ ⟨rfl, range, rfl⟩) ?_
  rintro _ q _ _ ⟨rfl, range, rfl⟩
  exact hnext range

/-! ### Surroundings -/

theorem nested (h : tape.Reads o p action Q) : tape.Reads o p (Parse.nested action) Q := by
  intro ho hp context deeper hbeside
  have hlimit := hbeside.maxDepth
  unfold Parse.nested
  rw [hbeside.depth]
  split
  · refine .inr ⟨_, p, rfl, Nat.le_refl p, hp, ?_, p, ho, Nat.le_refl p, ?_⟩
    · exact bytes_ne_nil (by simp)
    · rw [hbeside.final, cursor_after_head]
      exact ⟨rfl, rfl⟩
  · rw [if_neg (by omega)]
    exact h ho hp { hbeside with depth := rfl }

theorem allowingIn (h : tape.Reads o p action Q) : tape.Reads o p (Parse.allowingIn action) Q :=
  fun ho hp _ _ hbeside ↦ h ho hp { hbeside with noIn := rfl }

theorem withoutIn (h : tape.Reads o p action Q) : tape.Reads o p (Parse.withoutIn action) Q :=
  fun ho hp _ _ hbeside ↦ h ho hp { hbeside with noIn := rfl }

/-! ### Repetition -/

/-- What a round of a repetition comes to: it moves on and asks for more, or it is the last. -/
inductive Round (P S : σ → Nat → Prop) (q : Nat) : σ × Bool → Nat → Prop
  | more {state : σ} {r : Nat} (hlt : q < r) (h : P state r) : Round P S q (state, true) r
  | last {state : σ} {r : Nat} (h : S state r) : Round P S q (state, false) r

theorem iterate {step : σ → Parse (σ × Bool)} {P S : σ → Nat → Prop} {rounds : Nat} {state : σ}
    (hstep : ∀ state q, p ≤ q → q ≤ tape.size → P state q →
      tape.Reads o q (step state) (Round P S q))
    (hrounds : tape.size - p < rounds) (hstate : P state p) :
    tape.Reads o p (Parse.iterate step rounds state) S := by
  induction rounds generalizing p state with
  | zero => omega
  | succ rounds ih =>
    refine within fun _ hp ↦ (hstep state p (Nat.le_refl p) hp hstate).bind ?_
    rintro _ q hpq hq hround
    cases hround with
    | last h => exact pure h
    | more hlt h =>
      refine ih (fun state r hr ↦ hstep state r (Nat.le_trans hpq hr)) ?_ h
      omega

section Lists

variable {more : Parse Bool} {f : Nat → Nat} {c : Nat → Prop}
  [hmore : ∀ q, Tests tape q more (f q) (c q)] {rounds : Nat}

theorem manyWhile {item : Parse α}
    (hitem : ∀ q, p ≤ q → q ≤ f q → f q ≤ tape.size → c q →
      tape.Reads o (f q) item fun value r ↦ q < r ∧ K value)
    (hrounds : tape.size - p < rounds) :
    tape.Skips o p (Parse.manyWhile rounds more item) fun values ↦ ∀ value ∈ values, K value := by
  refine iterate (P := fun values _ ↦ ∀ value ∈ values, K value) ?_ hrounds (by simp)
  intro values q hpq hq hvalues
  refine test (fun hc hqf hf ↦ (hitem q hpq hqf hf hc).bind ?_) (pure (.last hvalues))
  rintro value r _ _ ⟨hlt, hvalue⟩
  refine pure (.more hlt ?_)
  simpa [or_imp, forall_and] using ⟨hvalues, hvalue⟩

theorem looseList {item : Parse (α × Bool)}
    (hitem : ∀ q, p ≤ q → q ≤ f q → f q ≤ tape.size → c q →
      tape.Reads o (f q) item fun value r ↦ q < r ∧ K value.1)
    (hrounds : tape.size - p < rounds) :
    tape.Skips o p (Parse.looseList rounds more item) fun values ↦ ∀ value ∈ values, K value := by
  refine iterate (P := fun values _ ↦ ∀ value ∈ values, K value) ?_ hrounds (by simp)
  intro values q hpq hq hvalues
  refine test (fun hc hqf hf ↦ (hitem q hpq hqf hf hc).bind ?_) (pure (.last hvalues))
  rintro ⟨value, needsComma⟩ r _ _ ⟨hlt, hvalue⟩
  have hmore : ∀ v ∈ values ++ [value], K v := by
    simpa [or_imp, forall_and] using ⟨hvalues, hvalue⟩
  refine ite (fun _ ↦ decide (fun _ _ _ ↦ pure (.more (by omega) hmore)) ?_) ?_
  · exact pure (.last hmore)
  · exact fun _ ↦ pure (.more hlt hmore)

theorem commaList {item : Parse α}
    (hitem : ∀ q, p ≤ q → q ≤ f q → f q ≤ tape.size → c q →
      tape.Reads o (f q) item fun value r ↦ q < r ∧ K value)
    (hrounds : tape.size - p < rounds) :
    tape.Skips o p (Parse.commaList rounds more item) fun values ↦ ∀ value ∈ values, K value :=
  looseList (fun q hpq hqf hf hc ↦ (hitem q hpq hqf hf hc).bind fun _ _ _ _ h ↦ pure h) hrounds

end Lists

/-- One item or more. -/
theorem separated {item : Parse α} {m : Mark} {rounds : Nat}
    (hitem : ∀ q, p ≤ q → q ≤ tape.size → tape.Passes o q item K)
    (hrounds : tape.size - p < rounds) :
    tape.Passes o p (Parse.separated rounds m item) fun values ↦ ∀ value ∈ values, K value := by
  refine iterate (P := fun values _ ↦ ∀ value ∈ values, K value) ?_ hrounds (by simp)
  intro values q hpq hq hvalues
  refine (hitem q hpq hq).bind ?_
  rintro value r _ _ ⟨hlt, hvalue⟩
  have hmore : ∀ v ∈ values ++ [value], K v := by
    simpa [or_imp, forall_and] using ⟨hvalues, hvalue⟩
  refine decide (fun _ _ _ ↦ pure (.more (by omega) hmore)) (pure (.last ⟨by omega, hmore⟩))

/-! ### Parts that may be missing -/

section Parts

variable {present : Parse Bool} {c : Prop} [Tests tape p present q c]

theorem optionally {part : Parse α} {Q : Option α → Nat → Prop}
    (hpart : c → p ≤ q → q ≤ tape.size → tape.Reads o q part fun value r ↦ Q (some value) r)
    (hnone : Q none p) : tape.Reads o p (Parse.optionally present part) Q :=
  test (fun hc hpq hq ↦ (hpart hc hpq hq).bind fun _ _ _ _ h ↦ pure h) (pure hnone)

theorem textIf {text : Parse Bytes} {Q : Bytes → Nat → Prop}
    (htext : c → p ≤ q → q ≤ tape.size → tape.Reads o q text Q) (hnone : Q [] p) :
    tape.Reads o p (Parse.textIf present text) Q :=
  test htext (pure hnone)

end Parts

theorem dottedNames {name : Parse Bytes} {rounds : Nat}
    (hname : ∀ q, p < q → q ≤ tape.size → tape.Skips o q name fun _ ↦ True)
    (hrounds : tape.size - p < rounds) :
    tape.Skips o p (Parse.dottedNames rounds name) fun _ ↦ True := by
  refine (manyWhile (K := fun _ ↦ True) ?_ hrounds).bind fun _ _ _ _ _ ↦ pure trivial
  intro q hpq _ hq _
  exact (hname (q + 1) (by omega) hq).mono fun _ r hr _ _ ↦ ⟨hr, trivial⟩

theorem dottedMemberNames {code message : String} {rounds : Nat} (hcode : code ≠ "")
    (hrounds : tape.size - p < rounds) :
    tape.Skips o p (Parse.dottedNames rounds (Parse.expectMemberName code message))
      fun _ ↦ True := by
  refine dottedNames (fun q _ _ ↦ ?_) hrounds
  exact (expectMemberName hcode).mono fun _ _ _ _ _ ↦ trivial

/-! ### Stretches in brackets -/

theorem matching_lt {nesting : Int} {index close : Nat} {tokens : List Token}
    (h : Lookahead.matching nesting index tokens = some close) : close < index + tokens.length := by
  fun_induction Lookahead.matching nesting index tokens with
  | case1 => cases h
  | case2 _ _ _ _ _ ih | case4 _ _ _ _ _ _ _ ih | case6 _ _ _ _ _ _ _ ih =>
    have := ih h
    simp only [List.length_cons]
    omega
  | case3 =>
    cases h
    simp
  | case5 => cases h

theorem advanceBy {count : Nat} (h : p + count ≤ tape.size) :
    tape.Reads o p (Parse.advanceBy count) fun _ q ↦ q = p + count := by
  induction count generalizing p with
  | zero => exact pure rfl
  | succ count ih =>
    refine advance (by omega) ((ih (by omega)).mono fun _ q _ _ hq ↦ ?_)
    omega

theorem balanced : tape.Passes o p Parse.balanced fun _ ↦ True := by
  refine ask ?_
  dsimp only
  split
  · exact fail (by simp)
  · next close hclose =>
    refine within fun _ hp ↦ ?_
    have hlt := matching_lt hclose
    have hlength : (tape.cursor p).after.length = tape.size - p := List.length_drop
    have hadvance : tape.Reads o p (Parse.advanceBy (close + 1)) fun _ q ↦ q = p + (close + 1) :=
      advanceBy (by omega)
    exact hadvance.bind fun _ q _ _ hq ↦ pure ⟨by omega, trivial⟩

/-! ### What surrounds an action -/

/-- Of the surroundings only the reading of `in` is made use of. -/
theorem context {next : ParseContext → Parse β}
    (hnoIn : ∀ context deeper : ParseContext, deeper.noIn = context.noIn →
      next deeper = next context)
    (h : ∀ context, tape.Reads o p (next context) R) :
    tape.Reads o p (Parse.context >>= next) R := by
  intro ho hp context deeper hbeside
  have hrun : (Parse.context >>= next) deeper (tape.cursor p) =
      next context deeper (tape.cursor p) := by
    rw [← hnoIn context deeper hbeside.noIn]
    rfl
  rw [hrun]
  exact h context ho hp hbeside

/-- Goes back to where two actions started, when a mark follows them. -/
theorem orResume {first : Parse Unit} {m : Mark} {back : β} {next : α → β}
    (h : tape.Skips o p (do first; action) fun _ ↦ True) (hback : R back p)
    (hnext : ∀ value q, p ≤ q → R (next value) q) :
    tape.Reads o p (do
      first
      let value ← action
      if ← Parse.atMark m then
        Parse.resume (tape.cursor p)
        return back
      return next value) R := by
  rw [← Parse.bind_assoc_eq]
  intro ho hp context deeper hbeside
  obtain ⟨value, q, hrun, hdeeper, hpq, hq, -⟩ | ⟨failure, q, hrun, hfailed⟩ := h ho hp hbeside
  · left
    have hasks : Asks tape q (Parse.atMark m) (tape.kind q == .mark m) := inferInstance
    have hmark := hasks.run
    rw [Parse.bind_of_ok hrun, Parse.bind_of_ok hdeeper,
      Parse.bind_of_ok (hmark context hbeside.final),
      Parse.bind_of_ok (hmark deeper hbeside.final_deeper)]
    split
    · exact ⟨back, p, rfl, rfl, Nat.le_refl p, hp, hback⟩
    · exact ⟨next value, q, rfl, rfl, hpq, hq, hnext value q hpq⟩
  · exact .inr ⟨failure, q, Parse.bind_of_failed hrun, hfailed⟩

end Reads

namespace Passes

theorem bind (h : tape.Passes o p action K)
    (hnext : ∀ value q, p < q → q ≤ tape.size → K value → tape.Reads o q (next value) R) :
    tape.Reads o p (action >>= next) R :=
  Reads.bind h fun value q _ hq hvalue ↦ hnext value q hvalue.1 hq hvalue.2

/-- What moves on from a place moves on from every place before it. -/
theorem onward (h : tape.Passes o q action K) (hpq : p ≤ q) :
    tape.Reads o q action fun value r ↦ p < r ∧ K value :=
  Reads.mono h fun _ _ _ _ hvalue ↦ ⟨Nat.lt_of_le_of_lt hpq hvalue.1, hvalue.2⟩

theorem weaken (h : tape.Passes o p action K) (hK : ∀ value, K value → K' value) :
    tape.Passes o p action K' :=
  Reads.mono h fun _ _ _ _ hvalue ↦ ⟨hvalue.1, hK _ hvalue.2⟩

theorem skips (h : tape.Passes o p action K) : tape.Skips o p action K :=
  Reads.mono h fun _ _ _ _ hvalue ↦ hvalue.2

end Passes

namespace Skips

theorem onward (h : tape.Skips o q action K) (hpq : p < q) :
    tape.Reads o q action fun value r ↦ p < r ∧ K value :=
  Reads.mono h fun _ _ hqr _ hvalue ↦ ⟨Nat.lt_of_lt_of_le hpq hqr, hvalue⟩

theorem textIf {present : Parse Bool} {c : Prop} [Tests tape p present q c] {text : Parse Bytes}
    (htext : c → p ≤ q → q ≤ tape.size → tape.Skips o q text fun _ ↦ True) :
    tape.Skips o p (Parse.textIf present text) fun _ ↦ True :=
  Reads.textIf htext trivial

theorem weaken (h : tape.Skips o p action K) (hK : ∀ value, K value → K' value) :
    tape.Skips o p action K' :=
  Reads.mono h fun _ _ _ _ hvalue ↦ hK _ hvalue

end Skips

/-! ## Entry points -/

/-- The entry points of a grammar read what they stand for, given enough levels: some for each token
that is left, and as many more as the entry point has entry points below it that read nothing in
front of it. -/
structure Serves (tape : Tape) (g : Grammar) (level : Nat) : Prop where
  rounds : level ≤ g.rounds
  statement {o p : Nat} (h : 12 * (tape.size - p) + 7 ≤ level) :
    tape.Forms o p g.statement .statement
  assignment {o p : Nat} (h : 12 * (tape.size - p) + 6 ≤ level) :
    tape.Forms o p g.assignment .expression
  binary {o p : Nat} (h : 12 * (tape.size - p) + 5 ≤ level) (least : Nat) :
    tape.Forms o p (g.binary least) .expression
  unary {o p : Nat} (h : 12 * (tape.size - p) + 4 ≤ level) :
    tape.Forms o p g.unary .expression
  primary {o p : Nat} (h : 12 * (tape.size - p) + 3 ≤ level) :
    tape.Forms o p g.primary .expression
  construction {o p : Nat} (h : 12 * (tape.size - p) + 2 ≤ level) :
    tape.Forms o p g.construction .expression
  element {o p : Nat} (h : 12 * (tape.size - p) + 2 ≤ level) :
    tape.Passes o p g.element fun node ↦ node.Fits tape.Tag .expression ∧ node.isMarkup
  bindingTarget {o p : Nat} (h : 12 * (tape.size - p) + 2 ≤ level) :
    tape.Forms o p g.bindingTarget .expression
  type {o p : Nat} (h : 12 * (tape.size - p) + 3 ≤ level) :
    tape.Passes o p g.type fun _ ↦ True
  typeOperator {o p : Nat} (h : 12 * (tape.size - p) + 2 ≤ level) :
    tape.Passes o p g.typeOperator fun _ ↦ True

end Tape

end SignalView
