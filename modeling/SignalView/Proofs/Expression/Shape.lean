import SignalView.Proofs.Expression.Term

/-!
# The grammar of terms

Which terms can be written without further parentheses, as rules of their own: operands with what
follows them, prefix operators, infix operators by how strongly they bind, conditionals, and the
items of lists. Beside the rules stand the tokens that terms start with and those that may follow
them.
-/

namespace SignalView

namespace InfixOp

def precedence (op : InfixOp) : Nat := Grammar.precedence op.kind

/-- How strongly the operators on the left side have to bind. -/
def leftLeast (op : InfixOp) : Nat := if op = .power then op.precedence + 1 else op.precedence

/-- How strongly the operators on the right side have to bind. -/
def rightLeast (op : InfixOp) : Nat := if op = .power then op.precedence else op.precedence + 1

theorem precedence_pos (op : InfixOp) : 0 < op.precedence := by cases op <;> decide

theorem precedence_le_leftLeast (op : InfixOp) : op.precedence ≤ op.leftLeast := by
  unfold leftLeast
  split <;> omega

theorem precedence_le_rightLeast (op : InfixOp) : op.precedence ≤ op.rightLeast := by
  unfold rightLeast
  split <;> omega

theorem rightLeast_le (op : InfixOp) : op.rightLeast ≤ 12 := by cases op <;> decide

/-- Operators that one may stand unparenthesised on the left of do not take it for their right
side. -/
theorem precedence_lt_rightLeast {op next : InfixOp} (h : next.leftLeast ≤ op.precedence) :
    next.precedence < op.rightLeast := by
  revert h
  cases op <;> cases next <;> decide

end InfixOp

namespace Term

/-- The parts of the grammar of terms. -/
inductive Rank where
  | operand
  | unary
  | binary (least : Nat)
  | assignment
  | item
  | element

/-- The terms of a part of the grammar. -/
inductive Fits : Rank → Term → Prop
  | name (spelling : Bytes) : Fits .operand (.name spelling)
  | number (raw : Bytes) (isBigint : Bool) : Fits .operand (.number raw isBigint)
  | string (value : Bytes) : Fits .operand (.string value)
  | paren {inner : Term} : Fits .assignment inner → Fits .operand (.paren inner)
  | array {elements : List Term} :
    (∀ t ∈ elements, Fits .element t) → Fits .operand (.array elements)
  | call {callee : Term} {args : List Term} :
    Fits .operand callee → (∀ t ∈ args, Fits .item t) → Fits .operand (.call callee args)
  | index {receiver key : Term} :
    Fits .operand receiver → Fits .assignment key → Fits .operand (.index receiver key)
  | member {receiver : Term} (key : Bytes) :
    Fits .operand receiver → Fits .operand (.member receiver key)
  | ofOperand {t : Term} : Fits .operand t → Fits .unary t
  | unary {operand : Term} (op : PrefixOp) : Fits .unary operand → Fits .unary (.unary op operand)
  | ofUnary {least : Nat} {t : Term} : Fits .unary t → Fits (.binary least) t
  | binary {least : Nat} {op : InfixOp} {left right : Term} :
    least ≤ op.precedence → Fits (.binary op.leftLeast) left → Fits (.binary op.rightLeast) right →
      Fits (.binary least) (.binary op left right)
  | ofBinary {t : Term} : Fits (.binary 1) t → Fits .assignment t
  | conditional {test consequent alternate : Term} :
    Fits (.binary 1) test → Fits .assignment consequent → Fits .assignment alternate →
      Fits .assignment (.conditional test consequent alternate)
  | ofAssignment {t : Term} : Fits .assignment t → Fits .item t
  | spread {argument : Term} : Fits .assignment argument → Fits .item (.spread argument)
  | ofItem {t : Term} : Fits .item t → Fits .element t
  | hole : Fits .element .hole

theorem Fits.weaken {least least' : Nat} {t : Term} (h : Fits (.binary least) t)
    (hle : least' ≤ least) : Fits (.binary least') t := by
  cases h with
  | ofUnary h => exact .ofUnary h
  | binary hop hleft hright => exact .binary (Nat.le_trans hle hop) hleft hright

theorem Fits.isHole {rank : Rank} {t : Term} (h : Fits rank t) (hrank : rank ≠ .element) :
    t.isHole = false := by
  induction h with
  | ofItem _ _ | hole => exact absurd rfl hrank
  | ofOperand _ ih | ofUnary _ ih | ofBinary _ ih | ofAssignment _ ih => exact ih nofun
  | _ => rfl

theorem havePlainNames_iff {ts : List Term} : HavePlainNames ts ↔ ∀ t ∈ ts, t.HasPlainNames := by
  induction ts with
  | nil => simp [HavePlainNames]
  | cons t ts ih => simp [HavePlainNames, ih]

mutual

theorem IsPlain.hasPlainNames : ∀ {t : Term}, t.IsPlain → t.HasPlainNames
  | .name _, h => h
  | .number _ _, _ | .string _, _ | .hole, _ => trivial
  | .paren t, h | .unary _ t, h | .spread t, h => IsPlain.hasPlainNames (t := t) h
  | .array _, h => ArePlain.havePlainNames h
  | .binary _ _ _, h | .index _ _, h => ⟨h.1.hasPlainNames, h.2.hasPlainNames⟩
  | .conditional _ _ _, h => ⟨h.1.hasPlainNames, h.2.1.hasPlainNames, h.2.2.hasPlainNames⟩
  | .call _ _, h => ⟨h.1.hasPlainNames, ArePlain.havePlainNames h.2⟩
  | .member _ _, h => h.1.hasPlainNames

theorem ArePlain.havePlainNames : ∀ {ts : List Term}, ArePlain ts → HavePlainNames ts
  | [], _ => trivial
  | _ :: _, h => ⟨h.1.hasPlainNames, ArePlain.havePlainNames h.2⟩

end

theorem arePlain_iff {ts : List Term} : ArePlain ts ↔ ∀ t ∈ ts, t.IsPlain := by
  induction ts with
  | nil => simp [ArePlain]
  | cons t ts ih => simp [ArePlain, ih]

/-! ## Where terms start -/

/-- The kinds of tokens that an operand starts with. -/
def StartsOperand (kind : TokenKind) : Prop :=
  kind = .identifier ∨ kind = .number ∨ kind = .bigint ∨ kind = .string ∨
    kind = .mark .openParen ∨ kind = .mark .openBracket

/-- The kinds of tokens that a term starts with. -/
def Starts (kind : TokenKind) : Prop := StartsOperand kind ∨ ∃ op : PrefixOp, kind = op.kind

/-- What holds of every kind that an operand starts with. -/
@[elab_as_elim]
theorem StartsOperand.elim {P : TokenKind → Prop} {kind : TokenKind} (h : StartsOperand kind)
    (hname : P .identifier) (hnumber : P .number) (hbigint : P .bigint) (hstring : P .string)
    (hparen : P (.mark .openParen)) (hbracket : P (.mark .openBracket)) : P kind := by
  rcases h with rfl | rfl | rfl | rfl | rfl | rfl <;> assumption

/-- What holds of every kind that a term starts with. -/
@[elab_as_elim]
theorem Starts.elim {P : TokenKind → Prop} {kind : TokenKind} (h : Starts kind)
    (hname : P .identifier) (hnumber : P .number) (hbigint : P .bigint) (hstring : P .string)
    (hparen : P (.mark .openParen)) (hbracket : P (.mark .openBracket))
    (hop : ∀ op : PrefixOp, P op.kind) : P kind := by
  rcases h with h | ⟨op, rfl⟩
  · exact h.elim hname hnumber hbigint hstring hparen hbracket
  · exact hop op

/-- The first token of a term, by its part of the grammar. -/
def StartsAs : Rank → Term → Prop
  | .operand, t => ∃ sign rest, t.signs = sign :: rest ∧ StartsOperand sign.kind
  | .item, t => ∃ sign rest, t.signs = sign :: rest ∧
    (Starts sign.kind ∨ sign.kind = .mark .ellipsis)
  | .element, t => t.isHole = true ∨ ∃ sign rest, t.signs = sign :: rest ∧
    (Starts sign.kind ∨ sign.kind = .mark .ellipsis)
  | _, t => ∃ sign rest, t.signs = sign :: rest ∧ Starts sign.kind

theorem Fits.startsAs {rank : Rank} {t : Term} (h : Fits rank t) : StartsAs rank t := by
  induction h with
  | name spelling => exact ⟨_, _, rfl, .inl rfl⟩
  | number raw isBigint =>
    refine ⟨_, _, rfl, ?_⟩
    cases isBigint
    · exact .inr (.inl rfl)
    · exact .inr (.inr (.inl rfl))
  | string value => exact ⟨_, _, rfl, .inr (.inr (.inr (.inl rfl)))⟩
  | paren _ _ => exact ⟨_, _, rfl, .inr (.inr (.inr (.inr (.inl rfl))))⟩
  | array _ _ => exact ⟨_, _, rfl, .inr (.inr (.inr (.inr (.inr rfl))))⟩
  | unary op _ _ => exact ⟨_, _, rfl, .inr ⟨op, rfl⟩⟩
  | call _ _ ih _ | index _ _ ih _ | member _ _ ih | binary _ _ _ ih _ | conditional _ _ _ ih _ _ =>
    obtain ⟨sign, rest, hsigns, hstarts⟩ := ih
    exact ⟨sign, _, by rw [signs, hsigns]; rfl, hstarts⟩
  | ofOperand _ ih =>
    obtain ⟨sign, rest, hsigns, hstarts⟩ := ih
    exact ⟨sign, rest, hsigns, .inl hstarts⟩
  | ofUnary _ ih | ofBinary _ ih => exact ih
  | ofAssignment _ ih =>
    obtain ⟨sign, rest, hsigns, hstarts⟩ := ih
    exact ⟨sign, rest, hsigns, .inl hstarts⟩
  | spread _ _ => exact ⟨_, _, rfl, .inr rfl⟩
  | ofItem _ ih => exact .inr ih
  | hole => exact .inl rfl

/-! ## What follows terms -/

/-- The kinds of tokens that end a whole expression. -/
def closers : List TokenKind := [
  .mark .closeParen, .mark .closeBracket, .mark .comma, .mark .colon, .mark .semicolon, .eof]

/-- The kinds of tokens that may follow a term whose operators bind at least so strongly: those
that end an expression, and unless the limit is zero a question mark and weaker operators. -/
def Follows (limit : Nat) (kind : TokenKind) : Prop :=
  kind ∈ closers ∨ (0 < limit ∧ kind = .mark .question) ∨
    ∃ op : InfixOp, op.precedence < limit ∧ kind = op.kind

/-- What holds of every kind that may follow a term. -/
@[elab_as_elim]
theorem Follows.elim {limit : Nat} {P : TokenKind → Prop} {kind : TokenKind}
    (h : Follows limit kind) (hcloseParen : P (.mark .closeParen))
    (hcloseBracket : P (.mark .closeBracket)) (hcomma : P (.mark .comma))
    (hcolon : P (.mark .colon)) (hsemicolon : P (.mark .semicolon)) (heof : P .eof)
    (hquestion : P (.mark .question)) (hop : ∀ op : InfixOp, P op.kind) : P kind := by
  rcases h with h | ⟨-, rfl⟩ | ⟨op, -, rfl⟩
  · simp only [closers, List.mem_cons, List.not_mem_nil, or_false] at h
    rcases h with rfl | rfl | rfl | rfl | rfl | rfl <;> assumption
  · exact hquestion
  · exact hop op

theorem Follows.precedence_eq {limit : Nat} {kind : TokenKind} (h : Follows limit kind) :
    Grammar.precedence kind = 0 ∨ Grammar.precedence kind < limit := by
  rcases h with h | ⟨-, rfl⟩ | ⟨op, hop, rfl⟩
  · left
    revert kind
    decide
  · exact .inl rfl
  · exact .inr hop

theorem Follows.mono {limit limit' : Nat} {kind : TokenKind} (h : Follows limit kind)
    (hle : limit ≤ limit') : Follows limit' kind := by
  rcases h with h | ⟨hpos, h⟩ | ⟨op, hop, h⟩
  · exact .inl h
  · exact .inr (.inl ⟨by omega, h⟩)
  · exact .inr (.inr ⟨op, by omega, h⟩)

end Term

end SignalView
