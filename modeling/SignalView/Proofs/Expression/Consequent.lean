import SignalView.Proofs.Expression.Statement
import SignalView.Token.Stream

/-!
# Parentheses behind a question mark

Parentheses between the question mark and the colon of a conditional are an expression or the
parameters of an arrow function. The grammar decides by the tokens behind them: a colon and an arrow
further on are taken for a return type and its arrow, although the colon may be that of the
conditional and the arrow one of its other branch. So the parentheses are an expression just where
no arrow is found, and never where the other branch is an arrow function with a bare parameter.
-/

namespace SignalView

open Parse

namespace Lookahead

/-! ## Arrows behind parentheses -/

/-- The nesting behind some tokens. There is none when a bracket is closed that none of the tokens
opens, or when the input ends. -/
def nestingBehind (nesting : Nat) : List Token → Option Nat
  | [] => some nesting
  | token :: rest =>
    if token.kind.isOpening then nestingBehind (nesting + 1) rest
    else if token.kind.isClosing then
      if nesting == 0 then none else nestingBehind (nesting - 1) rest
    else if token.kind == .eof then none
    else nestingBehind nesting rest

/-- As many brackets are closed as are opened, and none before it is opened. -/
def IsNested (tokens : List Token) : Prop := nestingBehind 0 tokens = some 0

theorem matching_append {tokens : List Token} {nesting behind : Nat}
    (h : nestingBehind nesting tokens = some behind) (index : Nat) (rest : List Token) :
    matching (nesting + 1) index (tokens ++ rest) =
      matching (behind + 1) (index + tokens.length) rest := by
  induction tokens generalizing nesting index with
  | nil =>
    cases h
    rfl
  | cons token tokens ih =>
    rw [nestingBehind] at h
    rw [List.cons_append, matching, List.length_cons, Nat.add_comm tokens.length, ← Nat.add_assoc]
    split at h
    · next hopening => rw [if_pos hopening, ← ih h, Int.natCast_add_one]
    next hopening =>
    rw [if_neg hopening]
    split at h
    · next hclosing =>
      split at h
      · cases h
      · next hpos =>
        obtain ⟨fewer, rfl⟩ := Nat.exists_eq_succ_of_ne_zero (by simpa using hpos)
        rw [if_pos hclosing, if_neg (by simp; omega), ← ih h, Int.natCast_add_one,
          Int.add_sub_cancel, Nat.succ_sub_one]
    next hclosing =>
    rw [if_neg hclosing]
    split at h
    · cases h
    · next heof => rw [if_neg heof, ← ih h]

variable {opening closing : Token} {inner : List Token}

theorem matching_parentheses (hopening : opening.kind = .mark .openParen) (hinner : IsNested inner)
    (hclosing : closing.kind = .mark .closeParen) (rest : List Token) :
    matching 0 0 (opening :: (inner ++ closing :: rest)) = some (inner.length + 1) := by
  rw [matching, if_pos (by rw [hopening]; rfl)]
  have hmatching : matching (0 + 1) 1 (inner ++ closing :: rest) = _ := matching_append hinner 1 _
  rw [Nat.zero_add, hmatching, matching, hclosing, Nat.add_comm inner.length]
  rfl

/-- A colon behind parentheses and an arrow behind one more name make an arrow function of them. -/
theorem startsArrow_of_bareArrow {colon parameter arrow : Token}
    (hopening : opening.kind = .mark .openParen) (hinner : IsNested inner)
    (hclosing : closing.kind = .mark .closeParen) (hcolon : colon.kind = .mark .colon)
    (hparameter : parameter.kind.isName = true) (harrow : arrow.kind = .mark .arrow)
    (rest : List Token) :
    startsArrow (opening :: (inner ++ closing :: colon :: parameter :: arrow :: rest)) = true := by
  have hfollows : arrowFollows 0 ((parameter :: arrow :: rest).take returnTypeWindow) = true := by
    rw [returnTypeWindow, List.take_succ_cons, List.take_succ_cons, arrowFollows]
    generalize parameter.kind = kind at hparameter
    cases kind with
    | identifier | word _ => simp [arrowFollows, harrow]
    | _ => cases hparameter
  unfold startsArrow
  rw [matching_parentheses hopening hinner hclosing]
  simp [hcolon, hfollows]

end Lookahead

/-! ## The parts of a conditional -/

theorem Parse.expectMark_of_cons {context : ParseContext} {token : Token}
    {before after : List Token} {m : Mark} (hkind : token.kind = .mark m) (message : String) :
    expectMark m message context ⟨before, token :: after⟩ = .ok () ⟨token :: before, after⟩ := by
  rw [expectMark, ← hkind]
  exact bind_of_ok (expect_of_cons rfl message)

namespace Grammar

open Term

variable {level : Nat} {context : ParseContext} {cursor behind : TokenCursor} {node : Node}

/-- A primary expression that neither a link nor an operator follows. -/
theorem binary_of_primaryStep (hfinal : context.final.kind = .eof)
    (hstart : StartsOperand (headKind cursor.signs)) (hfollows : Follows 1 (headKind behind.signs))
    (h : (grammar level).primaryStep context cursor = .ok node behind) :
    (grammar (level + 3)).binary 1 context cursor = .ok node behind := by
  have hnew : (headKind cursor.signs == .word .new) = false := by
    generalize headKind cursor.signs = kind at hstart ⊢
    exact hstart.elim rfl rfl rfl rfl rfl rfl
  have hoperand : (grammar (level + 1)).operand context cursor = .ok node behind := by
    rw [operand, atWord, bind_of_ok (at_eq _ hfinal), hnew]
    exact h
  have hleft : (grammar (level + 1)).leftHandSide context cursor = .ok node behind := by
    rw [leftHandSide, bind_of_ok current_eq, bind_of_ok hoperand, chain_eq, grammar_rounds]
    refine (Loops.refl node behind).iterate_of_stop ?_ level.succ_pos
    rw [linkRound, bind_of_ok (link_eq_none hfinal hfollows)]
    rfl
  have hunary : (grammar (level + 2)).unary context cursor = .ok node behind :=
    unaryStep_of_leftHandSide hfinal hstart hfollows hleft
  change (grammar (level + 2)).binaryStep 1 context cursor = _
  rw [binaryStep_eq, bind_of_ok current_eq, bind_of_ok hunary, grammar_rounds]
  refine (Loops.refl node behind).iterate_of_stop ?_ (level + 1).succ_pos
  rw [binaryRound, bind_of_ok (binaryLink_eq_none hfinal hfollows)]
  rfl

variable {opening closing : Token} {before after rest : List Token}

theorem atArrow_of_parenthesis (hfinal : context.final.kind = .eof)
    (hopening : opening.kind = .mark .openParen) :
    atArrow context ⟨before, opening :: after⟩ =
      .ok (Lookahead.startsArrow (opening :: after)) ⟨before, opening :: after⟩ := by
  have hhead : headKind (⟨before, opening :: after⟩ : TokenCursor).signs = .mark .openParen :=
    hopening
  rw [atArrow, bind_of_ok (atMark_eq _ hfinal), hhead]
  rfl

/-- Parentheses around an expression, where they are not looked at as parameters. -/
theorem conditional_of_parentheses {inside : List Token} (hfinal : context.final.kind = .eof)
    (hopening : opening.kind = .mark .openParen)
    (hinner : (grammar level).expression { context with noIn := false } ⟨opening :: before, after⟩ =
      .ok node ⟨inside, closing :: rest⟩)
    (hclosing : closing.kind = .mark .closeParen)
    (hfollows : Follows 0 (headKind (rest.map Token.sign))) :
    (grammar (level + 3)).conditional context ⟨before, opening :: after⟩ =
      .ok (.plain ⟨opening.start, closing.stopPosition⟩ (.paren node))
        ⟨closing :: inside, rest⟩ := by
  have hprimary : (grammar level).primaryStep context ⟨before, opening :: after⟩ =
      .ok (.plain ⟨opening.start, closing.stopPosition⟩ (.paren node))
        ⟨closing :: inside, rest⟩ := by
    have hallowed : allowingIn (grammar level).expression context ⟨opening :: before, after⟩ =
        .ok node ⟨inside, closing :: rest⟩ := hinner
    rw [primaryStep, bind_of_ok (current_of_cons rfl)]
    simp only [hopening]
    rw [parenthesized, bind_of_ok (current_of_cons rfl), bind_of_ok (advance_of_cons rfl),
      bind_of_ok hallowed, bind_of_ok (expectMark_of_cons hclosing _)]
    rfl
  have hstart : StartsOperand (headKind (⟨before, opening :: after⟩ : TokenCursor).signs) :=
    .inr (.inr (.inr (.inr (.inl hopening))))
  have hbinary := binary_of_primaryStep hfinal hstart (hfollows.mono (by decide)) hprimary
  have hquestion : acceptMark .question context ⟨closing :: inside, rest⟩ =
      .ok false ⟨closing :: inside, rest⟩ := accept_eq_false hfinal hfollows.ne_question
  rw [conditional, bind_of_ok current_eq, bind_of_ok hbinary, bind_of_ok hquestion]
  rfl

variable {test question : Token}

theorem conditional_of_name (hfinal : context.final.kind = .eof) (htest : test.kind = .identifier)
    (hquestion : question.kind = .mark .question) :
    (grammar (level + 3)).conditional context ⟨before, test :: question :: after⟩ = (do
      let consequent ← allowingIn (grammar (level + 3)).assignment
      expectMark .colon "Expected ':' in conditional expression"
      let alternate ← (grammar (level + 3)).assignment
      Parse.node test (.conditional
        (.plain ⟨test.start, test.stopPosition⟩ (.identifier test.value)) consequent alternate))
        context ⟨question :: test :: before, after⟩ := by
  have hprimary : (grammar level).primaryStep context ⟨before, test :: question :: after⟩ =
      .ok (.plain ⟨test.start, test.stopPosition⟩ (.identifier test.value))
        ⟨test :: before, question :: after⟩ := by
    rw [primaryStep, bind_of_ok (current_of_cons rfl)]
    simp only [htest, nameExpression]
    rfl
  have hstart : StartsOperand
      (headKind (⟨before, test :: question :: after⟩ : TokenCursor).signs) := .inl htest
  have hfollows : Follows 1 (headKind (⟨test :: before, question :: after⟩ : TokenCursor).signs) :=
    .inr (.inl ⟨Nat.one_pos, hquestion⟩)
  have haccept : acceptMark .question context ⟨test :: before, question :: after⟩ =
      .ok true ⟨question :: test :: before, after⟩ := by
    rw [acceptMark, ← hquestion]
    exact accept_of_cons rfl
  rw [conditional, bind_of_ok (current_of_cons rfl),
    bind_of_ok (binary_of_primaryStep hfinal hstart hfollows hprimary), bind_of_ok haccept]
  rfl

theorem atArrow_of_name (hfinal : context.final.kind = .eof) (htest : test.kind = .identifier)
    (hquestion : question.kind = .mark .question) :
    atArrow context ⟨before, test :: question :: after⟩ =
      .ok false ⟨before, test :: question :: after⟩ := by
  have hhead : headKind (⟨before, test :: question :: after⟩ : TokenCursor).signs = .identifier :=
    htest
  have hnext : markAhead 1 .arrow context ⟨before, test :: question :: after⟩ =
      .ok false ⟨before, test :: question :: after⟩ :=
    congrArg (ParseOutcome.ok · _) (beq_false_of_ne (by simp [hquestion]))
  have hname : nameAhead 0 context ⟨before, test :: question :: after⟩ =
      .ok test.kind.isName ⟨before, test :: question :: after⟩ := rfl
  rw [atArrow, bind_of_ok (atMark_eq _ hfinal), hhead, if_neg (by decide), bind_of_ok hname,
    bind_of_ok hnext, bind_of_ok (atMark_eq _ hfinal), hhead, Bool.and_false]
  rfl

/-- An assignment that is a conditional was read as one where no arrow function is ahead. -/
theorem assignmentStep_eq_ok {g : Grammar} {cursor' : TokenCursor} {range : Range}
    {test consequent alternate : Node} (hfinal : context.final.kind = .eof)
    (hstart : Starts (headKind cursor.signs))
    (harrow : ∀ inner : ParseContext, inner.final.kind = .eof →
      atArrow inner cursor = .ok false cursor)
    (h : g.assignmentStep context cursor =
      .ok (.plain range (.conditional test consequent alternate)) cursor') :
    (context.depth : Int) < context.maxDepth ∧
      g.conditional { context with depth := context.depth + 1 } cursor =
        .ok (.plain range (.conditional test consequent alternate)) cursor' := by
  rw [assignmentStep, nested] at h
  split at h
  · cases h
  refine ⟨by omega, ?_⟩
  replace hfinal : ({ context with depth := context.depth + 1 } : ParseContext).final.kind = .eof :=
    hfinal
  generalize ({ context with depth := context.depth + 1 } : ParseContext) = inner at hfinal h ⊢
  obtain ⟨hasync, -, hyield, -⟩ := hstart.ne
  rw [bind_of_ok current_eq, bind_of_ok (atAsyncArrow_eq_false hfinal hasync),
    if_neg Bool.false_ne_true, bind_of_ok (harrow inner hfinal), if_neg Bool.false_ne_true,
    bind_of_ok (atWord_eq _ hfinal), beq_false_of_ne hyield, if_neg Bool.false_ne_true] at h
  obtain ⟨target, behind, htarget, h⟩ := bind_eq_ok h
  rw [bind_of_ok current_eq] at h
  generalize (behind.after.head?.getD inner.final).kind = kind at h
  split at h
  · split at h
    · obtain ⟨op, _, -, h⟩ := bind_eq_ok h
      obtain ⟨value, _, -, h⟩ := bind_eq_ok h
      cases h
    · obtain ⟨rfl, rfl⟩ := pure_eq_ok h
      exact htarget
  · obtain ⟨rfl, rfl⟩ := pure_eq_ok h
    exact htarget

theorem arrowFunction_gets_arrow (g : Grammar) (isAsync : Bool) :
    (g.arrowFunction isAsync).Gets fun node ↦ ∃ range f, node = .plain range (.arrow f) := by
  unfold arrowFunction
  refine .ite (.last fun start ↦ ?_) (.last fun start ↦ ?_)
  all_goals
    refine .last fun typeParameters ↦ .last fun signature ↦ .last fun _ ↦ .last fun isBlock ↦ ?_
    exact .ite (.last fun block ↦ .last fun body ↦ .node fun range ↦ ⟨range, _, rfl⟩)
      (.last fun value ↦ .last fun body ↦ .node fun range ↦ ⟨range, _, rfl⟩)

/-- Parentheses that an arrow follows are read as parameters. -/
theorem assignment_of_parameters {g : Grammar} {cursor' : TokenCursor}
    (hfinal : context.final.kind = .eof) (hopening : opening.kind = .mark .openParen)
    (harrow : Lookahead.startsArrow (opening :: after) = true)
    (h : g.assignmentStep context ⟨before, opening :: after⟩ = .ok node cursor') :
    ∃ range f, node = .plain range (.arrow f) := by
  have h := nested_eq_ok h
  replace hfinal : ({ context with depth := context.depth + 1 } : ParseContext).final.kind = .eof :=
    hfinal
  generalize ({ context with depth := context.depth + 1 } : ParseContext) = inner at hfinal h
  have hasync : headKind (⟨before, opening :: after⟩ : TokenCursor).signs ≠ .word .async := by
    simp [TokenCursor.signs, Token.sign, hopening]
  rw [bind_of_ok current_eq, bind_of_ok (atAsyncArrow_eq_false hfinal hasync),
    if_neg Bool.false_ne_true, bind_of_ok (atArrow_of_parenthesis hfinal hopening), harrow,
    if_pos rfl] at h
  exact (arrowFunction_gets_arrow g false).of_ok h

end Grammar

/-! ## Whole statements -/

/-- With enough levels for the tokens ahead an action reads some of them in full and gives a node of
a kind. -/
def ReadsInFull (action : Grammar → Parse Node) (context : ParseContext)
    (before tokens rest : List Token) (P : Node → Prop) : Prop :=
  ∀ level, levelsPerToken * (tokens ++ rest).length ≤ level → ∃ node,
    action (grammar level) context ⟨before, tokens ++ rest⟩ =
      .ok node ⟨tokens.reverse ++ before, rest⟩ ∧ P node

/-- The tokens of a statement that tests a name, with parentheses behind the question mark. -/
structure Choice where
  test : Token
  question : Token
  opening : Token
  inner : List Token
  closing : Token
  colon : Token
  alternate : List Token
  semicolon : Token
  test_kind : test.kind = .identifier
  question_kind : question.kind = .mark .question
  opening_kind : opening.kind = .mark .openParen
  closing_kind : closing.kind = .mark .closeParen
  colon_kind : colon.kind = .mark .colon
  semicolon_kind : semicolon.kind = .mark .semicolon

namespace Choice

open Grammar Term

variable (c : Choice) (options : Program.Options) (final : Token)

/-- The tokens from the closing parenthesis on. -/
def rest : List Token := c.closing :: c.colon :: (c.alternate ++ [c.semicolon])

/-- The tokens from the opening parenthesis on. -/
def consequent : List Token := c.opening :: (c.inner ++ c.rest)

def tokens : List Token := c.test :: c.question :: c.consequent

/-- What stands in the parentheses is an expression, and nothing else. -/
def ReadsInner (P : Node → Prop) : Prop :=
  ReadsInFull expression { final := final, maxDepth := options.maxDepth, depth := 3 }
    [c.opening, c.question, c.test] c.inner c.rest P

/-- What stands between the colon and the semicolon is an expression, and nothing else. -/
def ReadsAlternate (P : Node → Prop) : Prop :=
  ReadsInFull Grammar.assignment { final := final, maxDepth := options.maxDepth, depth := 2 }
    (c.colon :: c.closing :: (c.inner.reverse ++ [c.opening, c.question, c.test])) c.alternate
    [c.semicolon] P

/-- The tree of the statement as it is written: a conditional with parentheses around the first of
its branches. -/
def Depicts (P Q : Node → Prop) (root : Node) : Prop :=
  ∃ (program statement choice test paren : Range) (inner alternate : Node),
    root = .surface program (.program [.plain statement (.expressionStatement
      (.plain choice (.conditional (.plain test (.identifier c.test.value))
        (.plain paren (.paren inner)) alternate)))]) ∧ P inner ∧ Q alternate

variable {c options final} {P Q : Node → Prop} {level : Nat} {context : ParseContext}

theorem starts : Starts (headKind (⟨[], c.tokens⟩ : TokenCursor).signs) := .inl (.inl c.test_kind)

/-- A conditional in front of the semicolon is the expression of a statement. -/
theorem expressionStatement_of_conditional {node : Node} {inside : List Token}
    (hfinal : context.final.kind = .eof) (hdepth : (context.depth : Int) < context.maxDepth)
    (h : (grammar level).conditional { context with depth := context.depth + 1 } ⟨[], c.tokens⟩ =
      .ok node ⟨inside, [c.semicolon]⟩) :
    (grammar (level + 1)).expressionStatement context ⟨[], c.tokens⟩ =
      .ok (.plain ⟨c.test.start, c.semicolon.stopPosition⟩ (.expressionStatement node))
        ⟨c.semicolon :: inside, []⟩ := by
  have hend : headKind (⟨inside, [c.semicolon]⟩ : TokenCursor).signs = .mark .semicolon :=
    c.semicolon_kind
  have hassignment : (grammar (level + 1)).assignment context ⟨[], c.tokens⟩ =
      .ok node ⟨inside, [c.semicolon]⟩ := by
    refine assignmentStep_of_conditional hfinal starts hdepth ?_ ?_ h
    · exact atArrow_of_name hfinal c.test_kind c.question_kind
    · rw [hend]
      exact .inl (by decide)
  have hexpression : (grammar (level + 1)).expression context ⟨[], c.tokens⟩ =
      .ok node ⟨inside, [c.semicolon]⟩ := by
    rw [expression, bind_of_ok (current_of_cons rfl), bind_of_ok hassignment,
      bind_of_ok (atMark_eq _ hfinal), hend]
    rfl
  have hsemicolon : Parse.semicolon context ⟨inside, [c.semicolon]⟩ =
      .ok () ⟨c.semicolon :: inside, []⟩ := by
    rw [Parse.semicolon, acceptMark, ← c.semicolon_kind, bind_of_ok (accept_of_cons rfl)]
    rfl
  rw [expressionStatement, bind_of_ok (current_of_cons rfl), bind_of_ok hexpression,
    bind_of_ok hsemicolon]
  rfl

theorem statementStep_of_conditional {node : Node} {inside : List Token}
    (hfinal : context.final.kind = .eof) (hdepth : (context.depth + 1 : Int) < context.maxDepth)
    (h : (grammar level).conditional { context with depth := context.depth + 2 } ⟨[], c.tokens⟩ =
      .ok node ⟨inside, [c.semicolon]⟩) :
    (grammar (level + 1)).statementStep context ⟨[], c.tokens⟩ =
      .ok (.plain ⟨c.test.start, c.semicolon.stopPosition⟩ (.expressionStatement node))
        ⟨c.semicolon :: inside, []⟩ := by
  have hlabel (inner : ParseContext) :
      markAhead 1 .colon inner ⟨[], c.tokens⟩ = .ok false ⟨[], c.tokens⟩ :=
    congrArg (ParseOutcome.ok · _) (beq_false_of_ne (by simp [tokens, c.question_kind]))
  rw [statementStep, nested, if_neg (by omega), bind_of_ok (current_of_cons rfl)]
  simp only [c.test_kind]
  rw [contextual, bind_of_ok (hlabel _), if_neg Bool.false_ne_true]
  exact expressionStatement_of_conditional hfinal hdepth h

/-- A statement that is a conditional was read as one. -/
theorem conditional_of_statementStep {range statement : Range} {test consequent alternate : Node}
    {cursor' : TokenCursor} (hfinal : context.final.kind = .eof)
    (h : (grammar (level + 1)).statementStep context ⟨[], c.tokens⟩ =
      .ok (.plain statement (.expressionStatement
        (.plain range (.conditional test consequent alternate)))) cursor') :
    ∃ behind, (grammar level).conditional { context with depth := context.depth + 2 }
      ⟨[], c.tokens⟩ = .ok (.plain range (.conditional test consequent alternate)) behind := by
  have h := statementStep_eq_ok h
  rw [expressionStatement, bind_of_ok current_eq] at h
  obtain ⟨expression, _, hexpression, h⟩ := bind_eq_ok h
  obtain ⟨_, _, -, h⟩ := bind_eq_ok h
  cases h
  rw [Grammar.expression, bind_of_ok current_eq] at hexpression
  obtain ⟨first, place, hfirst, hexpression⟩ := bind_eq_ok hexpression
  obtain ⟨comma, _, -, hexpression⟩ := bind_eq_ok hexpression
  cases comma with
  | true =>
    obtain ⟨_, _, -, hexpression⟩ := bind_eq_ok hexpression
    cases hexpression
  | false =>
    cases hexpression
    have hinner : ({ context with depth := context.depth + 1 } : ParseContext).final.kind = .eof :=
      hfinal
    exact ⟨place, (assignmentStep_eq_ok hinner starts
      (fun _ hend ↦ atArrow_of_name hend c.test_kind c.question_kind) hfirst).2⟩

/-- In a tree of the statement as it is written no arrow was found behind the parentheses. -/
theorem startsArrow_of_depicts {root : Node} (hfinal : final.kind = .eof)
    (h : Program.parse options (c.tokens ++ [final]) = .ok ⟨root, []⟩)
    (hroot : c.Depicts P Q root) : Lookahead.startsArrow c.consequent = false := by
  obtain ⟨_, statement, choice, test, paren, inner, alternate, rfl, -, -⟩ := hroot
  simp only [Program.parse, Program.splitFinal_concat hfinal] at h
  obtain ⟨level, hlevel⟩ : ∃ l, levelsPerToken * (c.tokens.length + 1) = l + 5 :=
    ⟨levelsPerToken * (c.tokens.length + 1) - 5, by simp only [levelsPerToken]; omega⟩
  rw [hlevel] at h
  generalize hrun : Program.statements _ _ _ _ _ = outcome at h
  cases outcome with
  | error failure => cases h
  | ok progress =>
    obtain ⟨hprogram, herrors⟩ := Program.Parsed.mk.inj (Except.ok.inj h)
    have hbody := Surface.program.inj (Node.surface.inj hprogram).2
    obtain ⟨_, hstatement, -⟩ := Program.statements_eq_singleton hrun hbody herrors
    obtain ⟨_, hconditional⟩ := conditional_of_statementStep hfinal hstatement
    rw [tokens, conditional_of_name hfinal c.test_kind c.question_kind] at hconditional
    obtain ⟨first, _, hfirst, hconditional⟩ := bind_eq_ok hconditional
    obtain ⟨_, _, -, hconditional⟩ := bind_eq_ok hconditional
    obtain ⟨second, _, -, hconditional⟩ := bind_eq_ok hconditional
    cases hconditional
    refine Bool.eq_false_iff.mpr fun harrow ↦ ?_
    have hfinal : ({ final := final, maxDepth := options.maxDepth, depth := 2 } :
      ParseContext).final.kind = .eof := hfinal
    obtain ⟨_, _, hnode⟩ := assignment_of_parameters hfinal c.opening_kind harrow hfirst
    cases hnode

theorem depth_lt_of_readsAlternate (h : c.ReadsAlternate options final Q) :
    2 < options.maxDepth := by
  obtain ⟨node, hrun, -⟩ := h (levelsPerToken * (c.alternate ++ [c.semicolon]).length + 1)
    (Nat.le_succ _)
  change assignmentStep _ _ _ = _ at hrun
  rw [assignmentStep, nested] at hrun
  split at hrun
  · cases hrun
  · next hdepth => simpa using hdepth

/-- The statement is read as it is written where no arrow is found behind the parentheses. -/
theorem parse_of_startsArrow_eq_false (hfinal : final.kind = .eof)
    (hinner : c.ReadsInner options final P) (halternate : c.ReadsAlternate options final Q)
    (harrow : Lookahead.startsArrow c.consequent = false) :
    ∃ root, Program.parse options (c.tokens ++ [final]) = .ok ⟨root, []⟩ ∧ c.Depicts P Q root := by
  have hdepth := depth_lt_of_readsAlternate halternate
  have hlength : c.tokens.length = (c.inner ++ c.rest).length + 3 := rfl
  have hrest : (c.alternate ++ [c.semicolon]).length ≤ (c.inner ++ c.rest).length := by
    simp [rest]
    omega
  obtain ⟨level, hlevel⟩ : ∃ l, levelsPerToken * (c.tokens.length + 1) = l + 6 :=
    ⟨levelsPerToken * (c.tokens.length + 1) - 6, by simp only [levelsPerToken]; omega⟩
  obtain ⟨inner, hinner, hP⟩ := hinner level (by simp only [levelsPerToken] at hlevel ⊢; omega)
  obtain ⟨alternate, halternate, hQ⟩ :=
    halternate (level + 4) (by simp only [levelsPerToken] at hlevel ⊢; omega)
  let context : ParseContext := { final := final, maxDepth := options.maxDepth, depth := 2 }
  have hcolon : Follows 0
      (headKind ((c.colon :: (c.alternate ++ [c.semicolon])).map Token.sign)) := by
    change Follows 0 c.colon.kind
    rw [c.colon_kind]
    exact .inl (by decide)
  have hconsequent : (grammar (level + 4)).assignment context ⟨[c.question, c.test], c.consequent⟩ =
      .ok (.plain ⟨c.opening.start, c.closing.stopPosition⟩ (.paren inner))
        ⟨c.closing :: (c.inner.reverse ++ [c.opening, c.question, c.test]),
          c.colon :: (c.alternate ++ [c.semicolon])⟩ := by
    refine assignmentStep_of_conditional hfinal (.inl (.inr (.inr (.inr (.inr (.inl ?_)))))) hdepth
      ((atArrow_of_parenthesis hfinal c.opening_kind).trans ?_) hcolon
      (conditional_of_parentheses hfinal c.opening_kind hinner c.closing_kind hcolon)
    · exact c.opening_kind
    · exact congrArg (ParseOutcome.ok · _) harrow
  have hallowed : allowingIn (grammar (level + 4)).assignment context
      ⟨[c.question, c.test], c.consequent⟩ = _ := hconsequent
  obtain ⟨choice, inside, hconditional⟩ : ∃ range inside,
      (grammar (level + 4)).conditional context ⟨[], c.tokens⟩ = .ok (.plain range (.conditional
        (.plain ⟨c.test.start, c.test.stopPosition⟩ (.identifier c.test.value))
        (.plain ⟨c.opening.start, c.closing.stopPosition⟩ (.paren inner)) alternate))
        ⟨inside, [c.semicolon]⟩ := by
    rw [tokens, conditional_of_name hfinal c.test_kind c.question_kind, bind_of_ok hallowed,
      bind_of_ok (expectMark_of_cons c.colon_kind _), bind_of_ok halternate]
    exact ⟨_, _, rfl⟩
  have hstatement : (grammar (level + 6)).statement { final := final, maxDepth := options.maxDepth }
      ⟨[], c.tokens⟩ = _ := statementStep_of_conditional hfinal (by dsimp only; omega) hconditional
  simp only [Program.parse, Program.splitFinal_concat hfinal, hlevel]
  rw [Program.statements, if_neg (by simp [tokens]), hstatement, hlength]
  dsimp only
  rw [Program.statements, if_pos (by simp)]
  exact ⟨_, rfl, _, _, choice, _, _, inner, alternate, rfl, hP, hQ⟩

/-- What the parentheses are depends on the search for an arrow, whatever stands in them. -/
theorem parse_depicts_iff (hfinal : final.kind = .eof) (hinner : c.ReadsInner options final P)
    (halternate : c.ReadsAlternate options final Q) :
    (∃ root, Program.parse options (c.tokens ++ [final]) = .ok ⟨root, []⟩ ∧ c.Depicts P Q root) ↔
      Lookahead.startsArrow c.consequent = false := by
  constructor
  · rintro ⟨root, hparse, hroot⟩
    exact startsArrow_of_depicts hfinal hparse hroot
  · exact parse_of_startsArrow_eq_false hfinal hinner halternate

/-- `a ? (b) : c => d;` -/
def ofBareArrow : Choice where
  test := ⟨.identifier, bytes "a", ⟨1, 1, 0⟩, 1, false⟩
  question := ⟨.mark .question, bytes "?", ⟨1, 3, 2⟩, 3, false⟩
  opening := ⟨.mark .openParen, bytes "(", ⟨1, 5, 4⟩, 5, false⟩
  inner := [⟨.identifier, bytes "b", ⟨1, 6, 5⟩, 6, false⟩]
  closing := ⟨.mark .closeParen, bytes ")", ⟨1, 7, 6⟩, 7, false⟩
  colon := ⟨.mark .colon, bytes ":", ⟨1, 9, 8⟩, 9, false⟩
  alternate := [⟨.identifier, bytes "c", ⟨1, 11, 10⟩, 11, false⟩,
    ⟨.mark .arrow, bytes "=>", ⟨1, 13, 12⟩, 14, false⟩,
    ⟨.identifier, bytes "d", ⟨1, 16, 15⟩, 16, false⟩]
  semicolon := ⟨.mark .semicolon, bytes ";", ⟨1, 17, 16⟩, 17, false⟩
  test_kind := rfl
  question_kind := rfl
  opening_kind := rfl
  closing_kind := rfl
  colon_kind := rfl
  semicolon_kind := rfl

theorem not_parse_depicts_ofBareArrow :
    ∃ final : Token,
      (tokenize {} (bytes "a ? (b) : c => d;")).lexer.tokenList = ofBareArrow.tokens ++ [final] ∧
      ¬ ∃ root, Program.parse {} (ofBareArrow.tokens ++ [final]) = .ok ⟨root, []⟩ ∧
        ofBareArrow.Depicts (fun node ↦ ∃ range, node = .plain range (.identifier (bytes "b")))
          (fun node ↦ ∃ range f, node = .plain range (.arrow f)) root := by
  refine ⟨⟨.eof, [], ⟨1, 18, 17⟩, 17, false⟩, by decide +kernel, ?_⟩
  rw [parse_depicts_iff rfl ?_ ?_]
  · decide
  · intro level hlevel
    obtain ⟨more, rfl⟩ := Nat.exists_eq_add_of_le' hlevel
    exact ⟨_, rfl, _, rfl⟩
  · intro level hlevel
    obtain ⟨more, rfl⟩ := Nat.exists_eq_add_of_le' hlevel
    exact ⟨_, rfl, _, _, rfl⟩

/-- Where the other branch is an arrow function with a bare parameter, the tree is never that of the
statement as it is written. -/
theorem not_depicts_of_bareArrow {parameter arrow : Token} {body : List Token} {root : Node}
    (hfinal : final.kind = .eof) (hinner : Lookahead.IsNested c.inner)
    (hparameter : parameter.kind.isName = true) (harrow : arrow.kind = .mark .arrow)
    (halternate : c.alternate = parameter :: arrow :: body)
    (h : Program.parse options (c.tokens ++ [final]) = .ok ⟨root, []⟩) : ¬ c.Depicts P Q root := by
  intro hroot
  have hfound := Lookahead.startsArrow_of_bareArrow c.opening_kind hinner c.closing_kind
    c.colon_kind hparameter harrow (body ++ [c.semicolon])
  have hnone := startsArrow_of_depicts hfinal h hroot
  rw [consequent, rest, halternate] at hnone
  exact Bool.false_ne_true (hnone.symm.trans hfound)

end Choice

end SignalView
