import SignalView.Proofs.Expression.Shape

/-!
# Reading terms

The grammar reads every term that fits it from the tokens of the term. The recursion of the grammar
through its levels is followed along the rules for terms: a level and one step of nesting are used
up by every token at most. The loops over operators and over the links of a chain are followed link
by link, so that the statement about a term is also one about the state of the loop behind it.
-/

namespace SignalView

open Parse

/-! ## Loops -/

section Loops

variable {σ : Type} {step : σ → Parse (σ × Bool)} {context : ParseContext}

/-- A number of rounds of a repetition, each of which asks for more. -/
inductive Loops (step : σ → Parse (σ × Bool)) (context : ParseContext) :
    Nat → σ → TokenCursor → σ → TokenCursor → Prop
  | refl (state : σ) (cursor : TokenCursor) : Loops step context 0 state cursor state cursor
  | snoc {count : Nat} {first last next : σ} {start middle behind : TokenCursor} :
    Loops step context count first start last middle →
      step last context middle = .ok (next, true) behind →
      Loops step context (count + 1) first start next behind

theorem Loops.iterate_eq {count : Nat} {first last : σ} {start behind : TokenCursor}
    (h : Loops step context count first start last behind) (rounds : Nat) :
    iterate step (rounds + count) first context start =
      iterate step rounds last context behind := by
  induction h generalizing rounds with
  | refl state cursor => rfl
  | snoc _ hstep ih =>
    rw [← Nat.add_assoc, Nat.add_right_comm, ih, iterate, bind_of_ok hstep]
    rfl

/-- A repetition that stops behind a number of rounds. -/
theorem Loops.iterate_of_stop {count rounds : Nat} {first last result : σ}
    {start middle behind : TokenCursor} (h : Loops step context count first start last middle)
    (hstop : step last context middle = .ok (result, false) behind) (hrounds : count < rounds) :
    iterate step rounds first context start = .ok result behind := by
  obtain ⟨more, rfl⟩ := Nat.exists_eq_add_of_lt hrounds
  rw [show count + more + 1 = (more + 1) + count by omega, h.iterate_eq, iterate, bind_of_ok hstop]
  rfl

end Loops

theorem grammar_rounds (level : Nat) : (grammar level).rounds = level := by
  cases level <;> rfl

namespace Term

/-! ## The state in front of a term -/

/-- A term and what follows it lie ahead. No arrow does, and `in` is an operator. -/
structure Ahead (t : Term) (rest : List Sign) (context : ParseContext) (cursor : TokenCursor) :
    Prop where
  signs : cursor.signs = t.signs ++ rest
  noArrow : ∀ sign ∈ cursor.signs, sign.kind ≠ .mark .arrow
  final_kind : context.final.kind = .eof
  noIn : context.noIn = false

variable {context : ParseContext} {cursor : TokenCursor} {rest : List Sign} {t : Term}

/-- A part of what lies ahead, behind some of it. -/
theorem Ahead.part {part : Term} {before after : List Sign} {cursor' : TokenCursor}
    (h : t.Ahead rest context cursor) (hsigns : t.signs ++ rest = before ++ (part.signs ++ after))
    (hcursor : cursor'.signs = part.signs ++ after) : part.Ahead after context cursor' where
  signs := hcursor
  noArrow sign hmem := by
    apply h.noArrow sign
    rw [h.signs, hsigns, ← hcursor]
    exact List.mem_append_right before hmem
  final_kind := h.final_kind
  noIn := h.noIn

theorem Ahead.deeper (h : t.Ahead rest context cursor) :
    t.Ahead rest { context with depth := context.depth + 1 } cursor :=
  ⟨h.signs, h.noArrow, h.final_kind, h.noIn⟩

/-! ## What the tokens behind a term do not start -/

theorem link_eq_none {limit : Nat} {g : Grammar} {start : Token} {calls : Bool} {receiver : Node}
    (hfinal : context.final.kind = .eof) (h : Follows limit (headKind cursor.signs)) :
    g.link start calls receiver context cursor = .ok none cursor := by
  unfold Grammar.link
  rw [bind_of_ok current_eq]
  rw [← current_kind hfinal] at h
  generalize (cursor.after.head?.getD context.final).kind = kind at h ⊢
  refine h.elim rfl rfl rfl rfl rfl rfl rfl ?_
  intro op
  cases op <;> rfl

/-- The round of a chain that looks for a link behind what has been read. -/
def linkRound (g : Grammar) (start : Token) (receiver : Node) : Parse (Node × Bool) := do
  match ← g.link start true receiver with
  | some next => return (next, true)
  | none => return (receiver, false)

theorem chain_eq (g : Grammar) (start : Token) (receiver : Node) :
    g.chain start true receiver = iterate (linkRound g start) g.rounds receiver := rfl

/-- The round of a chain of operators. -/
def binaryRound (g : Grammar) (least : Nat) (start : Token) (left : Node) :
    Parse (Node × Bool) := do
  match ← g.binaryLink least start left with
  | some next => return (next, true)
  | none => return (left, false)

theorem binaryStep_eq (g : Grammar) (least : Nat) : g.binaryStep least = (do
    let start ← current
    let first ← g.unary
    iterate (binaryRound g least start) g.rounds first) := rfl

theorem binaryLink_eq_none {least : Nat} {g : Grammar} {start : Token} {left : Node}
    (hfinal : context.final.kind = .eof) (h : Follows least (headKind cursor.signs)) :
    g.binaryLink least start left context cursor = .ok none cursor := by
  unfold Grammar.binaryLink
  rw [bind_of_ok current_eq]
  rw [← current_kind hfinal] at h
  have hprecedence := h.precedence_eq
  simp only [beq_iff_eq, Bool.or_eq_true, decide_eq_true_eq, hprecedence, if_true]
  rfl

/-! ## What reading a term means -/

/-- The least strength of an operator that would go on inside of a term. -/
def limit : Term → Nat
  | .binary op _ _ => op.rightLeast
  | _ => 12

/-- A whole expression is read. -/
def ReadsAssignment (t : Term) : Prop :=
  ∀ level ⦃context cursor rest⦄, t.Ahead rest context cursor → 4 * t.signs.length ≤ level →
    (context.depth + t.signs.length : Int) ≤ context.maxDepth → Follows 0 (headKind rest) →
    (grammar level).assignment.Gives context cursor t.Depicts rest

/-- An item of a list is read. -/
def ReadsItem (t : Term) : Prop :=
  ∀ level ⦃context cursor rest⦄, t.Ahead rest context cursor → 4 * t.signs.length ≤ level →
    (context.depth + t.signs.length : Int) ≤ context.maxDepth → Follows 0 (headKind rest) →
    (Grammar.spreadOr (grammar level).assignment (grammar level).assignment).Gives context cursor
      t.Depicts rest

/-- An operand with its operators in front is read. -/
def ReadsUnary (t : Term) : Prop :=
  ∀ level ⦃context cursor rest⦄, t.Ahead rest context cursor → 4 * t.signs.length ≤ level + 2 →
    (context.depth + t.signs.length : Int) ≤ context.maxDepth + 1 → Follows 12 (headKind rest) →
    (grammar level).unary.Gives context cursor t.Depicts rest

/-- The loop over links, which starts behind an operand, comes to stand behind a term. -/
def ReadsOperand (t : Term) : Prop :=
  ∀ level ⦃context cursor rest⦄ (start : Token), t.Ahead rest context cursor →
    4 * t.signs.length ≤ level + 3 →
    (context.depth + t.signs.length : Int) ≤ context.maxDepth + 1 →
    ∃ first middle count last behind, (grammar level).operand context cursor = .ok first middle ∧
      Loops (linkRound (grammar level) start) context count first middle last behind ∧
      t.Depicts last ∧ behind.signs = rest ∧ count < t.signs.length

/-- The loop over operators, which starts behind the first of the operands, comes to stand behind a
term. -/
def ReadsBinary (least : Nat) (t : Term) : Prop :=
  ∀ level ⦃context cursor rest⦄ (start : Token), t.Ahead rest context cursor →
    4 * t.signs.length ≤ level + 2 →
    (context.depth + t.signs.length : Int) ≤ context.maxDepth + 1 →
    Follows t.limit (headKind rest) → ∀ least' ≤ least,
    ∃ first middle count last behind, (grammar level).unary context cursor = .ok first middle ∧
      Loops (binaryRound (grammar level) least' start) context count first middle last behind ∧
      t.Depicts last ∧ behind.signs = rest ∧ count < t.signs.length

/-! ## Primary expressions -/

theorem node_gives {start : Token} {form : Plain Node} {P : Node → Prop} {signs : List Sign}
    (hsigns : cursor.signs = signs) (h : ∀ range, P (.plain range form)) :
    (node start form).Gives context cursor P signs :=
  ⟨_, cursor, rfl, h _, hsigns⟩

theorem leaf_gives {start : Token} {form : Plain Node} {P : Node → Prop} {sign : Sign}
    (hsigns : cursor.signs = sign :: rest) (h : ∀ range, P (.plain range form)) :
    (Grammar.leaf start form).Gives context cursor P rest :=
  (advance_gives hsigns).bind fun _ _ _ hbehind ↦ node_gives hbehind h

/-- A term is read as a primary expression. -/
def ReadsPrimary (t : Term) : Prop :=
  ∀ level ⦃context cursor rest⦄, t.Ahead rest context cursor → 4 * t.signs.length ≤ level + 4 →
    (context.depth + t.signs.length : Int) ≤ context.maxDepth + 1 →
    (grammar level).primaryStep.Gives context cursor t.Depicts rest

theorem ReadsPrimary.operand (h : t.ReadsPrimary)
    (hstart : StartsAs .operand t) : t.ReadsOperand := by
  intro level context cursor rest start hahead hlevel hdepth
  obtain ⟨sign, more, hsigns, hsign⟩ := hstart
  have hlength : t.signs.length = more.length + 1 := by rw [hsigns]; rfl
  obtain ⟨level, rfl⟩ : ∃ l, level = l + 1 := ⟨level - 1, by omega⟩
  obtain ⟨node, behind, hprimary, hnode, hrest⟩ := h level hahead (by omega) hdepth
  have hnew : (headKind cursor.signs == .word .new) = false := by
    rw [hahead.signs, hsigns]
    change (sign.kind == _) = false
    generalize sign.kind = kind at hsign ⊢
    exact hsign.elim rfl rfl rfl rfl rfl rfl
  have hoperand : (grammar (level + 1)).operand context cursor = .ok node behind := by
    unfold Grammar.operand atWord
    rw [bind_of_ok (at_eq _ hahead.final_kind), hnew]
    exact hprimary
  exact ⟨node, behind, 0, node, behind, hoperand, .refl _ _, hnode, hrest, by omega⟩

theorem readsPrimary_name (spelling : Bytes) : (Term.name spelling).ReadsPrimary := by
  intro level context cursor rest hahead hlevel hdepth
  refine (current_gives hahead.signs).bind fun token middle htoken hmiddle ↦ ?_
  have hkind : token.kind = .identifier := congrArg Sign.kind htoken
  have hvalue : token.value = spelling := congrArg Sign.value htoken
  simp only [hkind, Grammar.nameExpression, hvalue]
  exact leaf_gives hmiddle fun range ↦ ⟨range, rfl⟩

theorem readsPrimary_number (raw : Bytes) (isBigint : Bool) :
    (Term.number raw isBigint).ReadsPrimary := by
  intro level context cursor rest hahead hlevel hdepth
  refine (current_gives hahead.signs).bind fun token middle htoken hmiddle ↦ ?_
  have hkind : token.kind = if isBigint then .bigint else .number := congrArg Sign.kind htoken
  have hvalue : token.value = raw := congrArg Sign.value htoken
  cases isBigint
  · simp only [hkind, hvalue, Bool.false_eq_true, if_false]
    exact leaf_gives hmiddle fun range ↦ ⟨range, rfl⟩
  · simp only [hkind, hvalue, if_true]
    exact leaf_gives hmiddle fun range ↦ ⟨range, rfl⟩

theorem readsPrimary_string (value : Bytes) : (Term.string value).ReadsPrimary := by
  intro level context cursor rest hahead hlevel hdepth
  refine (current_gives hahead.signs).bind fun token middle htoken hmiddle ↦ ?_
  have hkind : token.kind = .string := congrArg Sign.kind htoken
  have hvalue : token.value = value := congrArg Sign.value htoken
  simp only [hkind, hvalue]
  exact leaf_gives hmiddle fun range ↦ ⟨range, rfl⟩

/-- An expression that no comma follows is one assignment. -/
theorem ReadsAssignment.expression (h : t.ReadsAssignment) {level : Nat}
    (hahead : t.Ahead rest context cursor) (hlevel : 4 * t.signs.length ≤ level)
    (hdepth : (context.depth + t.signs.length : Int) ≤ context.maxDepth)
    (hfollows : Follows 0 (headKind rest)) (hcomma : headKind rest ≠ .mark .comma) :
    (grammar level).expression.Gives context cursor t.Depicts rest := by
  obtain ⟨node, behind, hrun, hnode, hbehind⟩ := h level hahead hlevel hdepth hfollows
  refine ⟨node, behind, ?_, hnode, hbehind⟩
  unfold Grammar.expression atMark
  rw [bind_of_ok current_eq, bind_of_ok hrun, bind_of_ok (at_eq _ hahead.final_kind), hbehind,
    beq_false_of_ne hcomma]
  rfl

/-- The state behind the mark that opens a bracket around a part. -/
theorem Ahead.inside {part : Term} {before after : List Sign} {inside : TokenCursor}
    (h : t.Ahead rest context cursor) (hsigns : t.signs ++ rest = before ++ (part.signs ++ after))
    (hinside : inside.signs = part.signs ++ after) :
    part.Ahead after { context with noIn := false } inside := by
  have hpart := h.part hsigns hinside
  exact ⟨hpart.signs, hpart.noArrow, hpart.final_kind, rfl⟩

theorem follows_mark {m : Mark} (h : .mark m ∈ closers) (rest : List Sign) :
    Follows 0 (headKind (m.sign :: rest)) := .inl h

theorem readsPrimary_paren {inner : Term} (h : inner.ReadsAssignment) :
    (Term.paren inner).ReadsPrimary := by
  intro level context cursor rest hahead hlevel hdepth
  have hlength : (Term.paren inner).signs.length = inner.signs.length + 2 := by simp [signs]
  have hsplit : (Term.paren inner).signs ++ rest =
      [Mark.openParen.sign] ++ (inner.signs ++ Mark.closeParen.sign :: rest) := by simp [signs]
  have hsigns := hahead.signs.trans hsplit
  refine (current_gives hsigns).bind fun token middle htoken hmiddle ↦ ?_
  have hkind : token.kind = .mark .openParen := congrArg Sign.kind htoken
  simp only [hkind, Grammar.parenthesized]
  refine (current_gives hmiddle).bind fun start place _ hplace ↦ ?_
  refine (advance_gives hplace).bind fun _ inside _ hinside ↦ ?_
  refine Gives.bind (Gives.allowingIn (h.expression (hahead.inside hsplit hinside) (by omega)
    (by dsimp only; omega) (follows_mark (by decide) rest) (by simp)))
    fun node behind hnode hbehind ↦ ?_
  refine (expectMark_gives hbehind).bind fun _ last _ hlast ↦ ?_
  exact node_gives hlast fun range ↦ ⟨range, node, rfl, hnode⟩

/-! ## Lists -/

/-- An item of a list is read, with whether a comma has to follow it: a hole is read together with
its comma. -/
def ItemGives (item : Parse (Node × Bool)) (context : ParseContext) (t : Term) : Prop :=
  ∀ cursor after, cursor.signs = t.signs ++ after →
    (∀ sign ∈ cursor.signs, sign.kind ≠ .mark .arrow) →
    if t.isHole then ∀ rest, after = Mark.comma.sign :: rest →
      item.Gives context cursor (fun p ↦ t.Depicts p.1 ∧ p.2 = false) rest
    else Follows 0 (headKind after) →
      item.Gives context cursor (fun p ↦ t.Depicts p.1 ∧ p.2 = true) after

/-- An element of a list does not start like the mark that closes the list. -/
theorem headKind_element {m : Mark} {after : List Sign} (hm : m = .closeParen ∨ m = .closeBracket)
    (h : StartsAs .element t) (hhole : t.isHole = true → headKind after = .mark .comma) :
    (headKind (t.signs ++ after) != .mark m && headKind (t.signs ++ after) != .eof) = true := by
  have hkind : headKind (t.signs ++ after) = .mark .comma ∨
      Starts (headKind (t.signs ++ after)) ∨ headKind (t.signs ++ after) = .mark .ellipsis := by
    rcases h with h | ⟨sign, more, hsigns, h⟩
    · left
      cases t <;> simp_all [isHole, signs]
    · right
      rw [hsigns]
      exact h
  generalize headKind (t.signs ++ after) = kind at hkind ⊢
  rcases hkind with rfl | hkind | rfl
  · rcases hm with rfl | rfl <;> rfl
  · rcases hm with rfl | rfl
    all_goals
      refine hkind.elim rfl rfl rfl rfl rfl rfl ?_
      intro op
      cases op <;> rfl
  · rcases hm with rfl | rfl <;> rfl

/-- The round that reads an item: it goes on unless the item was the last one. -/
theorem listRound_eq {m : Mark} {item : Parse (Node × Bool)} {ts : List Term} (done : List Node)
    (hm : m = .closeParen ∨ m = .closeBracket) (hfinal : context.final.kind = .eof)
    (hitem : ItemGives item context t) (hstart : StartsAs .element t)
    (hsigns : cursor.signs = t.signs ++ (gapSigns t ts ++ (listSigns ts ++ m.sign :: rest)))
    (harrow : ∀ sign ∈ cursor.signs, sign.kind ≠ .mark .arrow) :
    ∃ node behind more, t.Depicts node ∧
      listRound (beforeMark m) item done context cursor = .ok (done ++ [node], more) behind ∧
      behind.signs = listSigns ts ++ m.sign :: rest ∧ (more = false → ts = []) := by
  have hgap : t.isHole = true → gapSigns t ts = [Mark.comma.sign] := by
    intro h
    simp [gapSigns, h]
  have hmore : beforeMark m context cursor = .ok true cursor := by
    rw [beforeMark, before_eq _ hfinal, hsigns]
    refine congrArg (ParseOutcome.ok · cursor) (headKind_element hm hstart ?_)
    intro h
    rw [hgap h]
    rfl
  have hitem := hitem cursor _ hsigns harrow
  by_cases hhole : t.isHole = true
  · -- The comma behind a hole belongs to the item, any other comma to the round.
    rw [if_pos hhole] at hitem
    obtain ⟨⟨node, needsComma⟩, behind, hrun, ⟨hnode, rfl⟩, hbehind⟩ :=
      hitem (listSigns ts ++ m.sign :: rest) (by rw [hgap hhole]; rfl)
    refine ⟨node, behind, true, hnode, ?_, hbehind, nofun⟩
    rw [listRound, bind_of_ok hmore, if_pos rfl, bind_of_ok hrun]
    rfl
  · rw [if_neg hhole] at hitem
    cases ts with
    | nil =>
      have hempty : gapSigns t [] = [] := by simp [gapSigns, hhole]
      rw [hempty] at hitem
      obtain ⟨⟨node, needsComma⟩, middle, hrun, ⟨hnode, rfl⟩, hmiddle⟩ := hitem (by
        rcases hm with rfl | rfl
        · exact follows_mark (by decide) rest
        · exact follows_mark (by decide) rest)
      have hcomma : acceptMark .comma context middle = .ok false middle := by
        apply accept_eq_false hfinal
        rw [hmiddle]
        rcases hm with rfl | rfl <;> simp [listSigns]
      refine ⟨node, middle, false, hnode, ?_, hmiddle, fun _ ↦ rfl⟩
      rw [listRound, bind_of_ok hmore, if_pos rfl, bind_of_ok hrun]
      exact bind_of_ok hcomma
    | cons next ts =>
      have hcomma : gapSigns t (next :: ts) = [Mark.comma.sign] := by simp [gapSigns]
      rw [hcomma] at hitem
      obtain ⟨⟨node, needsComma⟩, middle, hrun, ⟨hnode, rfl⟩, hmiddle⟩ :=
        hitem (follows_mark (by decide) _)
      obtain ⟨_, behind, haccept, rfl, hbehind⟩ :
          (acceptMark .comma).Gives context middle _ _ := acceptMark_gives hmiddle
      refine ⟨node, behind, true, hnode, ?_, hbehind, nofun⟩
      rw [listRound, bind_of_ok hmore, if_pos rfl, bind_of_ok hrun]
      exact bind_of_ok haccept

theorem list_gives {m : Mark} {item : Parse (Node × Bool)} {rounds : Nat} {ts : List Term}
    (hm : m = .closeParen ∨ m = .closeBracket) (hfinal : context.final.kind = .eof)
    (hitems : ∀ t ∈ ts, ItemGives item context t) (hstarts : ∀ t ∈ ts, StartsAs .element t)
    (hrounds : ts.length < rounds) (done : List Node)
    (hsigns : cursor.signs = listSigns ts ++ m.sign :: rest)
    (harrow : ∀ sign ∈ cursor.signs, sign.kind ≠ .mark .arrow) :
    (iterate (listRound (beforeMark m) item) rounds done).Gives context cursor
      (fun nodes ↦ ∃ found, nodes = done ++ found ∧ DepictAll ts found) (m.sign :: rest) := by
  induction ts generalizing rounds done cursor with
  | nil =>
    obtain ⟨rounds, rfl⟩ : ∃ r, rounds = r + 1 := ⟨rounds - 1, by omega⟩
    have hmore : beforeMark m context cursor = .ok false cursor := by
      rw [beforeMark, before_eq _ hfinal, hsigns]
      simp [listSigns]
    have hround : listRound (beforeMark m) item done context cursor = .ok (done, false) cursor := by
      rw [listRound, bind_of_ok hmore]
      rfl
    refine ⟨done, cursor, ?_, ⟨[], by simp, rfl⟩, hsigns⟩
    rw [iterate, bind_of_ok hround]
    rfl
  | cons t ts ih =>
    obtain ⟨rounds, rfl⟩ : ∃ r, rounds = r + 1 := ⟨rounds - 1, by omega⟩
    have hrounds : ts.length < rounds := by simpa using hrounds
    have hsplit : cursor.signs =
        t.signs ++ (gapSigns t ts ++ (listSigns ts ++ m.sign :: rest)) := by
      simp [hsigns, listSigns]
    obtain ⟨node, behind, more, hnode, hround, hbehind, hlast⟩ :=
      listRound_eq done hm hfinal (hitems t (by simp)) (hstarts t (by simp)) hsplit harrow
    cases more with
    | false =>
      obtain rfl := hlast rfl
      refine ⟨done ++ [node], behind, ?_, ⟨[node], rfl, node, [], rfl, hnode, rfl⟩, hbehind⟩
      rw [iterate, bind_of_ok hround]
      rfl
    | true =>
      have hbehindArrow : ∀ sign ∈ behind.signs, sign.kind ≠ .mark .arrow := by
        intro sign hmem
        apply harrow sign
        rw [hsplit]
        rw [hbehind] at hmem
        exact List.mem_append_right _ (List.mem_append_right _ hmem)
      obtain ⟨nodes, last, hrun, ⟨found, rfl, hfound⟩, hrest⟩ :=
        ih (fun t h ↦ hitems t (by simp [h])) (fun t h ↦ hstarts t (by simp [h])) hrounds
          (done ++ [node]) hbehind hbehindArrow
      refine ⟨done ++ [node] ++ found, last, ?_,
        ⟨node :: found, by simp, node, found, rfl, hnode, hfound⟩, hrest⟩
      rw [iterate, bind_of_ok hround]
      exact hrun

theorem looseList_gives {m : Mark} {item : Parse (Node × Bool)} {rounds : Nat} {ts : List Term}
    (hm : m = .closeParen ∨ m = .closeBracket) (hfinal : context.final.kind = .eof)
    (hitems : ∀ t ∈ ts, ItemGives item context t) (hstarts : ∀ t ∈ ts, StartsAs .element t)
    (hrounds : ts.length < rounds) (hsigns : cursor.signs = listSigns ts ++ m.sign :: rest)
    (harrow : ∀ sign ∈ cursor.signs, sign.kind ≠ .mark .arrow) :
    (looseList rounds (beforeMark m) item).Gives context cursor (DepictAll ts)
      (m.sign :: rest) := by
  rw [looseList_eq]
  refine (list_gives hm hfinal hitems hstarts hrounds [] hsigns harrow).mono ?_
  rintro nodes ⟨found, rfl, hfound⟩
  exact hfound

/-- What a part of a list needs is there when there is enough for the list. -/
theorem length_signs_le_listSigns {ts : List Term} (h : t ∈ ts) :
    t.signs.length ≤ (listSigns ts).length := by
  induction ts with
  | nil => cases h
  | cons u ts ih =>
    simp only [listSigns, List.length_append]
    rcases List.mem_cons.mp h with rfl | h
    · omega
    · have := ih h
      omega

theorem length_le_listSigns {ts : List Term} (h : ∀ t ∈ ts, StartsAs .element t) :
    ts.length ≤ (listSigns ts).length := by
  induction ts with
  | nil => exact Nat.zero_le _
  | cons t ts ih =>
    have hlater := ih fun t ht ↦ h t (by simp [ht])
    have hpos : 0 < (t.signs ++ gapSigns t ts).length := by
      rcases h t (by simp) with hhole | ⟨sign, more, hsigns, -⟩
      · simp [gapSigns, hhole]
      · simp [hsigns]
    simp only [listSigns, List.length_append, List.length_cons] at hpos ⊢
    omega

/-- An item that is no hole, as the lists of arguments and elements read it. -/
theorem ReadsItem.itemGives {level : Nat} (h : t.ReadsItem) (hfits : Fits .item t)
    (hfinal : context.final.kind = .eof) (hlevel : 4 * t.signs.length ≤ level)
    (hdepth : (context.depth + t.signs.length : Int) ≤ context.maxDepth) :
    ItemGives
      (do return (← Grammar.spreadOr (grammar level).assignment (grammar level).assignment, true))
      { context with noIn := false } t := by
  intro cursor after hsigns harrow
  rw [if_neg (by simp [hfits.isHole nofun])]
  intro hfollows
  have hread : (Grammar.spreadOr (grammar level).assignment (grammar level).assignment).Gives
      { context with noIn := false } cursor t.Depicts after :=
    h level ⟨hsigns, harrow, hfinal, rfl⟩ hlevel hdepth hfollows
  refine hread.bind fun node behind hnode hbehind ↦ ?_
  exact ⟨(node, true), behind, rfl, ⟨hnode, rfl⟩, hbehind⟩

/-- Arguments in parentheses. -/
theorem arguments_gives {level : Nat} {args : List Term} (hargs : ∀ t ∈ args, Fits .item t)
    (hreads : ∀ t ∈ args, t.ReadsItem) (hfinal : context.final.kind = .eof)
    (hlevel : 4 * (listSigns args).length < level)
    (hdepth : (context.depth + (listSigns args).length : Int) ≤ context.maxDepth)
    (hsigns : cursor.signs =
      Mark.openParen.sign :: (listSigns args ++ Mark.closeParen.sign :: rest))
    (harrow : ∀ sign ∈ cursor.signs, sign.kind ≠ .mark .arrow) :
    (grammar level).arguments.Gives context cursor (DepictAll args) rest := by
  refine (expectMark_gives hsigns).bind fun _ inside _ hinside ↦ ?_
  have hstarts : ∀ t ∈ args, StartsAs .element t := fun t h ↦ (Fits.ofItem (hargs t h)).startsAs
  have hlength := length_le_listSigns hstarts
  have hitems : ∀ t ∈ args, ItemGives
      (do return (← Grammar.spreadOr (grammar level).assignment (grammar level).assignment, true))
      { context with noIn := false } t := by
    intro t ht
    have hle := length_signs_le_listSigns ht
    exact (hreads t ht).itemGives (hargs t ht) hfinal (by omega) (by omega)
  have hlist : (commaList (grammar level).rounds (beforeMark .closeParen)
      (Grammar.spreadOr (grammar level).assignment (grammar level).assignment)).Gives
      { context with noIn := false } inside (DepictAll args) (Mark.closeParen.sign :: rest) := by
    refine looseList_gives (.inl rfl) hfinal hitems hstarts ?_ hinside ?_
    · rw [grammar_rounds]
      omega
    · intro sign hmem
      apply harrow sign
      rw [hsigns, ← hinside]
      exact List.mem_cons_of_mem _ hmem
  refine (Gives.allowingIn hlist).bind fun nodes behind hnodes hbehind ↦ ?_
  refine (expectMark_gives hbehind).bind fun _ last _ hlast ↦ ?_
  exact ⟨nodes, last, rfl, hnodes, hlast⟩

/-- An element of an array literal. -/
def elementItem (g : Grammar) : Parse (Node × Bool) := do
  let start ← current
  if ← acceptMark .comma then return (← node start .omitted, false)
  return (← Grammar.spreadOr g.assignment g.assignment, true)

theorem arrayElements_eq (g : Grammar) :
    g.arrayElements (Grammar.spreadOr g.assignment g.assignment) =
      looseList g.rounds (beforeMark .closeBracket) (elementItem g) := rfl

theorem startsItem_ne_comma {kind : TokenKind} (h : Starts kind ∨ kind = .mark .ellipsis) :
    kind ≠ .mark .comma := by
  rcases h with h | rfl
  · refine h.elim nofun nofun nofun nofun nofun nofun ?_
    intro op
    cases op <;> nofun
  · nofun

theorem element_itemGives {level : Nat} (hfits : Fits .element t)
    (h : t.isHole = true ∨ t.ReadsItem) (hfinal : context.final.kind = .eof)
    (hlevel : 4 * t.signs.length ≤ level)
    (hdepth : (context.depth + t.signs.length : Int) ≤ context.maxDepth) :
    ItemGives (elementItem (grammar level)) { context with noIn := false } t := by
  intro cursor after hsigns harrow
  cases hfits with
  | hole =>
    rw [if_pos (by rfl)]
    rintro rest rfl
    have hcomma : cursor.signs = Mark.comma.sign :: rest := hsigns
    refine (current_gives hcomma).bind fun start middle _ hmiddle ↦ ?_
    refine (acceptMark_gives hmiddle).bind fun _ behind haccept hbehind ↦ ?_
    rw [haccept, if_pos rfl]
    exact ⟨(_, false), behind, rfl, ⟨⟨_, rfl⟩, rfl⟩, hbehind⟩
  | ofItem hfits =>
    have hitem := (h.resolve_left (by simp [hfits.isHole nofun])).itemGives hfits hfinal hlevel
      hdepth cursor after hsigns harrow
    rw [if_neg (by simp [hfits.isHole nofun])] at hitem ⊢
    intro hfollows
    obtain ⟨p, behind, hrun, hp, hbehind⟩ := hitem hfollows
    refine ⟨p, behind, ?_, hp, hbehind⟩
    have hcomma : acceptMark .comma { context with noIn := false } cursor = .ok false cursor := by
      apply accept_eq_false
      · exact hfinal
      · obtain ⟨sign, more, hmore, hstart⟩ := hfits.startsAs
        rw [hsigns, hmore]
        exact startsItem_ne_comma hstart
    rw [elementItem, bind_of_ok current_eq, bind_of_ok hcomma]
    exact hrun

theorem readsPrimary_array {elements : List Term} (hfits : ∀ t ∈ elements, Fits .element t)
    (h : ∀ t ∈ elements, t.isHole = true ∨ t.ReadsItem) : (Term.array elements).ReadsPrimary := by
  intro level context cursor rest hahead hlevel hdepth
  have hlength : (Term.array elements).signs.length = (listSigns elements).length + 2 := by
    simp [signs]
  have hsplit : (Term.array elements).signs ++ rest =
      Mark.openBracket.sign :: (listSigns elements ++ Mark.closeBracket.sign :: rest) := by
    simp [signs]
  have hsigns := hahead.signs.trans hsplit
  have hstarts : ∀ t ∈ elements, StartsAs .element t := fun t h ↦ (hfits t h).startsAs
  have hcount := length_le_listSigns hstarts
  refine (current_gives hsigns).bind fun token middle htoken hmiddle ↦ ?_
  have hkind : token.kind = .mark .openBracket := congrArg Sign.kind htoken
  simp only [hkind, Grammar.arrayLiteral]
  refine (current_gives hmiddle).bind fun start place _ hplace ↦ ?_
  refine (expectMark_gives hplace).bind fun _ inside _ hinside ↦ ?_
  have hitems : ∀ t ∈ elements,
      ItemGives (elementItem (grammar level)) { context with noIn := false } t := by
    intro t ht
    have hle := length_signs_le_listSigns ht
    exact element_itemGives (hfits t ht) (h t ht) hahead.final_kind (by omega) (by omega)
  have hlist : ((grammar level).arrayElements
      (Grammar.spreadOr (grammar level).assignment (grammar level).assignment)).Gives
      { context with noIn := false } inside (DepictAll elements)
      (Mark.closeBracket.sign :: rest) := by
    rw [arrayElements_eq]
    refine looseList_gives (.inr rfl) hahead.final_kind hitems hstarts ?_ hinside ?_
    · rw [grammar_rounds]
      omega
    · intro sign hmem
      apply hahead.noArrow sign
      rw [hsigns, ← hinside]
      exact List.mem_cons_of_mem _ hmem
  refine (Gives.allowingIn hlist).bind fun nodes behind hnodes hbehind ↦ ?_
  refine (expectMark_gives hbehind).bind fun _ last _ hlast ↦ ?_
  exact node_gives hlast fun range ↦ ⟨range, nodes, rfl, hnodes⟩

/-! ## Chains -/

/-- One more link behind an operand. -/
theorem ReadsOperand.link {receiver : Term} (linkSigns : List Sign) (h : receiver.ReadsOperand)
    (hsigns : t.signs = receiver.signs ++ linkSigns) (hlinkSigns : linkSigns ≠ [])
    (hlink : ∀ level ⦃context cursor rest⦄ (start : Token) (node : Node), receiver.Depicts node →
      context.final.kind = .eof → cursor.signs = linkSigns ++ rest →
      (∀ sign ∈ cursor.signs, sign.kind ≠ .mark .arrow) → 4 * linkSigns.length < level →
      (context.depth + linkSigns.length : Int) ≤ context.maxDepth →
      ((grammar level).link start true node).Gives context cursor
        (fun next ↦ ∃ node, next = some node ∧ t.Depicts node) rest) : t.ReadsOperand := by
  intro level context cursor rest start hahead hlevel hdepth
  have hlength : t.signs.length = receiver.signs.length + linkSigns.length := by simp [hsigns]
  have hpos : 0 < linkSigns.length := List.length_pos_iff.mpr hlinkSigns
  have hsplit : t.signs ++ rest = [] ++ (receiver.signs ++ (linkSigns ++ rest)) := by simp [hsigns]
  have hreceiver := hahead.part hsplit (hahead.signs.trans hsplit)
  obtain ⟨first, middle, count, last, behind, hoperand, hloops, hlast, hbehind, hcount⟩ :=
    h level start hreceiver (by omega) (by omega)
  have harrow : ∀ sign ∈ behind.signs, sign.kind ≠ .mark .arrow := by
    intro sign hmem
    apply hreceiver.noArrow sign
    rw [hreceiver.signs, ← hbehind]
    exact List.mem_append_right _ hmem
  obtain ⟨_, place, hrun, ⟨node, rfl, hnode⟩, hplace⟩ := hlink level start last hlast
    hahead.final_kind hbehind harrow (by omega) (by omega)
  refine ⟨first, middle, count + 1, node, place, hoperand, hloops.snoc ?_, hnode, hplace, by omega⟩
  rw [linkRound, bind_of_ok hrun]
  rfl

theorem readsOperand_call {callee : Term} {args : List Term} (h : callee.ReadsOperand)
    (hargs : ∀ t ∈ args, Fits .item t) (hreads : ∀ t ∈ args, t.ReadsItem) :
    (Term.call callee args).ReadsOperand := by
  refine h.link (Mark.openParen.sign :: (listSigns args ++ [Mark.closeParen.sign]))
    (by simp [signs]) (by simp) ?_
  intro level context cursor rest start node hnode hfinal hsigns harrow hlevel hdepth
  simp only [List.length_cons, List.length_append, List.length_nil] at hlevel hdepth
  have hcursor : cursor.signs =
      Mark.openParen.sign :: (listSigns args ++ Mark.closeParen.sign :: rest) := by simp [hsigns]
  refine (current_gives hcursor).bind fun token middle htoken hmiddle ↦ ?_
  have hkind : token.kind = .mark .openParen := congrArg Sign.kind htoken
  simp only [hkind, if_true]
  refine (arguments_gives hargs hreads hfinal (by omega) (by omega) hmiddle ?_).bind
    fun parts behind hparts hbehind ↦ ?_
  · rwa [hmiddle, ← hcursor]
  exact ⟨some _, behind, rfl, ⟨_, rfl, _, node, parts, rfl, hnode, hparts⟩, hbehind⟩

theorem readsOperand_index {receiver key : Term} (h : receiver.ReadsOperand)
    (hkey : key.ReadsAssignment) : (Term.index receiver key).ReadsOperand := by
  refine h.link (Mark.openBracket.sign :: (key.signs ++ [Mark.closeBracket.sign]))
    (by simp [signs]) (by simp) ?_
  intro level context cursor rest start node hnode hfinal hsigns harrow hlevel hdepth
  simp only [List.length_cons, List.length_append, List.length_nil] at hlevel hdepth
  have hcursor : cursor.signs =
      Mark.openBracket.sign :: (key.signs ++ Mark.closeBracket.sign :: rest) := by simp [hsigns]
  refine (current_gives hcursor).bind fun token middle htoken hmiddle ↦ ?_
  have hkind : token.kind = .mark .openBracket := congrArg Sign.kind htoken
  simp only [hkind]
  refine (advance_gives hmiddle).bind fun _ inside _ hinside ↦ ?_
  have hahead :
      key.Ahead (Mark.closeBracket.sign :: rest) { context with noIn := false } inside := by
    refine ⟨hinside, ?_, hfinal, rfl⟩
    intro sign hmem
    apply harrow sign
    rw [hcursor, ← hinside]
    exact List.mem_cons_of_mem _ hmem
  refine (Gives.allowingIn (hkey.expression hahead (by omega) (by dsimp only; omega)
    (follows_mark (by decide) rest) (by simp))).bind fun part behind hpart hbehind ↦ ?_
  refine (expectMark_gives hbehind).bind fun _ last _ hlast ↦ ?_
  exact ⟨some _, last, rfl, ⟨_, rfl, _, node, part, rfl, hnode, hpart⟩, hlast⟩

theorem readsOperand_member {receiver : Term} (key : Bytes) (h : receiver.ReadsOperand) :
    (Term.member receiver key).ReadsOperand := by
  refine h.link [Mark.dot.sign, ⟨.identifier, key⟩] (by simp [signs]) (by simp) ?_
  intro level context cursor rest start node hnode hfinal hsigns harrow hlevel hdepth
  refine (current_gives hsigns).bind fun token middle htoken hmiddle ↦ ?_
  have hkind : token.kind = .mark .dot := congrArg Sign.kind htoken
  simp only [hkind]
  refine (advance_gives hmiddle).bind fun _ place _ hplace ↦ ?_
  have hname : (expectMemberName "PSR-P004" "Expected property name after '.'").Gives context place
      (· = key) rest := by
    obtain ⟨token, after, hafter, hsign, hrest⟩ := signs_eq_cons hplace
    have hkind : token.kind = .identifier := congrArg Sign.kind hsign
    have hmember : token.kind.isMemberName = true := by rw [hkind]; rfl
    refine ⟨token.value, _, ?_, congrArg Sign.value hsign, hrest⟩
    rw [expectMemberName, bind_of_ok (current_of_cons hafter), if_pos hmember, take_of_cons hafter]
  refine hname.bind fun name behind hname hbehind ↦ ?_
  subst hname
  exact ⟨some _, behind, rfl, ⟨_, rfl, _, node, rfl, hnode⟩, hbehind⟩

/-! ## Operators -/

/-- Behind its last link an operand is complete. -/
theorem ReadsOperand.leftHandSide (h : t.ReadsOperand) {level : Nat}
    (hahead : t.Ahead rest context cursor) (hlevel : 4 * t.signs.length ≤ level + 3)
    (hdepth : (context.depth + t.signs.length : Int) ≤ context.maxDepth + 1)
    (hfollows : Follows 12 (headKind rest)) :
    (grammar level).leftHandSide.Gives context cursor t.Depicts rest := by
  obtain ⟨first, middle, count, last, behind, hoperand, hloops, hlast, hbehind, hcount⟩ :=
    h level (cursor.after.head?.getD context.final) hahead hlevel hdepth
  refine ⟨last, behind, ?_, hlast, hbehind⟩
  rw [Grammar.leftHandSide, bind_of_ok current_eq, bind_of_ok hoperand, chain_eq, grammar_rounds]
  refine hloops.iterate_of_stop ?_ (by omega)
  rw [linkRound, bind_of_ok (link_eq_none hahead.final_kind (by rwa [hbehind]))]
  rfl

/-- An operand without an operator in front of it or an increment behind it. -/
theorem unaryStep_of_leftHandSide {g : Grammar} {behind : TokenCursor} {node : Node} {limit : Nat}
    (hfinal : context.final.kind = .eof) (hstart : StartsOperand (headKind cursor.signs))
    (hfollows : Follows limit (headKind behind.signs))
    (h : g.leftHandSide context cursor = .ok node behind) :
    g.unaryStep context cursor = .ok node behind := by
  have hmarks : atMarks [.plusPlus, .minusMinus] context behind = .ok false behind := by
    rw [atMarks_eq _ hfinal]
    refine congrArg (ParseOutcome.ok · behind) ?_
    generalize headKind behind.signs = kind at hfollows ⊢
    refine hfollows.elim rfl rfl rfl rfl rfl rfl rfl ?_
    intro op
    cases op <;> rfl
  have hincremented : g.incremented context cursor = .ok node behind := by
    rw [Grammar.incremented, bind_of_ok current_eq, bind_of_ok h, bind_of_ok hmarks,
      bind_of_ok onNewLine_eq]
    rfl
  have hkind : StartsOperand (cursor.after.head?.getD context.final).kind := by
    rwa [current_kind hfinal]
  rw [Grammar.unaryStep, bind_of_ok current_eq, ← hincremented]
  generalize cursor.after.head?.getD context.final = token at hkind ⊢
  obtain ⟨kind, value, start, stop, newlineBefore⟩ := token
  exact hkind.elim rfl rfl rfl rfl rfl rfl

theorem ReadsOperand.unary (h : t.ReadsOperand) (hstart : StartsAs .operand t) :
    t.ReadsUnary := by
  intro level context cursor rest hahead hlevel hdepth hfollows
  obtain ⟨sign, more, hsigns, hsign⟩ := hstart
  have hlength : t.signs.length = more.length + 1 := by rw [hsigns]; rfl
  obtain ⟨level, rfl⟩ : ∃ l, level = l + 1 := ⟨level - 1, by omega⟩
  have hcursor : cursor.signs = sign :: (more ++ rest) := by rw [hahead.signs, hsigns]; rfl
  obtain ⟨node, behind, hrun, hnode, hbehind⟩ := h.leftHandSide hahead (by omega) hdepth hfollows
  refine ⟨node, behind, ?_, hnode, hbehind⟩
  exact unaryStep_of_leftHandSide hahead.final_kind (by rwa [hcursor]) (by rwa [hbehind]) hrun

theorem readsUnary_unary {operand : Term} (op : PrefixOp) (h : operand.ReadsUnary)
    (hpos : 0 < operand.signs.length) : (Term.unary op operand).ReadsUnary := by
  intro level context cursor rest hahead hlevel hdepth hfollows
  have hlength : (Term.unary op operand).signs.length = operand.signs.length + 1 := rfl
  obtain ⟨level, rfl⟩ : ∃ l, level = l + 1 := ⟨level - 1, by omega⟩
  have hsplit : (Term.unary op operand).signs ++ rest = [op.sign] ++ (operand.signs ++ rest) := rfl
  change (grammar level).unaryStep.Gives context cursor _ rest
  refine (current_gives (hahead.signs.trans hsplit)).bind fun token middle htoken hmiddle ↦ ?_
  have hkind : token.kind = op.kind := congrArg Sign.kind htoken
  have hvalue : token.value = op.text := congrArg Sign.value htoken
  have haction : (nested (do
      advance
      let operand ← (grammar level).unary
      node token (.unary token.value operand true))).Gives context middle
      (Term.unary op operand).Depicts rest := by
    apply Gives.nested
    · refine (advance_gives hmiddle).bind fun _ inside _ hinside ↦ ?_
      refine (h level (hahead.part hsplit hinside).deeper (by omega) (by dsimp only; omega)
        hfollows).bind fun part behind hpart hbehind ↦ ?_
      exact node_gives hbehind fun range ↦ ⟨range, part, by rw [hvalue], hpart⟩
    · omega
  rw [hkind]
  cases op <;> exact haction

theorem ReadsUnary.binary {least : Nat} (h : t.ReadsUnary) (hlimit : t.limit = 12)
    (hpos : 0 < t.signs.length) : t.ReadsBinary least := by
  intro level context cursor rest start hahead hlevel hdepth hfollows least' _
  rw [hlimit] at hfollows
  obtain ⟨node, behind, hrun, hnode, hbehind⟩ := h level hahead hlevel hdepth hfollows
  exact ⟨node, behind, 0, node, behind, hrun, .refl _ _, hnode, hbehind, hpos⟩

/-- Behind its last operator a chain of operators is complete. -/
theorem ReadsBinary.gives {least : Nat} (h : t.ReadsBinary least) {level : Nat}
    (hlimit : least ≤ t.limit) (hahead : t.Ahead rest context cursor)
    (hlevel : 4 * t.signs.length ≤ level + 1)
    (hdepth : (context.depth + t.signs.length : Int) ≤ context.maxDepth + 1)
    (hfollows : Follows least (headKind rest)) (hpos : 0 < t.signs.length) :
    ((grammar level).binary least).Gives context cursor t.Depicts rest := by
  obtain ⟨level, rfl⟩ : ∃ l, level = l + 1 := ⟨level - 1, by omega⟩
  obtain ⟨first, middle, count, last, behind, hunary, hloops, hlast, hbehind, hcount⟩ :=
    h level (cursor.after.head?.getD context.final) hahead (by omega) hdepth (hfollows.mono hlimit)
      least (Nat.le_refl _)
  refine ⟨last, behind, ?_, hlast, hbehind⟩
  change (grammar level).binaryStep least context cursor = _
  rw [binaryStep_eq, bind_of_ok current_eq, bind_of_ok hunary, grammar_rounds]
  refine hloops.iterate_of_stop ?_ (by omega)
  rw [binaryRound, bind_of_ok (binaryLink_eq_none hahead.final_kind (by rwa [hbehind]))]
  rfl

theorem binaryLink_gives {g : Grammar} {least : Nat} {op : InfixOp} {start : Token} {left : Node}
    {P Q : Node → Prop} (hleast : least ≤ op.precedence) (hnoIn : context.noIn = false)
    (hsigns : cursor.signs = op.sign :: rest) {after : List Sign}
    (hright : ∀ cursor', cursor'.signs = rest →
      (g.binary op.rightLeast).Gives context cursor' P after)
    (hnode : ∀ range right, P right → Q (.plain range (.binary op.text left right))) :
    (g.binaryLink least start left).Gives context cursor
      (fun next ↦ ∃ node, next = some node ∧ Q node) after := by
  refine (current_gives hsigns).bind fun token middle htoken hmiddle ↦ ?_
  have hkind : token.kind = op.kind := congrArg Sign.kind htoken
  have hvalue : token.value = op.text := congrArg Sign.value htoken
  have hstrength : ¬(Grammar.precedence op.kind == 0 ||
      decide (Grammar.precedence op.kind < least)) = true := by
    have := op.precedence_pos
    simp only [Bool.or_eq_true, beq_iff_eq, decide_eq_true_eq, not_or]
    unfold InfixOp.precedence at *
    omega
  have hcast : (op.kind == .word .as || op.kind == .word .satisfies) = false := by
    cases op <;> rfl
  have hside : (if (op.kind == .mark .power) = true then Grammar.precedence op.kind
      else Grammar.precedence op.kind + 1) = op.rightLeast := by
    cases op <;> rfl
  rw [hkind, if_neg hstrength]
  refine Gives.bind ⟨context, middle, rfl, rfl, hmiddle⟩ fun context' place hcontext hplace ↦ ?_
  subst hcontext
  rw [hnoIn, Bool.and_false, if_neg Bool.false_ne_true, hcast, if_neg Bool.false_ne_true, hside]
  refine (advance_gives hplace).bind fun _ behind _ hbehind ↦ ?_
  refine (hright behind hbehind).bind fun right last hright hlast ↦ ?_
  exact ⟨some _, last, rfl, ⟨_, rfl, by rw [hvalue]; exact hnode _ right hright⟩, hlast⟩

theorem Fits.limit_eq (h : Fits .unary t) : t.limit = 12 := by
  cases h with
  | unary op _ => rfl
  | ofOperand h => cases h <;> rfl

/-- Operators of the left side of an operator do not take it for their own right side. -/
theorem Fits.precedence_lt_limit {op : InfixOp} (h : Fits (.binary op.leftLeast) t) :
    op.precedence < t.limit := by
  cases h with
  | ofUnary h =>
    rw [h.limit_eq]
    cases op <;> decide
  | binary hop _ _ => exact InfixOp.precedence_lt_rightLeast hop

theorem Fits.le_limit {least : Nat} (h : Fits (.binary least) t) (hleast : least ≤ 12) :
    least ≤ t.limit := by
  cases h with
  | ofUnary h => rwa [h.limit_eq]
  | @binary _ op _ _ hop _ _ => exact Nat.le_trans hop op.precedence_le_rightLeast

/-- One more operator behind a chain of operators. -/
theorem readsBinary_binary {least : Nat} {op : InfixOp} {left right : Term}
    (hleast : least ≤ op.precedence) (hop : op.precedence < left.limit)
    (hleft : left.ReadsBinary op.leftLeast) (hright : right.ReadsBinary op.rightLeast)
    (hlimit : op.rightLeast ≤ right.limit) (hpos : 0 < right.signs.length) :
    (Term.binary op left right).ReadsBinary least := by
  intro level context cursor rest start hahead hlevel hdepth hfollows least' hle
  have hlength : (Term.binary op left right).signs.length =
      left.signs.length + right.signs.length + 1 := by
    simp [signs]
    omega
  have hsplit : (Term.binary op left right).signs ++ rest =
      [] ++ (left.signs ++ (op.sign :: (right.signs ++ rest))) := by simp [signs]
  obtain ⟨first, middle, count, last, behind, hunary, hloops, hlast, hbehind, hcount⟩ :=
    hleft level start (hahead.part hsplit (hahead.signs.trans hsplit)) (by omega) (by omega)
      (.inr (.inr ⟨op, hop, rfl⟩)) least'
      (Nat.le_trans hle (Nat.le_trans hleast op.precedence_le_leftLeast))
  have hsplit' : (Term.binary op left right).signs ++ rest =
      (left.signs ++ [op.sign]) ++ (right.signs ++ rest) := by simp [signs]
  obtain ⟨_, place, hlink, ⟨node, rfl, hnode⟩, hplace⟩ :
      ((grammar level).binaryLink least' start last).Gives context behind
        (fun next ↦ ∃ node, next = some node ∧ (Term.binary op left right).Depicts node) rest :=
    binaryLink_gives (Nat.le_trans hle hleast) hahead.noIn hbehind
      (fun cursor' hcursor' ↦ hright.gives hlimit (hahead.part hsplit' hcursor') (by omega)
        (by omega) hfollows hpos)
      fun range part hpart ↦ ⟨range, last, part, rfl, hlast, hpart⟩
  refine ⟨first, middle, count + 1, node, place, hunary, hloops.snoc ?_, hnode, hplace, by omega⟩
  rw [binaryRound, bind_of_ok hlink]
  rfl

/-! ## Whole expressions -/

theorem arrowFollows_eq_false {tokens : List Token} (nesting : Nat)
    (h : ∀ token ∈ tokens, token.kind ≠ .mark .arrow) :
    Lookahead.arrowFollows nesting tokens = false := by
  fun_induction Lookahead.arrowFollows nesting tokens with
  | case1 => rfl
  | _ => simp_all

theorem startsArrow_eq_false {tokens : List Token}
    (h : ∀ token ∈ tokens, token.kind ≠ .mark .arrow) : Lookahead.startsArrow tokens = false := by
  unfold Lookahead.startsArrow
  split
  · rfl
  · next close _ =>
    split
    · rfl
    · next next rest hdrop =>
      have hmem : ∀ token ∈ next :: rest, token.kind ≠ .mark .arrow := by
        intro token hmem
        rw [← hdrop] at hmem
        exact h token (List.mem_of_mem_drop hmem)
      have htake : ∀ token ∈ rest.take Lookahead.returnTypeWindow, token.kind ≠ .mark .arrow :=
        fun token htoken ↦ hmem token (List.mem_cons_of_mem _ (List.mem_of_mem_take htoken))
      have hfollows := arrowFollows_eq_false 0 htake
      simp [hmem next (by simp), hfollows]

theorem atAsyncArrow_eq_false (hfinal : context.final.kind = .eof)
    (h : headKind cursor.signs ≠ .word .async) :
    Grammar.atAsyncArrow context cursor = .ok false cursor := by
  rw [Grammar.atAsyncArrow, bind_of_ok (atWord_eq _ hfinal), beq_false_of_ne h]
  rfl

theorem atArrow_eq_false (hfinal : context.final.kind = .eof)
    (hopen : headKind cursor.signs ≠ .mark .typeOpen)
    (harrow : ∀ sign ∈ cursor.signs, sign.kind ≠ .mark .arrow) :
    Grammar.atArrow context cursor = .ok false cursor := by
  have htokens : ∀ token ∈ cursor.after, token.kind ≠ .mark .arrow :=
    fun token h ↦ harrow token.sign (List.mem_map_of_mem h)
  have hahead : arrowAhead 0 context cursor = .ok false cursor :=
    congrArg (ParseOutcome.ok · cursor) (startsArrow_eq_false htokens)
  have hnext : markAhead 1 .arrow context cursor = .ok false cursor := by
    refine congrArg (ParseOutcome.ok · cursor) (beq_false_of_ne ?_)
    cases hget : cursor.after[1]? with
    | none =>
      rw [Option.getD_none, hfinal]
      nofun
    | some token => exact htokens token (List.mem_of_getElem? hget)
  have hname : nameAhead 0 context cursor = .ok _ cursor := rfl
  rw [Grammar.atArrow, bind_of_ok (atMark_eq _ hfinal)]
  split
  · exact hahead
  · rw [bind_of_ok hname, bind_of_ok hnext, bind_of_ok (atMark_eq _ hfinal), beq_false_of_ne hopen,
      Bool.and_false]
    rfl

theorem Starts.ne {kind : TokenKind} (h : Starts kind) :
    kind ≠ .word .async ∧ kind ≠ .mark .typeOpen ∧ kind ≠ .word .yield ∧
      kind ≠ .mark .ellipsis := by
  refine h.elim (by decide) (by decide) (by decide) (by decide) (by decide) (by decide) ?_
  intro op
  cases op <;> decide

/-- An assignment without an arrow and without a mark of an assignment is a conditional. -/
theorem assignmentStep_of_conditional {g : Grammar} {behind : TokenCursor} {node : Node}
    (hfinal : context.final.kind = .eof) (hstart : Starts (headKind cursor.signs))
    (hdepth : (context.depth : Int) < context.maxDepth)
    (harrow : Grammar.atArrow { context with depth := context.depth + 1 } cursor =
      .ok false cursor)
    (hfollows : Follows 0 (headKind behind.signs))
    (h : g.conditional { context with depth := context.depth + 1 } cursor = .ok node behind) :
    g.assignmentStep context cursor = .ok node behind := by
  rw [Grammar.assignmentStep, nested, if_neg (by omega)]
  replace hfinal : ({ context with depth := context.depth + 1 } : ParseContext).final.kind = .eof :=
    hfinal
  generalize ({ context with depth := context.depth + 1 } : ParseContext) = inner
    at hfinal harrow h ⊢
  obtain ⟨hasync, -, hyield, -⟩ := hstart.ne
  rw [bind_of_ok current_eq, bind_of_ok (atAsyncArrow_eq_false hfinal hasync),
    if_neg Bool.false_ne_true, bind_of_ok harrow, if_neg Bool.false_ne_true,
    bind_of_ok (atWord_eq _ hfinal), beq_false_of_ne hyield, if_neg Bool.false_ne_true,
    bind_of_ok h, bind_of_ok current_eq, current_kind hfinal]
  generalize headKind behind.signs = kind at hfollows ⊢
  refine hfollows.elim rfl rfl rfl rfl rfl rfl rfl ?_
  intro op
  cases op <;> rfl

/-- A term is read through the conditional when no arrow lies ahead. -/
theorem assignment_gives {level : Nat} (hstart : StartsAs .assignment t)
    (hahead : t.Ahead rest context cursor) (hdepth : (context.depth : Int) < context.maxDepth)
    (hfollows : Follows 0 (headKind rest))
    (h : (grammar level).conditional.Gives { context with depth := context.depth + 1 } cursor
      t.Depicts rest) :
    (grammar (level + 1)).assignment.Gives context cursor t.Depicts rest := by
  have hinner := hahead.deeper
  obtain ⟨node, behind, hrun, hnode, hbehind⟩ := h
  obtain ⟨sign, more, hsigns, hsign⟩ := hstart
  have hkind : Starts (headKind cursor.signs) := by
    rw [hahead.signs, hsigns]
    exact hsign
  refine ⟨node, behind, ?_, hnode, hbehind⟩
  exact assignmentStep_of_conditional hahead.final_kind hkind hdepth
    (atArrow_eq_false hinner.final_kind hkind.ne.2.1 hinner.noArrow) (by rwa [hbehind]) hrun

theorem Follows.ne_question {kind : TokenKind} (h : Follows 0 kind) : kind ≠ .mark .question := by
  rcases h with h | ⟨hpos, -⟩ | ⟨op, hop, -⟩
  · revert kind
    decide
  · exact absurd hpos (Nat.lt_irrefl 0)
  · exact absurd hop (Nat.not_lt_zero _)

theorem conditional_eq_test {level : Nat} (hahead : t.Ahead rest context cursor)
    (hfollows : Follows 0 (headKind rest))
    (h : ((grammar level).binary 1).Gives context cursor t.Depicts rest) :
    (grammar level).conditional.Gives context cursor t.Depicts rest := by
  obtain ⟨node, behind, hrun, hnode, hbehind⟩ := h
  refine ⟨node, behind, ?_, hnode, hbehind⟩
  have hquestion : acceptMark .question context behind = .ok false behind := by
    apply accept_eq_false hahead.final_kind
    rw [hbehind]
    exact hfollows.ne_question
  rw [Grammar.conditional, bind_of_ok current_eq, bind_of_ok hrun, bind_of_ok hquestion]
  rfl

theorem ReadsBinary.assignment (h : t.ReadsBinary 1) (hfits : Fits (.binary 1) t) :
    t.ReadsAssignment := by
  intro level context cursor rest hahead hlevel hdepth hfollows
  have hstart : StartsAs .assignment t := hfits.startsAs
  obtain ⟨sign, more, hsigns, hsign⟩ := hstart
  have hlength : t.signs.length = more.length + 1 := by rw [hsigns]; rfl
  obtain ⟨level, rfl⟩ : ∃ l, level = l + 1 := ⟨level - 1, by omega⟩
  refine assignment_gives ⟨sign, more, hsigns, hsign⟩ hahead (by omega) hfollows ?_
  refine conditional_eq_test hahead.deeper hfollows ?_
  exact h.gives (hfits.le_limit (by decide)) hahead.deeper (by omega) (by dsimp only; omega)
    (hfollows.mono (by decide)) (by omega)

theorem readsAssignment_conditional {test consequent alternate : Term} (htest : test.ReadsBinary 1)
    (hfits : Fits (.binary 1) test) (hconsequent : consequent.ReadsAssignment)
    (halternate : alternate.ReadsAssignment) :
    (Term.conditional test consequent alternate).ReadsAssignment := by
  intro level context cursor rest hahead hlevel hdepth hfollows
  obtain ⟨sign, more, hsigns, hsign⟩ : StartsAs .assignment test := hfits.startsAs
  have hpos : test.signs.length = more.length + 1 := by rw [hsigns]; rfl
  have hlength : (Term.conditional test consequent alternate).signs.length =
      test.signs.length + consequent.signs.length + alternate.signs.length + 2 := by
    simp [signs]
    omega
  obtain ⟨level, rfl⟩ : ∃ l, level = l + 1 := ⟨level - 1, by omega⟩
  have hstart : StartsAs .assignment (.conditional test consequent alternate) :=
    ⟨sign, _, by rw [signs, hsigns]; rfl, hsign⟩
  refine assignment_gives hstart hahead (by omega) hfollows ?_
  have hinner := hahead.deeper
  -- The three parts, each with what lies behind it.
  have hsplit : (Term.conditional test consequent alternate).signs ++ rest =
      [] ++ (test.signs ++ (Mark.question.sign :: (consequent.signs ++
        Mark.colon.sign :: (alternate.signs ++ rest)))) := by simp [signs]
  have hsplit₂ : (Term.conditional test consequent alternate).signs ++ rest =
      (test.signs ++ [Mark.question.sign]) ++ (consequent.signs ++
        Mark.colon.sign :: (alternate.signs ++ rest)) := by simp [signs]
  have hsplit₃ : (Term.conditional test consequent alternate).signs ++ rest =
      (test.signs ++ Mark.question.sign :: consequent.signs ++ [Mark.colon.sign]) ++
        (alternate.signs ++ rest) := by simp [signs]
  refine current_gives_token.bind fun start place _ hplace ↦ ?_
  refine (htest.gives (hfits.le_limit (by decide))
    (hinner.part hsplit (hplace.trans (hahead.signs.trans hsplit))) (by omega)
    (by dsimp only; omega) (.inr (.inl ⟨by decide, rfl⟩)) (by omega)).bind
    fun first middle hfirst hmiddle ↦ ?_
  refine (acceptMark_gives hmiddle).bind fun _ behind haccept hbehind ↦ ?_
  rw [haccept, if_pos rfl]
  refine (Gives.allowingIn (hconsequent level (hinner.inside hsplit₂ hbehind) (by omega)
    (by dsimp only; omega) (follows_mark (by decide) _))).bind fun second place hsecond hplace ↦ ?_
  refine (expectMark_gives hplace).bind fun _ inside _ hinside ↦ ?_
  refine (halternate level (hinner.part hsplit₃ hinside) (by omega) (by dsimp only; omega)
    hfollows).bind fun third last hthird hlast ↦ ?_
  exact node_gives hlast fun range ↦ ⟨range, first, second, third, rfl, hfirst, hsecond, hthird⟩

/-! ## Items -/

theorem ReadsAssignment.item (h : t.ReadsAssignment) (hfits : Fits .assignment t) :
    t.ReadsItem := by
  intro level context cursor rest hahead hlevel hdepth hfollows
  obtain ⟨node, behind, hrun, hnode, hbehind⟩ := h level hahead hlevel hdepth hfollows
  refine ⟨node, behind, ?_, hnode, hbehind⟩
  have hspread : acceptMark .ellipsis context cursor = .ok false cursor := by
    apply accept_eq_false hahead.final_kind
    obtain ⟨sign, more, hsigns, hsign⟩ : StartsAs .assignment t := hfits.startsAs
    rw [hahead.signs, hsigns]
    exact hsign.ne.2.2.2
  rw [Grammar.spreadOr, bind_of_ok current_eq, bind_of_ok hspread]
  exact hrun

theorem readsItem_spread {argument : Term} (h : argument.ReadsAssignment) :
    (Term.spread argument).ReadsItem := by
  intro level context cursor rest hahead hlevel hdepth hfollows
  have hlength : (Term.spread argument).signs.length = argument.signs.length + 1 := rfl
  have hsplit : (Term.spread argument).signs ++ rest =
      [Mark.ellipsis.sign] ++ (argument.signs ++ rest) := rfl
  refine (current_gives (hahead.signs.trans hsplit)).bind fun start middle _ hmiddle ↦ ?_
  refine (acceptMark_gives hmiddle).bind fun _ behind haccept hbehind ↦ ?_
  rw [haccept, if_pos rfl]
  refine (h level (hahead.part hsplit hbehind) (by omega) (by omega) hfollows).bind
    fun part last hpart hlast ↦ ?_
  exact node_gives hlast fun range ↦ ⟨range, part, rfl, hpart⟩

/-! ## All terms -/

/-- What reading a term of a part of the grammar means. -/
def ReadsAs : Rank → Term → Prop
  | .operand => ReadsOperand
  | .unary => ReadsUnary
  | .binary least => ReadsBinary least
  | .assignment => ReadsAssignment
  | .item => ReadsItem
  | .element => fun t ↦ t.isHole = true ∨ t.ReadsItem

theorem Fits.length_pos {rank : Rank} (h : Fits rank t) (hrank : rank ≠ .element) :
    0 < t.signs.length := by
  cases rank with
  | element => exact absurd rfl hrank
  | operand | unary | binary _ | assignment | item =>
    obtain ⟨sign, rest, hsigns, -⟩ := h.startsAs
    simp [hsigns]

/-- Every term that fits the grammar is read from its tokens. -/
theorem Fits.readsAs {rank : Rank} (h : Fits rank t) : ReadsAs rank t := by
  induction h with
  | name spelling => exact (readsPrimary_name spelling).operand (Fits.name spelling).startsAs
  | number raw isBigint =>
    exact (readsPrimary_number raw isBigint).operand (Fits.number raw isBigint).startsAs
  | string value => exact (readsPrimary_string value).operand (Fits.string value).startsAs
  | paren h ih => exact (readsPrimary_paren ih).operand (Fits.paren h).startsAs
  | array h ih => exact (readsPrimary_array h ih).operand (Fits.array h).startsAs
  | call _ hargs ih ihargs => exact readsOperand_call ih hargs ihargs
  | index _ _ ih ihkey => exact readsOperand_index ih ihkey
  | member key _ ih => exact readsOperand_member key ih
  | ofOperand h ih => exact ih.unary h.startsAs
  | unary op h ih => exact readsUnary_unary op ih (h.length_pos nofun)
  | ofUnary h ih => exact ih.binary h.limit_eq (h.length_pos nofun)
  | @binary _ op _ _ hop hleft hright ihleft ihright =>
    exact readsBinary_binary hop hleft.precedence_lt_limit ihleft ihright
      (hright.le_limit op.rightLeast_le) (hright.length_pos nofun)
  | ofBinary h ih => exact ih.assignment h
  | conditional h _ _ ihtest ihconsequent ihalternate =>
    exact readsAssignment_conditional ihtest h ihconsequent ihalternate
  | ofAssignment h ih => exact ih.item h
  | spread _ ih => exact readsItem_spread ih
  | ofItem _ ih => exact .inr ih
  | hole => exact .inl rfl

end Term

end SignalView
