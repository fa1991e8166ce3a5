import SignalView.Proofs.Expression.Parsed

/-!
# Lines of operands and operators

A line of names with operators between them is grouped by how strongly the operators bind: an
operator takes the operations in front of it for its left side when they bind at least as strongly,
and those behind it for its right side when they bind more strongly; for exponentiation it is the
other way around. A line has one such grouping only, and climbing precedences finds it.
-/

namespace SignalView

open Parse

/-- How strongly an operator binds. -/
def Token.strength (token : Token) : Nat := Grammar.precedence token.kind

/-- The operators that stand between two operands; a type follows the two other words that bind. -/
def Token.IsInfix (token : Token) : Prop :=
  0 < token.strength ∧ token.kind ≠ .word .as ∧ token.kind ≠ .word .satisfies

/-- Operands with operators between them, as a tree. -/
inductive Grouping where
  | operand (name : Token)
  | operation (left : Grouping) (operator : Token) (right : Grouping)

namespace Grouping

/-- The operands and operators in order. -/
def tokens : Grouping → List Token
  | .operand name => [name]
  | .operation left operator right => left.tokens ++ operator :: right.tokens

/-- The operator of the operation as a whole. -/
def top? : Grouping → Option Token
  | .operand _ => none
  | .operation _ operator _ => some operator

/-- How strongly the operations on the left side of an operator have to bind. -/
def leftLeast (operator : Token) : Nat :=
  if operator.kind = .mark .power then operator.strength + 1 else operator.strength

/-- How strongly the operations on the right side of an operator have to bind. -/
def rightLeast (operator : Token) : Nat :=
  if operator.kind = .mark .power then operator.strength else operator.strength + 1

/-- An operand, or an operation that binds at least so strongly. -/
def Binds (least : Nat) (tree : Grouping) : Prop :=
  ∀ operator ∈ tree.top?, least ≤ operator.strength

/-- Both sides of every operation bind as strongly as its operator asks for. -/
def Grouped : Grouping → Prop
  | .operand _ => True
  | .operation left operator right =>
    left.Grouped ∧ right.Grouped ∧ left.Binds (leftLeast operator) ∧
      right.Binds (rightLeast operator)

/-- The first operand. -/
def first : Grouping → Token
  | .operand name => name
  | .operation left _ _ => left.first

/-- The last operand. -/
def last : Grouping → Token
  | .operand name => name
  | .operation _ _ right => right.last

/-- A grouping as a construct of the tree of the source. -/
def node : Grouping → Node
  | .operand name => .plain ⟨name.start, name.stopPosition⟩ (.identifier name.value)
  | .operation left operator right =>
    .plain ⟨left.first.start, right.last.stopPosition⟩
      (.binary operator.value left.node right.node)

/-! ## Lines -/

/-- The operators behind the first operand, each with the operand behind it. -/
def links : Grouping → List (Token × Token)
  | .operand _ => []
  | .operation left operator right => left.links ++ (operator, right.first) :: right.links

end Grouping

/-- Operators, each with the operand behind it. -/
def linkTokens (links : List (Token × Token)) : List Token :=
  links.flatMap fun link ↦ [link.1, link.2]

theorem linkTokens_cons (link : Token × Token) (links : List (Token × Token)) :
    linkTokens (link :: links) = link.1 :: link.2 :: linkTokens links := rfl

/-- A line of operands and operators by its first operand and the links behind that. -/
def lineOf (first : Token) (links : List (Token × Token)) : List Token := first :: linkTokens links

theorem lineOf_inj {first first' : Token} {links links' : List (Token × Token)} :
    lineOf first links = lineOf first' links' ↔ first = first' ∧ links = links' := by
  refine ⟨fun h ↦ ?_, by rintro ⟨rfl, rfl⟩; rfl⟩
  obtain ⟨hfirst, hlinks⟩ := List.cons.inj h
  refine ⟨hfirst, ?_⟩
  clear h
  induction links generalizing links' with
  | nil =>
    cases links' with
    | nil => rfl
    | cons link' links' => cases hlinks
  | cons link links ih =>
    cases links' with
    | nil => cases hlinks
    | cons link' links' =>
      simp only [linkTokens, List.flatMap_cons, List.cons_append, List.nil_append,
        List.cons.injEq] at hlinks
      rw [Prod.ext hlinks.1 hlinks.2.1, ih hlinks.2.2]

namespace Grouping

theorem tokens_eq (tree : Grouping) : tree.tokens = lineOf tree.first tree.links := by
  induction tree with
  | operand name => rfl
  | operation left operator right ihLeft ihRight =>
    rw [tokens, ihLeft, ihRight]
    simp [lineOf, linkTokens, links, first]

/-! ## There is one grouping only -/

theorem strength_le_leftLeast (operator : Token) : operator.strength ≤ leftLeast operator := by
  unfold leftLeast
  split <;> omega

theorem strength_le_rightLeast (operator : Token) : operator.strength ≤ rightLeast operator := by
  unfold rightLeast
  split <;> omega

theorem binds_operand (least : Nat) (name : Token) : (operand name).Binds least := by
  intro operator hoperator
  cases hoperator

theorem Binds.mono {least least' : Nat} {tree : Grouping} (h : tree.Binds least)
    (hle : least' ≤ least) : tree.Binds least' :=
  fun operator hoperator ↦ Nat.le_trans hle (h operator hoperator)

/-- All operators of a grouping bind at least as strongly as its own. -/
theorem Grouped.le_strength {tree : Grouping} (h : tree.Grouped) {least : Nat}
    (hleast : tree.Binds least) : ∀ link ∈ tree.links, least ≤ link.1.strength := by
  induction tree generalizing least with
  | operand name => simp [links]
  | operation left operator right ihLeft ihRight =>
    obtain ⟨hleft, hright, hleftBinds, hrightBinds⟩ := h
    have hoperator : least ≤ operator.strength := hleast operator rfl
    intro link hlink
    rcases List.mem_append.mp hlink with hlink | hlink
    · refine ihLeft hleft (hleftBinds.mono ?_) link hlink
      exact Nat.le_trans hoperator (strength_le_leftLeast operator)
    rcases List.mem_cons.mp hlink with rfl | hlink
    · exact hoperator
    · refine ihRight hright (hrightBinds.mono ?_) link hlink
      exact Nat.le_trans hoperator (strength_le_rightLeast operator)

theorem kind_eq_power {kind : TokenKind} (h : 11 ≤ Grammar.precedence kind) :
    kind = .mark .power := by
  unfold Grammar.precedence at h
  split at h <;> first | rfl | omega

/-- What may stand on the left side of an operator is what may not take it for its right side. -/
theorem leftLeast_le_iff {operator other : Token} :
    leftLeast other ≤ operator.strength ↔ other.strength < rightLeast operator := by
  by_cases hoperator : operator.kind = .mark .power
  · have hstrength : operator.strength = 11 := by rw [Token.strength, hoperator]; rfl
    rw [rightLeast, if_pos hoperator, hstrength]
    by_cases hother : other.kind = .mark .power
    · have hstrength : other.strength = 11 := by rw [Token.strength, hother]; rfl
      rw [leftLeast, if_pos hother, hstrength]
      decide
    · -- Nothing else binds as strongly as exponentiation.
      have hlt : other.strength < 11 := Nat.lt_of_not_le fun h ↦ hother (kind_eq_power h)
      rw [leftLeast, if_neg hother]
      omega
  · have hlt : operator.strength < 11 := Nat.lt_of_not_le fun h ↦ hoperator (kind_eq_power h)
    rw [rightLeast, if_neg hoperator]
    by_cases hother : other.kind = .mark .power
    · have hstrength : other.strength = 11 := by rw [Token.strength, hother]; rfl
      rw [leftLeast, if_pos hother]
      omega
    · rw [leftLeast, if_neg hother]
      omega

/-- In a line that is grouped in two ways, the operator of one grouping does not stand in front of
that of the other. -/
theorem Grouped.eq_nil_of_between {left left' right right' : Grouping} {operator operator' : Token}
    {between : List (Token × Token)} (h : (operation left operator right).Grouped)
    (h' : (operation left' operator' right').Grouped) (hleft : left'.links = left.links ++ between)
    (hright : (operator, right.first) :: right.links =
      between ++ (operator', right'.first) :: right'.links) : between = [] := by
  cases between with
  | nil => rfl
  | cons link between =>
    obtain ⟨rfl, hrest⟩ := List.cons.inj hright
    have hother : (operator', right'.first) ∈ right.links := by simp [hrest]
    have hown : (operator, right.first) ∈ left'.links := by simp [hleft]
    have hafter : rightLeast operator ≤ operator'.strength :=
      h.2.1.le_strength h.2.2.2 _ hother
    have hbefore : leftLeast operator' ≤ operator.strength :=
      h'.1.le_strength h'.2.2.1 _ hown
    exact absurd (leftLeast_le_iff.mp hbefore) (Nat.not_lt.mpr hafter)

/-- Two groupings of the same line are the same. -/
theorem Grouped.unique {tree other : Grouping} (h : tree.Grouped) (hother : other.Grouped)
    (htokens : tree.tokens = other.tokens) : tree = other := by
  induction tree generalizing other with
  | operand name =>
    cases other with
    | operand name' => rw [List.singleton_inj.mp htokens]
    | operation left' operator' right' =>
      rw [tokens_eq, tokens_eq, lineOf_inj] at htokens
      simp [links] at htokens
  | operation left operator right ihLeft ihRight =>
    rw [tokens_eq, tokens_eq, lineOf_inj] at htokens
    obtain ⟨hfirst, hlinks⟩ := htokens
    cases other with
    | operand name' => simp [links] at hlinks
    | operation left' operator' right' =>
      obtain ⟨hleft, hright⟩ : left.links = left'.links ∧
          (operator, right.first) :: right.links = (operator', right'.first) :: right'.links := by
        rcases List.append_eq_append_iff.mp hlinks with ⟨between, hleft, hright⟩ |
          ⟨between, hleft, hright⟩
        · obtain rfl := Grouped.eq_nil_of_between h hother hleft hright
          exact ⟨by simpa using hleft.symm, hright⟩
        · obtain rfl := Grouped.eq_nil_of_between hother h hleft hright
          exact ⟨by simpa using hleft, hright.symm⟩
      obtain ⟨hlink, hrightLinks⟩ := List.cons.inj hright
      obtain ⟨rfl, hrightFirst⟩ := Prod.mk.inj hlink
      have hleftTokens : left.tokens = left'.tokens := by
        rw [tokens_eq, tokens_eq, lineOf_inj]
        exact ⟨hfirst, hleft⟩
      have hrightTokens : right.tokens = right'.tokens := by
        rw [tokens_eq, tokens_eq, lineOf_inj]
        exact ⟨hrightFirst, hrightLinks⟩
      rw [ihLeft h.1 hother.1 hleftTokens, ihRight h.2.1 hother.2.1 hrightTokens]

/-! ## Climbing -/

theorem tokens_ne_nil (tree : Grouping) : tree.tokens ≠ [] := by
  cases tree <;> simp [tokens]

theorem getLast?_tokens (tree : Grouping) : tree.tokens.getLast? = some tree.last := by
  induction tree with
  | operand name => rfl
  | operation left operator right _ ih =>
    rw [tokens, List.getLast?_append, List.getLast?_cons_of_ne_nil right.tokens_ne_nil, ih]
    rfl

section Climbing

variable {context : ParseContext} {cursor : TokenCursor} {level : Nat}

/-- An operator or the end of input follows. -/
def AtLink (context : ParseContext) (cursor : TokenCursor) : Prop :=
  0 < (cursor.after.head?.getD context.final).strength ∨
    (cursor.after.head?.getD context.final).kind = .eof

theorem AtLink.link_eq (h : AtLink context cursor) (g : Grammar) (start : Token) (receiver : Node) :
    g.link start true receiver context cursor = .ok none cursor := by
  unfold Grammar.link
  rw [bind_of_ok current_eq]
  unfold AtLink Token.strength at h
  generalize (cursor.after.head?.getD context.final).kind = kind at h ⊢
  rcases h with h | rfl
  · unfold Grammar.precedence at h
    split at h <;> first | rfl | cases h
  · rfl

theorem AtLink.atMarks_eq (h : AtLink context cursor) :
    atMarks [.plusPlus, .minusMinus] context cursor = .ok false cursor := by
  unfold atMarks
  rw [bind_of_ok current_eq]
  unfold AtLink Token.strength at h
  generalize (cursor.after.head?.getD context.final).kind = kind at h ⊢
  rcases h with h | rfl
  · unfold Grammar.precedence at h
    split at h <;> first | rfl | cases h
  · rfl

theorem operand_eq {name : Token} {before after : List Token} (hname : name.kind = .identifier) :
    (grammar (level + 1)).operand context ⟨before, name :: after⟩ =
      .ok (operand name).node ⟨name :: before, after⟩ := by
  unfold Grammar.operand atWord
  rw [bind_of_ok (at_of_cons rfl _), hname]
  change (grammar level).primaryStep context _ = _
  unfold Grammar.primaryStep
  rw [bind_of_ok (current_of_cons rfl), hname]
  simp only [Grammar.nameExpression, hname, Grammar.leaf]
  exact bind_of_ok (advance_of_cons rfl)

/-- A name with an operator or the end of input behind it is an operand. -/
theorem unary_eq {name : Token} {before after : List Token} (hname : name.kind = .identifier)
    (h : AtLink context ⟨name :: before, after⟩) :
    (grammar (level + 2)).unary context ⟨before, name :: after⟩ =
      .ok (operand name).node ⟨name :: before, after⟩ := by
  have hround : Term.linkRound (grammar (level + 1)) name (operand name).node context
      ⟨name :: before, after⟩ = .ok ((operand name).node, false) ⟨name :: before, after⟩ :=
    bind_of_ok (h.link_eq _ _ _)
  have hleft : (grammar (level + 1)).leftHandSide context ⟨before, name :: after⟩ =
      .ok (operand name).node ⟨name :: before, after⟩ := by
    unfold Grammar.leftHandSide
    rw [bind_of_ok (current_of_cons rfl), bind_of_ok (operand_eq hname), Term.chain_eq,
      grammar_rounds]
    exact (Loops.refl _ _).iterate_of_stop hround (Nat.zero_lt_succ _)
  change (grammar (level + 1)).unaryStep context _ = _
  unfold Grammar.unaryStep
  rw [bind_of_ok (current_of_cons rfl), hname]
  change (grammar (level + 1)).incremented context _ = _
  unfold Grammar.incremented
  rw [bind_of_ok (current_of_cons rfl), bind_of_ok hleft, bind_of_ok h.atMarks_eq]
  rfl

/-- The links behind an operand, in front of the end of input. -/
structure Linked (context : ParseContext) (links : List (Token × Token)) : Prop where
  infixes : ∀ link ∈ links, link.1.IsInfix
  names : ∀ link ∈ links, link.2.kind = .identifier
  final_kind : context.final.kind = .eof
  noIn : context.noIn = false

namespace Linked

variable {links : List (Token × Token)} {link : Token × Token}

theorem tail (h : Linked context (link :: links)) : Linked context links where
  infixes other hother := h.infixes other (List.mem_cons_of_mem _ hother)
  names other hother := h.names other (List.mem_cons_of_mem _ hother)
  final_kind := h.final_kind
  noIn := h.noIn

theorem atLink (h : Linked context links) (before : List Token) :
    AtLink context ⟨before, linkTokens links⟩ := by
  cases links with
  | nil => exact .inr h.final_kind
  | cons link links => exact .inl (h.infixes link (by simp)).1

/-- What does not bind strongly enough is left unread, and so is the end of input. -/
theorem binaryLink_eq_none (h : Linked context links) {least : Nat}
    (hstop : ∀ link ∈ links.head?, link.1.strength < least) (g : Grammar) (start : Token)
    (left : Node) (before : List Token) :
    g.binaryLink least start left context ⟨before, linkTokens links⟩ =
      .ok none ⟨before, linkTokens links⟩ := by
  unfold Grammar.binaryLink
  cases links with
  | nil =>
    rw [bind_of_ok current_eq]
    change (if (Grammar.precedence context.final.kind == 0 || _) = true then _ else _ : Parse _)
      context _ = _
    rw [h.final_kind]
    rfl
  | cons link links =>
    have hlt : Grammar.precedence link.1.kind < least := hstop link rfl
    rw [bind_of_ok (current_of_cons rfl)]
    simp only [hlt, decide_true, Bool.or_true, if_true]
    rfl

theorem binaryLink_eq (h : Linked context (link :: links)) {g : Grammar} {least : Nat}
    {start last : Token} {left right : Node} {before behind rest : List Token}
    (hleast : least ≤ link.1.strength)
    (hright : g.binary (rightLeast link.1) context ⟨link.1 :: before, link.2 :: linkTokens links⟩ =
      .ok right ⟨last :: behind, rest⟩) :
    g.binaryLink least start left context ⟨before, linkTokens (link :: links)⟩ =
      .ok (some (.plain ⟨start.start, last.stopPosition⟩ (.binary link.1.value left right)))
        ⟨last :: behind, rest⟩ := by
  obtain ⟨hpos, has, hsatisfies⟩ := h.infixes link (by simp)
  have hlow : (link.1.strength == 0 || decide (link.1.strength < least)) = false := by
    simp; omega
  have hin : (link.1.kind == .word .in_ && false) = false := Bool.and_false _
  have hcast : (link.1.kind == .word .as || link.1.kind == .word .satisfies) = false := by
    simp [has, hsatisfies]
  rw [linkTokens_cons]
  unfold Grammar.binaryLink
  rw [bind_of_ok (current_of_cons rfl)]
  unfold Token.strength at hlow
  simp only [hlow, Bool.false_eq_true, if_false]
  rw [bind_of_ok (show Parse.context context _ = .ok context _ from rfl), h.noIn, hin]
  simp only [hcast, Bool.false_eq_true, if_false]
  have hleast : (if (link.1.kind == .mark .power) = true then Grammar.precedence link.1.kind
      else Grammar.precedence link.1.kind + 1) = rightLeast link.1 := by
    simp only [beq_iff_eq]
    rfl
  rw [bind_of_ok (advance_of_cons rfl), hleast, bind_of_ok hright]
  rfl

end Linked

/-- What climbing makes of the links behind a grouping. -/
structure Climbs (action : Parse Node) (context : ParseContext) (least : Nat) (left : Grouping)
    (links : List (Token × Token)) (before : List Token) (tree : Grouping)
    (unread : List (Token × Token)) : Prop where
  grouped : tree.Grouped
  binds : tree.Binds least
  first_eq : tree.first = left.first
  links_eq : left.links ++ links = tree.links ++ unread
  stops : ∀ link ∈ unread.head?, link.1.strength < least
  run : action context ⟨left.tokens.reverse ++ before, linkTokens links⟩ =
    .ok tree.node ⟨tree.tokens.reverse ++ before, linkTokens unread⟩

/-- Every grouping is followed by what it ends with. -/
theorem reverse_tokens (tree : Grouping) (before : List Token) :
    ∃ behind, tree.tokens.reverse ++ before = tree.last :: behind := by
  obtain ⟨front, hfront⟩ := List.getLast?_eq_some_iff.mp tree.getLast?_tokens
  exact ⟨front.reverse ++ before, by simp [hfront]⟩

/-- An operand is read, and then what climbing makes of the links behind it. -/
theorem Climbs.binary_eq {name : Token} {links unread : List (Token × Token)} {least : Nat}
    {before : List Token} {tree : Grouping} (hname : name.kind = .identifier)
    (hlinks : Linked context links)
    (h : Climbs (iterate (Term.binaryRound (grammar (level + 2)) least name) (level + 2)
      (operand name).node) context least (operand name) links before tree unread) :
    (grammar (level + 3)).binary least context ⟨before, lineOf name links⟩ =
      .ok tree.node ⟨tree.tokens.reverse ++ before, linkTokens unread⟩ := by
  unfold lineOf
  change (grammar (level + 2)).binaryStep least context _ = _
  rw [Term.binaryStep_eq, bind_of_ok (current_of_cons rfl),
    bind_of_ok (unary_eq hname (hlinks.atLink _)), grammar_rounds]
  exact h.run

/-- Climbing goes on as long as the operators bind strongly enough, and groups what it passes. -/
theorem exists_climbs {level rounds least : Nat} {left : Grouping} {links : List (Token × Token)}
    (before : List Token) (hlinks : Linked context links) (hlevel : links.length + 2 ≤ level)
    (hrounds : links.length < rounds) (hgrouped : left.Grouped) (hbinds : left.Binds least)
    (hnext : ∀ link ∈ links.head?, left.Binds (leftLeast link.1)) :
    ∃ tree unread, Climbs
      (iterate (Term.binaryRound (grammar level) least left.first) rounds left.node)
        context least left links before tree unread ∧
      unread.length ≤ links.length ∧ Linked context unread := by
  induction hcount : links.length using Nat.strongRecOn
    generalizing level rounds least left links before with
  | _ count ih
  obtain ⟨rounds, rfl⟩ : ∃ n, rounds = n + 1 := ⟨rounds - 1, by omega⟩
  by_cases hstop : ∀ link ∈ links.head?, link.1.strength < least
  · refine ⟨left, links, ⟨hgrouped, hbinds, rfl, rfl, hstop, ?_⟩, Nat.le_of_eq hcount, hlinks⟩
    rw [iterate, Term.binaryRound,
      bind_of_ok (bind_of_ok (hlinks.binaryLink_eq_none hstop _ _ _ _))]
    rfl
  · obtain ⟨link, links, rfl⟩ : ∃ link rest, links = link :: rest := by
      cases links with
      | nil => simp at hstop
      | cons link rest => exact ⟨link, rest, rfl⟩
    have hleast : least ≤ link.1.strength := by simpa using hstop
    rw [List.length_cons] at hlevel hrounds hcount
    obtain ⟨level, rfl⟩ : ∃ n, level = n + 3 := ⟨level - 3, by omega⟩
    -- The right side is climbed on the level below, as far as its operators bind more strongly.
    obtain ⟨right, unread, hright, hlength, hover⟩ :=
      @ih links.length (by omega) (level + 2) (level + 2) (rightLeast link.1) (operand link.2)
        links (link.1 :: (left.tokens.reverse ++ before)) hlinks.tail (by omega) (by omega) trivial
        (binds_operand _ _) (fun _ _ ↦ binds_operand _ _) rfl
    have hbinary := Climbs.binary_eq (hlinks.names link (by simp)) hlinks.tail hright
    obtain ⟨behind, hbehind⟩ := right.reverse_tokens (link.1 :: (left.tokens.reverse ++ before))
    have hround : Term.binaryRound (grammar (level + 3)) least left.first left.node context
        ⟨left.tokens.reverse ++ before, linkTokens (link :: links)⟩ =
          .ok ((operation left link.1 right).node, true)
            ⟨(operation left link.1 right).tokens.reverse ++ before, linkTokens unread⟩ := by
      have hpassed : (operation left link.1 right).tokens.reverse ++ before =
          right.last :: behind := by
        rw [← hbehind]
        simp [tokens]
      rw [hbehind] at hbinary
      rw [Term.binaryRound, bind_of_ok (hlinks.binaryLink_eq hleast hbinary), hpassed]
      rfl
    -- What is left unread may stand behind the operation as a whole.
    have hgrouped' : (operation left link.1 right).Grouped :=
      ⟨hgrouped, hright.grouped, hnext link rfl, hright.binds⟩
    have hbinds' : (operation left link.1 right).Binds least := by
      intro operator hoperator
      obtain rfl : link.1 = operator := Option.some.inj hoperator
      exact hleast
    have hnext' :
        ∀ next ∈ unread.head?, (operation left link.1 right).Binds (leftLeast next.1) := by
      intro next hmem operator hoperator
      obtain rfl : link.1 = operator := Option.some.inj hoperator
      exact leftLeast_le_iff.mpr (hright.stops next hmem)
    obtain ⟨tree, rest, htree, hless, hrest⟩ := ih unread.length (by omega) before hover
      (show unread.length + 2 ≤ level + 3 by omega) (show unread.length < rounds by omega) hgrouped'
      hbinds' hnext' rfl
    refine ⟨tree, rest, ⟨htree.grouped, htree.binds, htree.first_eq, ?_, htree.stops, ?_⟩,
      by omega, hrest⟩
    · have hlinks := hright.links_eq
      have hfirst : right.first = link.2 := hright.first_eq
      rw [← htree.links_eq, Grouping.links, hfirst, List.append_assoc, List.cons_append, ← hlinks]
      rfl
    · rw [iterate, bind_of_ok hround]
      exact htree.run

end Climbing

/-! ## The grouping of a line -/

/-- What is read from a line in front of the end of input: its one grouping, with nothing left
unread. A level of the grammar is used up by every operator, and three by an operand. -/
structure IsReading (tree : Grouping) (first : Token) (links : List (Token × Token))
    (final : Token) : Prop where
  tokens_eq : tree.tokens = lineOf first links
  grouped : tree.Grouped
  eq_of_grouped {other : Grouping} (htokens : other.tokens = lineOf first links)
    (hother : other.Grouped) : other = tree
  binary_eq {context : ParseContext} {level : Nat}
    (hfinal : context.final = (Program.splitFinal (lineOf first links ++ [final])).2)
    (hnoIn : context.noIn = false) (hlevel : links.length + 3 ≤ level) :
    (grammar level).binary 1 context
        { after := (Program.splitFinal (lineOf first links ++ [final])).1 } =
      .ok tree.node ⟨(lineOf first links).reverse, []⟩

/-- Climbing from the weakest operators on passes the whole line. -/
theorem exists_climbs_all {context : ParseContext} {first : Token} {links : List (Token × Token)}
    {level : Nat} (hfirst : first.kind = .identifier) (hlinks : Linked context links)
    (hlevel : links.length + 3 ≤ level) :
    ∃ tree : Grouping, tree.tokens = lineOf first links ∧ tree.Grouped ∧
      (grammar level).binary 1 context ⟨[], lineOf first links⟩ =
        .ok tree.node ⟨(lineOf first links).reverse, []⟩ := by
  obtain ⟨level, rfl⟩ : ∃ n, level = n + 3 := ⟨level - 3, by omega⟩
  obtain ⟨tree, unread, htree, -, hover⟩ := exists_climbs [] hlinks
    (show links.length + 2 ≤ level + 2 by omega) (show links.length < level + 2 by omega)
    (show (operand first).Grouped from trivial) (binds_operand 1 _) fun _ _ ↦ binds_operand _ _
  have hnothing : unread = [] := by
    cases unread with
    | nil => rfl
    | cons link unread =>
      have hpos : 0 < link.1.strength := (hover.infixes link (by simp)).1
      have hstops : link.1.strength < 1 := htree.stops link rfl
      omega
  subst hnothing
  have htokens : tree.tokens = lineOf first links := by
    have hlinks : tree.links = links := by simpa [Grouping.links] using htree.links_eq.symm
    have hfirst : tree.first = first := htree.first_eq
    rw [tokens_eq, hlinks, hfirst]
  refine ⟨tree, htokens, htree.grouped, ?_⟩
  rw [Climbs.binary_eq hfirst hlinks htree, htokens, List.append_nil]
  rfl

end Grouping

/-- A line of names with operators between them has one grouping, and it is what is read. -/
theorem exists_grouping_isReading {first final : Token} {links : List (Token × Token)}
    (hfirst : first.kind = .identifier) (hinfixes : ∀ link ∈ links, link.1.IsInfix)
    (hnames : ∀ link ∈ links, link.2.kind = .identifier) (hfinal : final.kind = .eof) :
    ∃ tree : Grouping, tree.IsReading first links final := by
  have hsplit : Program.splitFinal (lineOf first links ++ [final]) = (lineOf first links, final) :=
    Program.splitFinal_concat hfinal
  have hlinked (context : ParseContext) (hcontext : context.final = final)
      (hnoIn : context.noIn = false) : Grouping.Linked context links :=
    ⟨hinfixes, hnames, by rw [hcontext, hfinal], hnoIn⟩
  obtain ⟨tree, htokens, hgrouped, -⟩ := Grouping.exists_climbs_all hfirst
    (hlinked { final := final, maxDepth := 0 } rfl rfl) (Nat.le_refl _)
  have hunique {other : Grouping} (hother : other.tokens = lineOf first links)
      (hotherGrouped : other.Grouped) : other = tree :=
    hotherGrouped.unique hgrouped (hother.trans htokens.symm)
  refine ⟨tree, htokens, hgrouped, hunique, ?_⟩
  intro context level hcontext hnoIn hlevel
  rw [hsplit] at hcontext ⊢
  obtain ⟨read, hread, hreadGrouped, hrun⟩ :=
    Grouping.exists_climbs_all hfirst (hlinked context hcontext hnoIn) hlevel
  rw [hunique hread hreadGrouped] at hrun
  exact hrun

theorem exists_grouping_isReading_powers :
    let name : Token := { kind := .identifier, value := bytes "a" }
    let minus : Token := { kind := .mark .minus, value := bytes "-" }
    let power : Token := { kind := .mark .power, value := bytes "**" }
    ∃ tree : Grouping, tree.IsReading name
      [(minus, name), (minus, name), (power, name), (power, name)] { kind := .eof } :=
  exists_grouping_isReading rfl
    (by simp [Token.IsInfix, Token.strength, Grammar.precedence]) (by simp) rfl

end SignalView
