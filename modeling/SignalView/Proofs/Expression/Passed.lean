import SignalView.Proofs.Expression.Parsed
import SignalView.Proofs.Grammar.Outcome
import SignalView.Proofs.Token.Cut

/-!
# Terms from the tokens that were read

The other direction of reading: a node that depicts a plain term was read from the tokens of the
term, and the term fits the grammar. Tokens are compared up to those that cannot end a term, since
the grammar passes over commas at the end of lists and over empty type arguments without leaving a
trace in the tree. No tag is among the tokens that were read.
-/

namespace SignalView

open Parse

/-! ## Tokens that end terms -/

/-- The tokens that can be the last of a term. -/
def TokenKind.endsTerm : TokenKind → Bool
  | .identifier | .number | .bigint | .string | .mark .closeParen | .mark .closeBracket => true
  | _ => false

def endings (signs : List Sign) : List Sign := signs.filter (·.kind.endsTerm)

@[simp]
theorem endings_nil : endings [] = [] := rfl

@[simp]
theorem endings_append (first second : List Sign) :
    endings (first ++ second) = endings first ++ endings second := List.filter_append _ _

@[simp]
theorem endings_prefixOp (op : PrefixOp) : endings [op.sign] = [] := by cases op <;> rfl

@[simp]
theorem endings_infixOp (op : InfixOp) : endings [op.sign] = [] := by cases op <;> rfl

theorem Term.endings_listSigns (ts : List Term) :
    endings (listSigns ts) = ts.flatMap fun t ↦ endings t.signs := by
  induction ts with
  | nil => rfl
  | cons t ts ih =>
    have hgap : endings (gapSigns t ts) = [] := by
      unfold gapSigns
      split <;> rfl
    rw [listSigns, endings_append, endings_append, hgap, ih, List.append_nil, List.flatMap_cons]

/-- Marks and words have the values that they are spelled with, and no word stands behind a dot. -/
structure Spelled (tokens : List Token) : Prop where
  mark : ∀ token ∈ tokens, ∀ m, token.kind = .mark m → token.value = bytes m.text
  word : ∀ token ∈ tokens, ∀ w, token.kind = .word w → token.value = bytes w.spelling
  behindDot : ∀ before dot name after, tokens = before ++ dot :: name :: after →
    dot.kind = .mark .dot → name.kind.isWord = false

theorem Spelled.of_append {front back : List Token} (h : Spelled (front ++ back)) :
    Spelled back where
  mark token hmem := h.mark token (List.mem_append_right front hmem)
  word token hmem := h.word token (List.mem_append_right front hmem)
  behindDot before dot name after heq :=
    h.behindDot (front ++ before) dot name after (by rw [heq, List.append_assoc])

/-! ## Passing tokens -/

/-- From one place to another some tokens were passed. -/
def Passes (start behind : TokenCursor) (signs : List Sign) : Prop :=
  ∃ tokens, start.after = tokens ++ behind.after ∧ (∀ token ∈ tokens, token.kind ≠ .mark .tagOpen) ∧
    endings (tokens.map Token.sign) = endings signs

namespace Passes

variable {start middle behind : TokenCursor} {signs more : List Sign}

theorem refl (cursor : TokenCursor) : Passes cursor cursor [] := ⟨[], rfl, by simp, rfl⟩

theorem trans (h : Passes start middle signs) (hmore : Passes middle behind more) :
    Passes start behind (signs ++ more) := by
  obtain ⟨first, hfirst, hfirstKinds, hfirstSigns⟩ := h
  obtain ⟨second, hsecond, hsecondKinds, hsecondSigns⟩ := hmore
  refine ⟨first ++ second, by rw [hfirst, hsecond, List.append_assoc], ?_, ?_⟩
  · intro token hmem
    exact (List.mem_append.mp hmem).elim (hfirstKinds token) (hsecondKinds token)
  · rw [List.map_append, endings_append, endings_append, hfirstSigns, hsecondSigns]

theorem congr (h : Passes start behind signs) (heq : endings signs = endings more) :
    Passes start behind more := by
  obtain ⟨tokens, htokens, hkinds, hsigns⟩ := h
  exact ⟨tokens, htokens, hkinds, hsigns.trans heq⟩

theorem spelled (h : Passes start behind signs) (hspelled : Spelled start.after) :
    Spelled behind.after := by
  obtain ⟨tokens, htokens, -, -⟩ := h
  rw [htokens] at hspelled
  exact hspelled.of_append

theorem of_cons {cursor : TokenCursor} {token : Token} {after : List Token}
    (h : cursor.after = token :: after) (hkind : token.kind ≠ .mark .tagOpen) :
    Passes cursor ⟨token :: cursor.before, after⟩ [token.sign] :=
  ⟨[token], h, by simpa using hkind, rfl⟩

end Passes

namespace Parse

variable {context : ParseContext} {cursor cursor' : TokenCursor}

theorem passes_of_mark {m : Mark} {token : Token} {after : List Token}
    (hspelled : Spelled cursor.after) (hafter : cursor.after = token :: after)
    (hkind : token.kind = .mark m) (hm : m ≠ .tagOpen) :
    Passes cursor ⟨token :: cursor.before, after⟩ [m.sign] := by
  have hvalue : token.value = bytes m.text := hspelled.mark token (by simp [hafter]) m hkind
  have hsign : token.sign = m.sign := by rw [Token.sign, hkind, hvalue, Mark.sign]
  rw [← hsign]
  exact .of_cons hafter (by rw [hkind]; simpa using hm)

theorem acceptMark_passes {m : Mark} {accepted : Bool} (hfinal : context.final.kind = .eof)
    (hspelled : Spelled cursor.after) (h : acceptMark m context cursor = .ok accepted cursor')
    (hm : m ≠ .tagOpen) :
    (accepted = true ∧ Passes cursor cursor' [m.sign]) ∨ (accepted = false ∧ cursor' = cursor) := by
  rcases accept_eq_ok hfinal h nofun with ⟨haccepted, token, after, hafter, hkind, rfl⟩ | hnone
  · exact .inl ⟨haccepted, passes_of_mark hspelled hafter hkind hm⟩
  · exact .inr hnone

theorem expectMark_passes {m : Mark} {message : String} {done : Unit}
    (hfinal : context.final.kind = .eof) (hspelled : Spelled cursor.after)
    (h : expectMark m message context cursor = .ok done cursor') (hm : m ≠ .tagOpen) :
    Passes cursor cursor' [m.sign] := by
  obtain ⟨token, middle, hexpect, hrun⟩ := bind_eq_ok h
  cases hrun
  obtain ⟨hkind, after, hafter, rfl⟩ := expect_eq_ok hfinal hexpect nofun
  exact passes_of_mark hspelled hafter hkind hm

/-- The token that decides on what is read next is passed. -/
theorem advance_passes {token : Token} {done : Unit} (hfinal : context.final.kind = .eof)
    (htoken : cursor.after.head?.getD context.final = token) (heof : token.kind ≠ .eof)
    (htag : token.kind ≠ .mark .tagOpen) (h : advance context cursor = .ok done cursor') :
    Passes cursor cursor' [token.sign] := by
  obtain ⟨after, hafter⟩ := exists_cons hfinal htoken heof
  rw [advance_of_cons hafter] at h
  cases h
  exact .of_cons hafter htag

end Parse

namespace Term

/-! ## Nodes that depict no plain term -/

/-- Whether a node has the form of a term. -/
def isForm : Node → Bool
  | .plain _ (.identifier _) | .plain _ (.number _ _) | .plain _ (.string _) | .plain _ (.paren _)
  | .plain _ (.array _) | .plain _ (.unary _ _ true) | .plain _ (.binary _ _ _)
  | .plain _ (.conditional _ _ _) | .plain _ (.call _ _ _ false) | .plain _ (.member _ _ false)
  | .plain _ (.spread _) | .plain _ .omitted => true
  | _ => false

theorem Depicts.isForm {t : Term} {node : Node} (h : t.Depicts node) : isForm node = true := by
  cases t with
  | name _ | number _ _ | string _ | hole =>
    obtain ⟨range, rfl⟩ := h
    rfl
  | paren _ | array _ | unary _ _ | member _ _ | spread _ =>
    obtain ⟨range, part, rfl, -⟩ := h
    rfl
  | binary _ _ _ | call _ _ | index _ _ =>
    obtain ⟨range, first, second, rfl, -⟩ := h
    rfl
  | conditional _ _ _ =>
    obtain ⟨range, first, second, third, rfl, -⟩ := h
    rfl

/-- The node depicts no plain term. -/
def Foreign (node : Node) : Prop := ∀ t : Term, t.Depicts node → ¬ t.HasPlainNames

theorem foreign_of_isForm {node : Node} (h : isForm node = false) : Foreign node :=
  fun _ hdepicts ↦ absurd hdepicts.isForm (by simp [h])

theorem foreign_of_word {range : Range} {name : Bytes} {w : Word}
    (h : Word.ofSpelling? name = some w) : Foreign (.plain range (.identifier name)) := by
  intro t hdepicts hplain
  cases t with
  | name spelling =>
    obtain ⟨_, hnode⟩ := hdepicts
    cases hnode
    exact absurd (h.symm.trans hplain.1) nofun
  | _ => exact absurd hdepicts (by simp [Depicts])

/-! ## Actions that trace terms -/

/-- Plain terms that an action gives are read from their tokens, and fit a part of the grammar. -/
def Traces (rank : Rank) (action : Parse Node) : Prop :=
  ∀ ⦃context cursor node cursor'⦄, context.final.kind = .eof → Spelled cursor.after →
    action context cursor = .ok node cursor' → ∀ ⦃t : Term⦄, t.Depicts node → t.HasPlainNames →
    Passes cursor cursor' t.signs ∧ Fits rank t

/-- The kinds of tokens that do not go on with operators that bind at least so strongly. -/
def Stops (least : Nat) (noIn : Bool) (kind : TokenKind) : Prop :=
  Grammar.precedence kind = 0 ∨ Grammar.precedence kind < least ∨
    (kind = .word .in_ ∧ noIn = true) ∨ kind = .word .as ∨ kind = .word .satisfies

/-- Beyond its tokens, a chain of operators goes as far as it can. -/
def TracesBinary (least : Nat) (action : Parse Node) : Prop :=
  ∀ ⦃context cursor node cursor'⦄, context.final.kind = .eof → Spelled cursor.after →
    action context cursor = .ok node cursor' → ∀ ⦃t : Term⦄, t.Depicts node → t.HasPlainNames →
    Passes cursor cursor' t.signs ∧ Fits (.binary least) t ∧
      Stops least context.noIn (headKind cursor'.signs)

/-- All entry points that can give terms trace them. -/
structure Tracing (g : Grammar) : Prop where
  assignment : Traces .assignment g.assignment
  binary : ∀ least, TracesBinary least (g.binary least)
  unary : Traces .unary g.unary
  primary : Traces .operand g.primary
  construction : g.construction.Gets Foreign
  element : g.element.Gets Foreign

theorem Traces.of_gets {rank : Rank} {action : Parse Node} (h : action.Gets Foreign) :
    Traces rank action :=
  fun _ _ _ _ _ _ hrun t hdepicts hplain ↦ absurd hplain (h.of_ok hrun t hdepicts)

theorem gets_foreign {action : Parse Node} (h : action.Gets (isForm · = false)) :
    action.Gets Foreign := h.mono fun _ ↦ foreign_of_isForm

variable {g : Grammar} {context : ParseContext} {cursor cursor' : TokenCursor} {node : Node}
  {t : Term}

theorem Traces.allowingIn {rank : Rank} {action : Parse Node} (h : Traces rank action) :
    Traces rank (allowingIn action) := by
  intro context cursor node cursor' hfinal hspelled hrun
  refine h ?_ hspelled (show action { context with noIn := false } cursor = _ from hrun)
  exact hfinal

theorem expression_traces (hg : Tracing g) : Traces .assignment g.expression := by
  intro context cursor node cursor' hfinal hspelled hrun t hdepicts hplain
  rw [Grammar.expression, bind_of_ok current_eq] at hrun
  obtain ⟨first, middle, hfirst, hrun⟩ := bind_eq_ok hrun
  rw [bind_of_ok (atMark_eq _ hfinal)] at hrun
  split at hrun
  · -- A sequence is no term.
    obtain ⟨rest, last, -, hrun⟩ := bind_eq_ok hrun
    cases hrun
    exact absurd hdepicts.isForm nofun
  · cases hrun
    exact hg.assignment hfinal hspelled hfirst hdepicts hplain

/-! ## Lists -/

theorem depictAll_concat {ts : List Term} {nodes : List Node}
    (h : DepictAll ts (nodes ++ [node])) :
    ∃ front last, ts = front ++ [last] ∧ DepictAll front nodes ∧ last.Depicts node := by
  induction nodes generalizing ts with
  | nil =>
    cases ts with
    | nil => exact absurd h nofun
    | cons t ts =>
      obtain ⟨first, others, hnodes, hfirst, hothers⟩ := h
      cases hnodes
      cases ts with
      | nil => exact ⟨[], t, rfl, rfl, hfirst⟩
      | cons _ _ => simp [DepictAll] at hothers
  | cons part nodes ih =>
    cases ts with
    | nil => exact absurd h nofun
    | cons t ts =>
      obtain ⟨first, others, hnodes, hfirst, hothers⟩ := h
      cases hnodes
      obtain ⟨front, last, rfl, hfront, hlast⟩ := ih hothers
      exact ⟨t :: front, last, rfl, ⟨_, nodes, rfl, hfirst, hfront⟩, hlast⟩

/-- The items of a list trace terms. -/
def TracesItem (rank : Rank) (item : Parse (Node × Bool)) : Prop :=
  ∀ ⦃context cursor result cursor'⦄, context.final.kind = .eof → Spelled cursor.after →
    item context cursor = .ok result cursor' → ∀ ⦃t : Term⦄, t.Depicts result.1 → t.HasPlainNames →
    Passes cursor cursor' t.signs ∧ Fits rank t

/-- The items that have been read so far depict only terms that were passed. -/
def ListTraces (rank : Rank) (start : TokenCursor) (items : List Node) (cursor : TokenCursor) :
    Prop :=
  ∀ ⦃ts⦄, DepictAll ts items → HavePlainNames ts →
    Passes start cursor (listSigns ts) ∧ ∀ t ∈ ts, Fits rank t

theorem listRound_traces {rank : Rank} {m : Mark} {item : Parse (Node × Bool)}
    {start : TokenCursor} {items next : List Node} {more : Bool} (hitem : TracesItem rank item)
    (hfinal : context.final.kind = .eof) (hspelled : Spelled start.after)
    (hitems : ListTraces rank start items cursor)
    (h : listRound (beforeMark m) item items context cursor = .ok (next, more) cursor') :
    ListTraces rank start next cursor' := by
  obtain ⟨_ | _, middle, hbefore, hrun⟩ := bind_eq_ok h
  · cases hrun
    rwa [before_eq_ok hbefore]
  obtain rfl := before_eq_ok hbefore
  obtain ⟨⟨node, needsComma⟩, behind, hnode, hrun⟩ := bind_eq_ok hrun
  -- The terms behind the item itself, in front of the comma.
  have hbehind : ListTraces rank start (items ++ [node]) behind := by
    intro ts hdepicts hplain
    obtain ⟨front, last, rfl, hfront, hlast⟩ := depictAll_concat hdepicts
    rw [havePlainNames_iff] at hplain
    obtain ⟨hpasses, hfits⟩ :=
      hitems hfront (havePlainNames_iff.mpr fun t hmem ↦ hplain t (by simp [hmem]))
    obtain ⟨hpassesLast, hfitsLast⟩ :=
      hitem hfinal (hpasses.spelled hspelled) hnode hlast (hplain last (by simp))
    refine ⟨(hpasses.trans hpassesLast).congr ?_, ?_⟩
    · simp [endings_listSigns]
    · intro t hmem
      rcases List.mem_append.mp hmem with hmem | hmem
      · exact hfits t hmem
      · rwa [List.mem_singleton.mp hmem]
  cases needsComma with
  | false =>
    cases hrun
    exact hbehind
  | true =>
    obtain ⟨accepted, last, haccept, hrun⟩ := bind_eq_ok hrun
    cases hrun
    intro ts hdepicts hplain
    obtain ⟨hpasses, hfits⟩ := hbehind hdepicts hplain
    refine ⟨?_, hfits⟩
    rcases acceptMark_passes hfinal (hpasses.spelled hspelled) haccept nofun with
      ⟨-, hcomma⟩ | ⟨-, rfl⟩
    · exact (hpasses.trans hcomma).congr (by simp [endings, TokenKind.endsTerm])
    · exact hpasses

theorem looseList_traces {rank : Rank} {m : Mark} {item : Parse (Node × Bool)} {rounds : Nat}
    {nodes : List Node} (hitem : TracesItem rank item) (hfinal : context.final.kind = .eof)
    (hspelled : Spelled cursor.after)
    (h : looseList rounds (beforeMark m) item context cursor = .ok nodes cursor') :
    ListTraces rank cursor nodes cursor' := by
  rw [looseList_eq] at h
  have hround : ∀ items next place behind more, ListTraces rank cursor items place →
      listRound (beforeMark m) item items context place = .ok (next, more) behind →
      ListTraces rank cursor next behind :=
    fun _ _ _ _ _ hitems hround ↦ listRound_traces hitem hfinal hspelled hitems hround
  refine iterate_eq_ok (fun _ _ _ _ hitems ↦ hround _ _ _ _ true hitems)
    (fun _ _ _ _ hitems ↦ hround _ _ _ _ false hitems) ?_ h
  intro ts hdepicts _
  cases ts with
  | nil => exact ⟨.refl cursor, by simp⟩
  | cons _ _ => simp [DepictAll] at hdepicts

theorem spreadOr_traces {part : Parse Node} (h : Traces .assignment part) :
    Traces .item (Grammar.spreadOr part part) := by
  intro context cursor node cursor' hfinal hspelled hrun t hdepicts hplain
  rw [Grammar.spreadOr, bind_of_ok current_eq] at hrun
  obtain ⟨_ | _, middle, haccept, hrun⟩ := bind_eq_ok hrun
  · obtain ⟨hpasses, -⟩ | ⟨-, rfl⟩ := acceptMark_passes hfinal hspelled haccept (by rintro ⟨⟩)
    · cases hpasses
    obtain ⟨hpasses, hfits⟩ := h hfinal hspelled hrun hdepicts hplain
    exact ⟨hpasses, .ofAssignment hfits⟩
  · obtain ⟨-, hpasses⟩ | ⟨haccepted, -⟩ := acceptMark_passes hfinal hspelled haccept (by rintro ⟨⟩)
    · obtain ⟨argument, behind, hargument, hrun⟩ := bind_eq_ok hrun
      cases hrun
      cases t with
      | spread inner =>
        obtain ⟨_, _, hnode, hinner⟩ := hdepicts
        cases hnode
        obtain ⟨hpassesInner, hfits⟩ :=
          h hfinal (hpasses.spelled hspelled) hargument hinner hplain
        exact ⟨hpasses.trans hpassesInner, .spread hfits⟩
      | _ => simp [Depicts] at hdepicts
    · cases haccepted

theorem commaItem_traces {rank : Rank} {item : Parse Node} (h : Traces rank item) :
    TracesItem rank (do return (← item, true)) := by
  intro context cursor result cursor' hfinal hspelled hrun t hdepicts hplain
  obtain ⟨node, behind, hnode, hrun⟩ := bind_eq_ok hrun
  cases hrun
  exact h hfinal hspelled hnode hdepicts hplain

/-- The arguments of a call with their parentheses. -/
theorem arguments_traces {args : List Node} (hg : Tracing g) (hfinal : context.final.kind = .eof)
    (hspelled : Spelled cursor.after) (h : g.arguments context cursor = .ok args cursor')
    {ts : List Term} (hdepicts : DepictAll ts args) (hplain : HavePlainNames ts) :
    Passes cursor cursor' (Mark.openParen.sign :: listSigns ts ++ [Mark.closeParen.sign]) ∧
      ∀ t ∈ ts, Fits .item t := by
  obtain ⟨_, inside, hopen, h⟩ := bind_eq_ok h
  obtain ⟨nodes, behind, hnodes, h⟩ := bind_eq_ok h
  obtain ⟨_, last, hclose, h⟩ := bind_eq_ok h
  cases h
  have hopen := expectMark_passes hfinal hspelled hopen nofun
  have hinside := hopen.spelled hspelled
  have hlist : ListTraces .item inside args behind := by
    refine looseList_traces (commaItem_traces (spreadOr_traces hg.assignment)) ?_ hinside hnodes
    exact hfinal
  obtain ⟨hpasses, hfits⟩ := hlist hdepicts hplain
  have hclose := expectMark_passes hfinal (hpasses.spelled hinside) hclose nofun
  exact ⟨(hopen.trans hpasses).trans hclose, hfits⟩

theorem elementItem_traces (hg : Tracing g) : TracesItem .element (elementItem g) := by
  intro context cursor result cursor' hfinal hspelled hrun t hdepicts hplain
  rw [elementItem, bind_of_ok current_eq] at hrun
  obtain ⟨_ | _, middle, haccept, hrun⟩ := bind_eq_ok hrun
  · obtain ⟨hpasses, -⟩ | ⟨-, rfl⟩ := acceptMark_passes hfinal hspelled haccept (by rintro ⟨⟩)
    · cases hpasses
    obtain ⟨node, behind, hnode, hrun⟩ := bind_eq_ok hrun
    cases hrun
    obtain ⟨hpasses, hfits⟩ :=
      spreadOr_traces hg.assignment hfinal hspelled hnode hdepicts hplain
    exact ⟨hpasses, .ofItem hfits⟩
  · obtain ⟨-, hpasses⟩ | ⟨haccepted, -⟩ := acceptMark_passes hfinal hspelled haccept (by rintro ⟨⟩)
    · cases hrun
      cases t with
      | hole => exact ⟨hpasses.congr rfl, .hole⟩
      | _ => simp [Depicts] at hdepicts
    · cases haccepted

theorem arrayLiteral_traces (hg : Tracing g) : Traces .operand g.arrayLiteral := by
  intro context cursor node cursor' hfinal hspelled hrun t hdepicts hplain
  rw [Grammar.arrayLiteral, bind_of_ok current_eq] at hrun
  obtain ⟨_, inside, hopen, hrun⟩ := bind_eq_ok hrun
  obtain ⟨elements, behind, helements, hrun⟩ := bind_eq_ok hrun
  obtain ⟨_, last, hclose, hrun⟩ := bind_eq_ok hrun
  cases hrun
  cases t with
  | array ts =>
    obtain ⟨_, _, hnode, hts⟩ := hdepicts
    cases hnode
    have hopen := expectMark_passes hfinal hspelled hopen (by rintro ⟨⟩)
    have hinside := hopen.spelled hspelled
    have hlist : ListTraces .element inside elements behind := by
      refine looseList_traces (elementItem_traces hg) ?_ hinside helements
      exact hfinal
    obtain ⟨hpasses, hfits⟩ := hlist hts hplain
    have hclose := expectMark_passes hfinal (hpasses.spelled hinside) hclose (by rintro ⟨⟩)
    exact ⟨(hopen.trans hpasses).trans hclose, .array hfits⟩
  | _ => simp [Depicts] at hdepicts

theorem parenthesized_traces (hg : Tracing g) {token : Token}
    (hfinal : context.final.kind = .eof) (hspelled : Spelled cursor.after)
    (htoken : cursor.after.head?.getD context.final = token)
    (hkind : token.kind = .mark .openParen)
    (h : g.parenthesized context cursor = .ok node cursor') (hdepicts : t.Depicts node)
    (hplain : t.HasPlainNames) : Passes cursor cursor' t.signs ∧ Fits .operand t := by
  rw [Grammar.parenthesized, bind_of_ok current_eq] at h
  obtain ⟨_, inside, hadvance, h⟩ := bind_eq_ok h
  obtain ⟨inner, behind, hinner, h⟩ := bind_eq_ok h
  obtain ⟨_, last, hclose, h⟩ := bind_eq_ok h
  cases h
  cases t with
  | paren part =>
    obtain ⟨_, _, hnode, hpart⟩ := hdepicts
    cases hnode
    obtain ⟨after, hafter⟩ := exists_cons hfinal htoken (by simp [hkind])
    rw [advance_of_cons hafter] at hadvance
    cases hadvance
    have hopen := passes_of_mark hspelled hafter hkind (by rintro ⟨⟩)
    have hinside := hopen.spelled hspelled
    obtain ⟨hpasses, hfits⟩ :=
      (expression_traces hg).allowingIn hfinal hinside hinner hpart hplain
    have hclose := expectMark_passes hfinal (hpasses.spelled hinside) hclose (by rintro ⟨⟩)
    exact ⟨(hopen.trans hpasses).trans hclose, .paren hfits⟩
  | _ => simp [Depicts] at hdepicts

/-! ## Primary expressions -/

/-- A one-token expression. -/
theorem leaf_eq_ok {token : Token} {form : Plain Node} (hfinal : context.final.kind = .eof)
    (htoken : cursor.after.head?.getD context.final = token)
    (h : Grammar.leaf token form context cursor = .ok node cursor') (heof : token.kind ≠ .eof)
    (htag : token.kind ≠ .mark .tagOpen) :
    (∃ range, node = .plain range form) ∧ Passes cursor cursor' [token.sign] := by
  obtain ⟨_, behind, hadvance, h⟩ := bind_eq_ok h
  cases h
  exact ⟨⟨_, rfl⟩, advance_passes hfinal htoken heof htag hadvance⟩

theorem templateLiteral_gets (g : Grammar) : g.templateLiteral.Gets Foreign := by
  apply gets_foreign
  refine .last fun start ↦ .last fun whole ↦ .ite (.node fun range ↦ rfl) ?_
  exact .last fun head ↦ .last fun parts ↦ .node fun range ↦ rfl

theorem objectLiteral_gets (g : Grammar) : g.objectLiteral.Gets Foreign := by
  apply gets_foreign
  exact .last fun start ↦ .last fun _ ↦ .last fun properties ↦ .last fun _ ↦
    .node fun range ↦ rfl

theorem functionExpression_gets (g : Grammar) : g.functionExpression.Gets Foreign := by
  apply gets_foreign
  exact .last fun start ↦ .last fun isAsync ↦ .last fun _ ↦ .last fun isGenerator ↦
    .last fun name ↦ .last fun f ↦ .node fun range ↦ rfl

theorem classExpression_gets (g : Grammar) : g.classExpression.Gets Foreign := by
  apply gets_foreign
  exact .last fun start ↦ .last fun decorators ↦ .last fun declaration ↦ .surface fun range ↦ rfl

/-- A leaf that stands for a form that is no term. -/
theorem leaf_gets {token : Token} {form : Plain Node}
    (h : ∀ range, isForm (.plain range form) = false) :
    (Grammar.leaf token form).Gets Foreign :=
  gets_foreign (.last fun _ ↦ .node h)

/-- A name is a plain term only when it is no word. -/
theorem nameExpression_traces {token : Token} (hfinal : context.final.kind = .eof)
    (hspelled : Spelled cursor.after) (htoken : cursor.after.head?.getD context.final = token)
    (h : Grammar.nameExpression token context cursor = .ok node cursor') (hdepicts : t.Depicts node)
    (hplain : t.HasPlainNames) : Passes cursor cursor' t.signs ∧ Fits .operand t := by
  unfold Grammar.nameExpression at h
  split at h
  · next hname =>
    have heof : token.kind ≠ .eof := by
      rintro heof
      rw [heof] at hname
      cases hname
    have htag : token.kind ≠ .mark .tagOpen := by
      rintro htag
      rw [htag] at hname
      cases hname
    obtain ⟨⟨range, rfl⟩, hpasses⟩ := leaf_eq_ok hfinal htoken h heof htag
    have hidentifier : token.kind = .identifier := by
      cases hkind : token.kind with
      | identifier => rfl
      | word w =>
        obtain ⟨after, hafter⟩ := exists_cons hfinal htoken heof
        have hvalue := hspelled.word token (by simp [hafter]) w hkind
        have hword : Word.ofSpelling? token.value = some w := by
          rw [hvalue, Lexes.ofSpelling?_spelling]
        exact absurd hplain (foreign_of_word hword t hdepicts)
      | _ =>
        rw [hkind] at hname
        cases hname
    cases t with
    | name spelling =>
      obtain ⟨_, hnode⟩ := hdepicts
      cases hnode
      refine ⟨?_, .name _⟩
      rw [signs, ← hidentifier]
      exact hpasses
    | _ => simp [Depicts] at hdepicts
  · exact absurd h (by
      intro h
      obtain ⟨_, _, -, h⟩ := bind_eq_ok h
      cases h)

theorem primaryStep_traces (hg : Tracing g) : Traces .operand g.primaryStep := by
  intro context cursor node cursor' hfinal hspelled hrun t hdepicts hplain
  rw [Grammar.primaryStep, bind_of_ok current_eq] at hrun
  have foreign : ∀ {action : Parse Node}, action.Gets Foreign →
      action context cursor = .ok node cursor' → Passes cursor cursor' t.signs ∧ Fits .operand t :=
    fun hgets hrun ↦ absurd hplain (hgets.of_ok hrun t hdepicts)
  generalize htoken : cursor.after.head?.getD context.final = token at hrun
  generalize hkind : token.kind = kind at hrun
  split at hrun
  · obtain ⟨⟨range, rfl⟩, hpasses⟩ :=
      leaf_eq_ok hfinal htoken hrun (by simp [hkind]) (by simp [hkind])
    cases t with
    | number raw isBigint =>
      obtain ⟨_, hnode⟩ := hdepicts
      cases hnode
      exact ⟨by rw [signs, if_neg Bool.false_ne_true, ← hkind]; exact hpasses, .number _ _⟩
    | _ => simp [Depicts] at hdepicts
  · obtain ⟨⟨range, rfl⟩, hpasses⟩ :=
      leaf_eq_ok hfinal htoken hrun (by simp [hkind]) (by simp [hkind])
    cases t with
    | number raw isBigint =>
      obtain ⟨_, hnode⟩ := hdepicts
      cases hnode
      exact ⟨by rw [signs, if_pos rfl, ← hkind]; exact hpasses, .number _ _⟩
    | _ => simp [Depicts] at hdepicts
  · obtain ⟨⟨range, rfl⟩, hpasses⟩ :=
      leaf_eq_ok hfinal htoken hrun (by simp [hkind]) (by simp [hkind])
    cases t with
    | string value =>
      obtain ⟨_, hnode⟩ := hdepicts
      cases hnode
      exact ⟨by rw [signs, ← hkind]; exact hpasses, .string _⟩
    | _ => simp [Depicts] at hdepicts
  · exact foreign (templateLiteral_gets g) hrun
  · exact foreign (templateLiteral_gets g) hrun
  · exact foreign (leaf_gets fun _ ↦ rfl) hrun
  · exact foreign (leaf_gets fun _ ↦ rfl) hrun
  · exact foreign (leaf_gets fun _ ↦ rfl) hrun
  · exact foreign (leaf_gets fun _ ↦ rfl) hrun
  · exact foreign (leaf_gets fun _ ↦ rfl) hrun
  · exact foreign (leaf_gets fun _ ↦ rfl) hrun
  · have himport := Lexes.ofSpelling?_spelling .import_
    exact foreign (.last fun _ ↦ .node fun _ ↦ foreign_of_word himport) hrun
  · exact parenthesized_traces hg hfinal hspelled htoken hkind hrun hdepicts hplain
  · exact arrayLiteral_traces hg hfinal hspelled hrun hdepicts hplain
  · exact foreign (objectLiteral_gets g) hrun
  · exact foreign (functionExpression_gets g) hrun
  · obtain ⟨_, _, hahead, hrun⟩ := bind_eq_ok hrun
    cases hahead
    obtain ⟨_, _, hpeek, hrun⟩ := bind_eq_ok hrun
    cases hpeek
    split at hrun
    · exact foreign (functionExpression_gets g) hrun
    · exact nameExpression_traces hfinal hspelled htoken hrun hdepicts hplain
  · exact foreign (classExpression_gets g) hrun
  · exact foreign (classExpression_gets g) hrun
  · exact foreign hg.element hrun
  · exact nameExpression_traces hfinal hspelled htoken hrun hdepicts hplain

/-! ## Chains -/

theorem constructionStep_gets (g : Grammar) : g.constructionStep.Gets Foreign := by
  refine .last fun start ↦ .last fun _ ↦ .last fun isTarget ↦ .ite ?_ ?_
  · -- The receiver of `new.target` would be a name, but is a word.
    intro context cursor node cursor' _ hrun
    obtain ⟨keyword, middle, hkeyword, hrun⟩ := bind_eq_ok hrun
    cases hkeyword
    obtain ⟨name, behind, hname, hrun⟩ := bind_eq_ok hrun
    cases hrun
    refine ⟨trivial, fun t hdepicts hplain ↦ ?_⟩
    cases t with
    | member receiver key =>
      obtain ⟨_, _, hnode, hreceiver⟩ := hdepicts
      cases hnode
      exact foreign_of_word (Lexes.ofSpelling?_spelling .new) receiver hreceiver hplain
    | _ => simp [Depicts] at hdepicts
  · apply gets_foreign
    refine .last fun calleeStart ↦ .last fun first ↦ .last fun callee ↦ .last fun isGeneric ↦ ?_
    have hrest : ∀ typeArguments, (do
        let args ← optionally (atMark .openParen) g.arguments
        node start (.new callee typeArguments args)).Gets (isForm · = false) :=
      fun _ ↦ .last fun args ↦ .node fun range ↦ rfl
    exact .ite (.last hrest) (.last hrest)

/-- What has been read of a chain so far depicts only terms that were passed. -/
def ChainTraces (start : TokenCursor) (receiver : Node) (cursor : TokenCursor) : Prop :=
  ∀ ⦃t : Term⦄, t.Depicts receiver → t.HasPlainNames → Passes start cursor t.signs ∧ Fits .operand t

theorem memberLink_traces {start : TokenCursor} {receiver next : Node}
    {name : Bytes} {middle : TokenCursor} {dot : Token} (hfinal : context.final.kind = .eof)
    (hspelled : Spelled start.after) (hreceiver : ChainTraces start receiver cursor)
    (hdot : cursor.after.head?.getD context.final = dot) (hkind : dot.kind = .mark .dot)
    (hadvance : advance context cursor = .ok () middle)
    (hname : expectMemberName "PSR-P004" "Expected property name after '.'" context middle =
      .ok name cursor')
    (hnext : ∃ range, next = .plain range (.member receiver (.named name) false)) :
    ChainTraces start next cursor' := by
  obtain ⟨range, rfl⟩ := hnext
  intro t hdepicts hplain
  cases t with
  | member part key =>
    obtain ⟨_, _, hnode, hpart⟩ := hdepicts
    cases hnode
    obtain ⟨hpasses, hfits⟩ := hreceiver hpart hplain
    have hcursor := hpasses.spelled hspelled
    obtain ⟨after, hafter⟩ := exists_cons hfinal hdot (by simp [hkind])
    rw [advance_of_cons hafter] at hadvance
    cases hadvance
    rw [expectMemberName, bind_of_ok current_eq] at hname
    split at hname
    · next hmember =>
      generalize htoken : (TokenCursor.mk _ after).after.head?.getD context.final = token
        at hmember
      obtain ⟨rest, hrest⟩ := exists_cons hfinal htoken (by
        rintro heof
        rw [heof] at hmember
        cases hmember)
      rw [take_of_cons hrest] at hname
      cases hname
      have hidentifier : token.kind = .identifier := by
        have hword := hcursor.behindDot [] dot token rest (by rw [hafter, ← hrest]; rfl) hkind
        simpa [TokenKind.isMemberName, hword] using hmember
      have hpassesDot := passes_of_mark hcursor hafter hkind (by rintro ⟨⟩)
      have hpassesName := Passes.of_cons hrest (by simp [hidentifier])
      refine ⟨((hpasses.trans hpassesDot).trans hpassesName).congr ?_, .member _ hfits⟩
      rw [Token.sign, hidentifier, signs, List.append_assoc]
      rfl
    · obtain ⟨_, _, -, hname⟩ := bind_eq_ok hname
      cases hname
  | _ => simp [Depicts] at hdepicts

theorem indexLink_traces {start inside behind : TokenCursor} {receiver index next : Node}
    {message : String} {bracket : Token} (hg : Tracing g) (hfinal : context.final.kind = .eof)
    (hspelled : Spelled start.after) (hreceiver : ChainTraces start receiver cursor)
    (hbracket : cursor.after.head?.getD context.final = bracket)
    (hkind : bracket.kind = .mark .openBracket)
    (hadvance : advance context cursor = .ok () inside)
    (hindex : allowingIn g.expression context inside = .ok index behind)
    (hclose : expectMark .closeBracket message context behind = .ok () cursor')
    (hnext : ∃ range, next = .plain range (.member receiver (.computed index) false)) :
    ChainTraces start next cursor' := by
  obtain ⟨range, rfl⟩ := hnext
  intro t hdepicts hplain
  cases t with
  | index part key =>
    obtain ⟨_, _, _, hnode, hpart, hkey⟩ := hdepicts
    cases hnode
    obtain ⟨hpasses, hfits⟩ := hreceiver hpart hplain.1
    have hcursor := hpasses.spelled hspelled
    obtain ⟨after, hafter⟩ := exists_cons hfinal hbracket (by simp [hkind])
    rw [advance_of_cons hafter] at hadvance
    cases hadvance
    have hopen := passes_of_mark hcursor hafter hkind nofun
    have hinside := hopen.spelled hcursor
    obtain ⟨hpassesKey, hfitsKey⟩ :=
      (expression_traces hg).allowingIn hfinal hinside hindex hkey hplain.2
    have hclose := expectMark_passes hfinal (hpassesKey.spelled hinside) hclose nofun
    refine ⟨(((hpasses.trans hopen).trans hpassesKey).trans hclose).congr ?_, .index hfits hfitsKey⟩
    simp [signs]
  | _ => simp [Depicts] at hdepicts

theorem callLink_traces {start : TokenCursor} {receiver next : Node} {args : List Node}
    {inside : TokenCursor} (hg : Tracing g) (hfinal : context.final.kind = .eof)
    (hspelled : Spelled start.after) (hreceiver : ChainTraces start receiver cursor)
    (hinside : Spelled cursor.after → ∃ signs, Passes cursor inside signs ∧ endings signs = [])
    (hargs : g.arguments context inside = .ok args cursor')
    (hnext : ∃ range, next = .plain range (.call receiver [] args false)) :
    ChainTraces start next cursor' := by
  obtain ⟨range, rfl⟩ := hnext
  intro t hdepicts hplain
  cases t with
  | call callee ts =>
    obtain ⟨_, _, _, hnode, hcallee, hts⟩ := hdepicts
    cases hnode
    obtain ⟨hpasses, hfits⟩ := hreceiver hcallee hplain.1
    have hcursor := hpasses.spelled hspelled
    obtain ⟨signs, hpassesTypes, hsigns⟩ := hinside hcursor
    obtain ⟨hpassesArgs, hfitsArgs⟩ :=
      arguments_traces hg hfinal (hpassesTypes.spelled hcursor) hargs hts hplain.2
    refine ⟨((hpasses.trans hpassesTypes).trans hpassesArgs).congr ?_, .call hfits hfitsArgs⟩
    simp [Term.signs, hsigns]
  | _ => simp [Depicts] at hdepicts

/-- One of some marks is passed, none of which ends a term. -/
theorem angle_passes {ms : List Mark} {message : String}
    (hms : ∀ m ∈ ms, m ≠ .tagOpen ∧ (TokenKind.mark m).endsTerm = false)
    (hfinal : context.final.kind = .eof)
    (h : (do if ← atMarks ms then advance else fail "PSR-P002" message : Parse Unit) context
      cursor = .ok () cursor') : ∃ signs, Passes cursor cursor' signs ∧ endings signs = [] := by
  obtain ⟨found, middle, hfound, h⟩ := bind_eq_ok h
  obtain ⟨rfl, hkind⟩ := atMarks_eq_ok hfound
  cases found with
  | false =>
    obtain ⟨_, _, -, h⟩ := bind_eq_ok h
    cases h
  | true =>
    obtain ⟨m, hmem, hkind⟩ := hkind rfl
    obtain ⟨htag, hends⟩ := hms m hmem
    refine ⟨_, advance_passes hfinal rfl (by simp [hkind]) (by simpa [hkind] using htag) h, ?_⟩
    simp [endings, Token.sign, hkind, hends]

/-- Type arguments that leave nothing in the tree leave no token that ends a term. -/
theorem typeArguments_passes (hfinal : context.final.kind = .eof)
    (h : g.typeArguments context cursor = .ok [] cursor') :
    ∃ signs, Passes cursor cursor' signs ∧ endings signs = [] := by
  obtain ⟨_, inside, hopen, h⟩ := bind_eq_ok h
  obtain ⟨args, behind, hargs, h⟩ := bind_eq_ok h
  obtain ⟨_, last, hclose, h⟩ := bind_eq_ok h
  cases h
  have hbehind : behind = inside := by
    refine commaList_eq_nil (fun place asked next hasked ↦ ?_) hargs
    obtain ⟨_, _, hfound, hrest⟩ := bind_eq_ok hasked
    obtain ⟨rfl, -⟩ := atMarks_eq_ok hfound
    obtain ⟨_, _, hend, hlast⟩ := bind_eq_ok hrest
    rw [atEnd, at_eq _ hfinal] at hend
    cases hend
    cases hlast
    rfl
  subst hbehind
  obtain ⟨first, hpasses, hfirst⟩ := angle_passes (by decide) hfinal hopen
  obtain ⟨second, hpasses', hsecond⟩ := angle_passes (by decide) hfinal hclose
  exact ⟨first ++ second, hpasses.trans hpasses', by rw [endings_append, hfirst, hsecond]; rfl⟩

theorem chainTraces_of_foreign {start : TokenCursor} (h : isForm node = false) :
    ChainTraces start node cursor :=
  fun t hdepicts hplain ↦ absurd hplain (foreign_of_isForm h t hdepicts)

theorem optionalLink_gets (start : Token) (receiver : Node) :
    (g.optionalLink start receiver).Gets (isForm · = false) := by
  refine .last fun isCall ↦ .ite ?_ (.last fun isComputed ↦ .ite ?_ ?_)
  · exact .last fun args ↦ .node fun range ↦ rfl
  · exact .last fun index ↦ .last fun _ ↦ .node fun range ↦ rfl
  · exact .last fun name ↦ .node fun range ↦ rfl

theorem genericLink_traces {start : TokenCursor} {first : Token} {receiver next : Node}
    (hg : Tracing g) (hfinal : context.final.kind = .eof) (hspelled : Spelled start.after)
    (hreceiver : ChainTraces start receiver cursor)
    (h : g.genericLink first receiver context cursor = .ok (some next) cursor') :
    ChainTraces start next cursor' := by
  obtain ⟨kind, place, hahead, hrun⟩ := bind_eq_ok h
  obtain rfl : place = cursor := by
    cases hahead
    rfl
  split at hrun
  · obtain ⟨typeArguments, inside, htypes, hrun⟩ := bind_eq_ok hrun
    obtain ⟨args, behind, hargs, hrun⟩ := bind_eq_ok hrun
    cases hrun
    cases typeArguments with
    | nil =>
      exact callLink_traces hg hfinal hspelled hreceiver
        (fun _ ↦ typeArguments_passes hfinal htypes) hargs ⟨_, rfl⟩
    | cons _ _ =>
      intro t hdepicts
      cases t <;> simp [Depicts] at hdepicts
  · obtain ⟨typeArguments, inside, -, hrun⟩ := bind_eq_ok hrun
    obtain ⟨quasi, behind, -, hrun⟩ := bind_eq_ok hrun
    cases hrun
    exact chainTraces_of_foreign rfl
  · obtain ⟨typeArguments, inside, -, hrun⟩ := bind_eq_ok hrun
    obtain ⟨quasi, behind, -, hrun⟩ := bind_eq_ok hrun
    cases hrun
    exact chainTraces_of_foreign rfl
  · cases hrun

theorem link_traces {start : TokenCursor} {first : Token} {receiver next : Node} (hg : Tracing g)
    (hfinal : context.final.kind = .eof) (hspelled : Spelled start.after)
    (hreceiver : ChainTraces start receiver cursor)
    (h : g.link first true receiver context cursor = .ok (some next) cursor') :
    ChainTraces start next cursor' := by
  rw [Grammar.link, bind_of_ok current_eq] at h
  generalize htoken : cursor.after.head?.getD context.final = token at h
  generalize hkind : token.kind = kind at h
  split at h
  · obtain ⟨_, middle, hadvance, h⟩ := bind_eq_ok h
    obtain ⟨name, behind, hname, h⟩ := bind_eq_ok h
    cases h
    exact memberLink_traces hfinal hspelled hreceiver htoken hkind hadvance hname ⟨_, rfl⟩
  · obtain ⟨_, middle, -, h⟩ := bind_eq_ok h
    obtain ⟨node, behind, hnode, h⟩ := bind_eq_ok h
    cases h
    exact chainTraces_of_foreign ((optionalLink_gets first receiver).of_ok hnode)
  · obtain ⟨_, inside, hadvance, h⟩ := bind_eq_ok h
    obtain ⟨index, behind, hindex, h⟩ := bind_eq_ok h
    obtain ⟨_, last, hclose, h⟩ := bind_eq_ok h
    cases h
    exact indexLink_traces hg hfinal hspelled hreceiver htoken hkind hadvance hindex hclose
      ⟨_, rfl⟩
  · obtain ⟨args, behind, hargs, h⟩ := bind_eq_ok h
    cases h
    exact callLink_traces hg hfinal hspelled hreceiver (fun _ ↦ ⟨[], .refl _, rfl⟩) hargs ⟨_, rfl⟩
  · exact genericLink_traces hg hfinal hspelled hreceiver h
  · obtain ⟨quasi, behind, -, h⟩ := bind_eq_ok h
    cases h
    exact chainTraces_of_foreign rfl
  · obtain ⟨quasi, behind, -, h⟩ := bind_eq_ok h
    cases h
    exact chainTraces_of_foreign rfl
  · obtain ⟨touches, behind, -, h⟩ := bind_eq_ok h
    split at h
    · obtain ⟨_, last, -, h⟩ := bind_eq_ok h
      cases h
      exact chainTraces_of_foreign rfl
    · cases h
  · cases h

theorem genericLink_eq_ok_none {first : Token} {receiver : Node}
    (h : g.genericLink first receiver context cursor = .ok none cursor') : cursor' = cursor := by
  obtain ⟨kind, place, hahead, hrun⟩ := bind_eq_ok h
  have hplace : place = cursor := by
    cases hahead
    rfl
  split at hrun
  · obtain ⟨_, _, -, hrun⟩ := bind_eq_ok hrun
    obtain ⟨_, _, -, hrun⟩ := bind_eq_ok hrun
    cases hrun
  · obtain ⟨_, _, -, hrun⟩ := bind_eq_ok hrun
    obtain ⟨_, _, -, hrun⟩ := bind_eq_ok hrun
    cases hrun
  · obtain ⟨_, _, -, hrun⟩ := bind_eq_ok hrun
    obtain ⟨_, _, -, hrun⟩ := bind_eq_ok hrun
    cases hrun
  · cases hrun
    exact hplace

/-- A round that finds no link leaves the place as it is. -/
theorem link_eq_ok_none {first : Token} {receiver : Node}
    (h : g.link first true receiver context cursor = .ok none cursor') : cursor' = cursor := by
  rw [Grammar.link, bind_of_ok current_eq] at h
  generalize (cursor.after.head?.getD context.final).kind = kind at h
  split at h
  · obtain ⟨_, _, -, h⟩ := bind_eq_ok h
    obtain ⟨_, _, -, h⟩ := bind_eq_ok h
    cases h
  · obtain ⟨_, _, -, h⟩ := bind_eq_ok h
    obtain ⟨_, _, -, h⟩ := bind_eq_ok h
    cases h
  · obtain ⟨_, _, -, h⟩ := bind_eq_ok h
    obtain ⟨_, _, -, h⟩ := bind_eq_ok h
    obtain ⟨_, _, -, h⟩ := bind_eq_ok h
    cases h
  · obtain ⟨_, _, -, h⟩ := bind_eq_ok h
    cases h
  · exact genericLink_eq_ok_none h
  · obtain ⟨_, _, -, h⟩ := bind_eq_ok h
    cases h
  · obtain ⟨_, _, -, h⟩ := bind_eq_ok h
    cases h
  · obtain ⟨_, _, htouches, h⟩ := bind_eq_ok h
    cases htouches
    split at h
    · obtain ⟨_, _, -, h⟩ := bind_eq_ok h
      cases h
    · cases h
      rfl
  · cases h
    rfl

theorem leftHandSide_traces (hg : Tracing g) : Traces .operand g.leftHandSide := by
  intro context cursor node cursor' hfinal hspelled hrun
  rw [Grammar.leftHandSide, bind_of_ok current_eq] at hrun
  obtain ⟨first, middle, hoperand, hrun⟩ := bind_eq_ok hrun
  rw [chain_eq] at hrun
  refine iterate_eq_ok (P := ChainTraces cursor) (Q := ChainTraces cursor) ?_ ?_ ?_ hrun
  · intro receiver next place behind hreceiver hround
    obtain ⟨_ | found, _, hlink, hround⟩ := bind_eq_ok hround
    · cases hround
    · cases hround
      exact link_traces hg hfinal hspelled hreceiver hlink
  · intro receiver next place behind hreceiver hround
    obtain ⟨_ | found, _, hlink, hround⟩ := bind_eq_ok hround
    · cases hround
      rwa [link_eq_ok_none hlink]
    · cases hround
  · intro t hdepicts hplain
    rw [Grammar.operand, bind_of_ok (atWord_eq _ hfinal)] at hoperand
    split at hoperand
    · exact absurd hplain (hg.construction.of_ok hoperand t hdepicts)
    · exact hg.primary hfinal hspelled hoperand hdepicts hplain

/-! ## Operators -/

theorem incremented_traces (hg : Tracing g) : Traces .operand g.incremented := by
  intro context cursor node cursor' hfinal hspelled hrun t hdepicts hplain
  rw [Grammar.incremented, bind_of_ok current_eq] at hrun
  obtain ⟨operand, middle, hoperand, hrun⟩ := bind_eq_ok hrun
  obtain ⟨found, place, hfound, hrest⟩ := bind_eq_ok hrun
  obtain ⟨rfl, -⟩ := atMarks_eq_ok hfound
  rw [bind_of_ok onNewLine_eq] at hrest
  split at hrest
  · obtain ⟨op, behind, -, hrest⟩ := bind_eq_ok hrest
    cases hrest
    exact absurd hdepicts.isForm (by rintro ⟨⟩)
  · cases hrest
    exact leftHandSide_traces hg hfinal hspelled hoperand hdepicts hplain

/-- An operator in front of an operand is passed with it. -/
theorem prefixed_traces (hg : Tracing g) {token : Token} {kind : TokenKind}
    (hrun : (do
      advance
      let operand ← g.unary
      Parse.node token (.unary token.value operand true)) context cursor = .ok node cursor')
    (hfinal : context.final.kind = .eof) (hspelled : Spelled cursor.after)
    (htoken : cursor.after.head?.getD context.final = token) (hkind : token.kind = kind)
    (hdepicts : t.Depicts node) (hplain : t.HasPlainNames) (heof : kind ≠ .eof)
    (htag : kind ≠ .mark .tagOpen) (hends : kind.endsTerm = false) :
    Passes cursor cursor' t.signs ∧ Fits .unary t := by
  obtain ⟨_, middle, hadvance, hrun⟩ := bind_eq_ok hrun
  obtain ⟨operand, behind, hoperand, hrun⟩ := bind_eq_ok hrun
  cases hrun
  cases t with
  | unary op part =>
    obtain ⟨_, _, hnode, hpart⟩ := hdepicts
    simp only [Node.plain.injEq, Plain.unary.injEq] at hnode
    obtain ⟨-, -, rfl, -⟩ := hnode
    have hpassesOp : Passes cursor middle [op.sign] := by
      refine (advance_passes hfinal htoken (by rwa [hkind]) (by rwa [hkind]) hadvance).congr ?_
      rw [endings_prefixOp]
      simp [endings, Token.sign, hkind, hends]
    obtain ⟨hpasses, hfits⟩ :=
      hg.unary hfinal (hpassesOp.spelled hspelled) hoperand hpart hplain
    exact ⟨hpassesOp.trans hpasses, .unary op hfits⟩
  | _ => simp [Depicts] at hdepicts

theorem unaryStep_traces (hg : Tracing g) : Traces .unary g.unaryStep := by
  intro context cursor node cursor' hfinal hspelled hrun t hdepicts hplain
  rw [Grammar.unaryStep, bind_of_ok current_eq] at hrun
  have hincremented : g.incremented context cursor = .ok node cursor' →
      Passes cursor cursor' t.signs ∧ Fits .unary t := by
    intro hrun
    obtain ⟨hpasses, hfits⟩ := incremented_traces hg hfinal hspelled hrun hdepicts hplain
    exact ⟨hpasses, .ofOperand hfits⟩
  generalize htoken : cursor.after.head?.getD context.final = token at hrun
  generalize hkind : token.kind = kind at hrun
  split at hrun
  case h_10 =>
    obtain ⟨_, _, hpeek, hrun⟩ := bind_eq_ok hrun
    cases hpeek
    split at hrun
    · exact hincremented hrun
    · obtain ⟨_, _, -, hrun⟩ := bind_eq_ok (nested_eq_ok hrun)
      obtain ⟨_, _, -, hrun⟩ := bind_eq_ok hrun
      cases hrun
      exact absurd hdepicts.isForm (by rintro ⟨⟩)
  case h_11 => exact hincremented hrun
  all_goals
    exact prefixed_traces hg (nested_eq_ok hrun) hfinal hspelled htoken hkind hdepicts hplain
      (by rintro ⟨⟩) (by rintro ⟨⟩) rfl

theorem Stops.next_leftLeast_le {op next : InfixOp} {noIn : Bool}
    (h : Stops op.rightLeast noIn next.kind) (hin : next.kind = .word .in_ → noIn = false) :
    next.leftLeast ≤ op.precedence := by
  have hlt : next.precedence < op.rightLeast := by
    rcases h with h | h | ⟨h, hnoIn⟩ | h | h
    · exact absurd h (Nat.ne_of_gt next.precedence_pos)
    · exact h
    · exact absurd (hin h) (by simp [hnoIn])
    · cases next <;> cases h
    · cases next <;> cases h
  revert hlt
  cases op <;> cases next <;> decide

/-- The operator of a kind is told by its spelling. -/
theorem kind_eq_of_text {op : InfixOp} {kind : TokenKind} {value : Bytes}
    (hprecedence : Grammar.precedence kind ≠ 0)
    (hmark : ∀ m, kind = .mark m → value = bytes m.text)
    (hword : ∀ w, kind = .word w → value = bytes w.spelling) (h : value = op.text) :
    kind = op.kind := by
  cases kind with
  | mark m =>
    rw [hmark m rfl] at h
    cases m with
    | nullish | or | and | pipe | caret | ampersand | eq | neq | strictEq | strictNeq | lt | gt | le
    | ge | shl | shr | ushr | plus | minus | star | slash | percent | power =>
      revert h
      cases op <;> decide
    | _ => exact absurd rfl hprecedence
  | word w =>
    rw [hword w rfl] at h
    cases w with
    | instanceof | in_ | as | satisfies =>
      revert h
      cases op <;> decide
    | _ => exact absurd rfl hprecedence
  | _ => exact absurd rfl hprecedence

/-- A term on the left of an operator that has taken all that it can. -/
def Complete (least : Nat) (noIn : Bool) (kind : TokenKind) (t : Term) : Prop :=
  Fits .unary t ∨ ∃ op first second, t = .binary op first second ∧ Fits (.binary least) t ∧
    Stops op.rightLeast noIn kind

theorem Complete.fits {least : Nat} {noIn : Bool} {kind : TokenKind}
    (h : Complete least noIn kind t) : Fits (.binary least) t := by
  rcases h with h | ⟨_, _, _, -, h, -⟩
  · exact .ofUnary h
  · exact h

theorem Complete.fits_left {least : Nat} {noIn : Bool} {next : InfixOp}
    (h : Complete least noIn next.kind t) (hin : next.kind = .word .in_ → noIn = false) :
    Fits (.binary next.leftLeast) t := by
  rcases h with h | ⟨op, first, second, rfl, hfits, hstops⟩
  · exact .ofUnary h
  · cases hfits with
    | ofUnary h =>
      cases h with
      | ofOperand h => cases h
    | binary _ hleft hright => exact .binary (hstops.next_leftLeast_le hin) hleft hright

/-- What has been read of a chain of operators so far depicts only terms that were passed, and whose
operators have taken all that they can. -/
def OperatorsTrace (least : Nat) (start : TokenCursor) (noIn : Bool) (left : Node)
    (cursor : TokenCursor) : Prop :=
  ∀ ⦃t : Term⦄, t.Depicts left → t.HasPlainNames → Passes start cursor t.signs ∧
    Complete least noIn (headKind cursor.signs) t

theorem binaryLink_traces {least : Nat} {start : TokenCursor} {first : Token} {left next : Node}
    (hg : Tracing g) (hfinal : context.final.kind = .eof) (hspelled : Spelled start.after)
    (hleft : OperatorsTrace least start context.noIn left cursor)
    (h : g.binaryLink least first left context cursor = .ok (some next) cursor') :
    OperatorsTrace least start context.noIn next cursor' := by
  rw [Grammar.binaryLink, bind_of_ok current_eq] at h
  generalize htoken : cursor.after.head?.getD context.final = token at h
  have hhead : headKind cursor.signs = token.kind := by rw [← current_kind hfinal, htoken]
  split at h
  · cases h
  · next hstrength =>
    simp only [Bool.or_eq_true, beq_iff_eq, decide_eq_true_eq, not_or, Nat.not_lt] at hstrength
    obtain ⟨hprecedence, hleast⟩ := hstrength
    obtain ⟨outer, place, houter, h⟩ := bind_eq_ok h
    cases houter
    split at h
    · cases h
    · next hin =>
      split at h
      · -- A cast is no term.
        split at h
        · cases h
        · obtain ⟨_, _, -, h⟩ := bind_eq_ok h
          obtain ⟨_, _, -, h⟩ := bind_eq_ok h
          cases h
          exact fun t hdepicts _ ↦ absurd hdepicts.isForm nofun
      · obtain ⟨_, middle, hadvance, h⟩ := bind_eq_ok h
        obtain ⟨right, behind, hright, h⟩ := bind_eq_ok h
        cases h
        intro t hdepicts hplain
        cases t with
        | binary op leftTerm rightTerm =>
          obtain ⟨_, _, _, hnode, hleftTerm, hrightTerm⟩ := hdepicts
          simp only [Node.plain.injEq, Plain.binary.injEq] at hnode
          obtain ⟨-, htext, rfl, rfl⟩ := hnode
          obtain ⟨hpasses, hcomplete⟩ := hleft hleftTerm hplain.1
          have hcursor := hpasses.spelled hspelled
          obtain ⟨after, hafter⟩ := exists_cons hfinal htoken (by
            rintro heof
            exact hprecedence (by rw [heof]; rfl))
          have hmem : token ∈ cursor.after := by simp [hafter]
          have hkind : token.kind = op.kind :=
            kind_eq_of_text hprecedence (hcursor.mark token hmem) (hcursor.word token hmem) htext
          rw [hhead, hkind] at hcomplete
          rw [hkind] at hleast hin hright
          have hside : (if op.kind == .mark .power then Grammar.precedence op.kind
              else Grammar.precedence op.kind + 1) = op.rightLeast := by
            cases op <;> rfl
          rw [hside] at hright
          have hnoIn : op.kind = .word .in_ → context.noIn = false := by
            intro hword
            simpa [hword] using hin
          have hpassesOp : Passes cursor middle [op.sign] := by
            refine (advance_passes hfinal htoken ?_ ?_ hadvance).congr ?_
            · rw [hkind]
              cases op <;> nofun
            · rw [hkind]
              cases op <;> nofun
            · rw [Token.sign, hkind, htext]
              rfl
          obtain ⟨hpassesRight, hfitsRight, hstops⟩ := hg.binary _ hfinal
            (hpassesOp.spelled hcursor) hright hrightTerm hplain.2
          refine ⟨((hpasses.trans hpassesOp).trans hpassesRight).congr (by simp [signs]),
            .inr ⟨op, leftTerm, rightTerm, rfl, ?_, hstops⟩⟩
          exact .binary hleast (hcomplete.fits_left hnoIn) hfitsRight
        | _ => simp [Depicts] at hdepicts

/-- A round that finds no operator leaves the place as it is, and no operator goes on there. -/
theorem binaryLink_eq_ok_none {least : Nat} {first : Token} {left : Node}
    (hfinal : context.final.kind = .eof)
    (h : g.binaryLink least first left context cursor = .ok none cursor') :
    cursor' = cursor ∧ Stops least context.noIn (headKind cursor.signs) := by
  rw [Grammar.binaryLink, bind_of_ok current_eq] at h
  rw [← current_kind hfinal]
  generalize cursor.after.head?.getD context.final = token at h ⊢
  split at h
  · next hstrength =>
    cases h
    refine ⟨rfl, ?_⟩
    simp only [Bool.or_eq_true, beq_iff_eq, decide_eq_true_eq] at hstrength
    exact hstrength.imp id .inl
  · obtain ⟨outer, place, houter, h⟩ := bind_eq_ok h
    cases houter
    split at h
    · next hin =>
      cases h
      exact ⟨rfl, .inr (.inr (.inl (by simpa using hin)))⟩
    · split at h
      · next hcast =>
        split at h
        · cases h
          exact ⟨rfl, .inr (.inr (.inr (by simpa using hcast)))⟩
        · obtain ⟨_, _, -, h⟩ := bind_eq_ok h
          obtain ⟨_, _, -, h⟩ := bind_eq_ok h
          cases h
      · obtain ⟨_, _, -, h⟩ := bind_eq_ok h
        obtain ⟨_, _, -, h⟩ := bind_eq_ok h
        cases h

theorem binaryStep_traces (hg : Tracing g) (least : Nat) :
    TracesBinary least (g.binaryStep least) := by
  intro context cursor node cursor' hfinal hspelled hrun t hdepicts hplain
  rw [binaryStep_eq, bind_of_ok current_eq] at hrun
  obtain ⟨first, middle, hunary, hrun⟩ := bind_eq_ok hrun
  refine iterate_eq_ok (P := OperatorsTrace least cursor context.noIn)
    (Q := fun left behind ↦ ∀ ⦃t : Term⦄, t.Depicts left → t.HasPlainNames →
      Passes cursor behind t.signs ∧ Fits (.binary least) t ∧
        Stops least context.noIn (headKind behind.signs)) ?_ ?_ ?_ hrun hdepicts hplain
  · intro left next place behind hleft hround
    obtain ⟨_ | found, _, hlink, hround⟩ := bind_eq_ok hround
    · cases hround
    · cases hround
      exact binaryLink_traces hg hfinal hspelled hleft hlink
  · intro left next place behind hleft hround t hdepicts hplain
    obtain ⟨_ | found, _, hlink, hround⟩ := bind_eq_ok hround
    · cases hround
      obtain ⟨rfl, hstops⟩ := binaryLink_eq_ok_none hfinal hlink
      obtain ⟨hpasses, hcomplete⟩ := hleft hdepicts hplain
      exact ⟨hpasses, hcomplete.fits, hstops⟩
    · cases hround
  · intro t hdepicts hplain
    obtain ⟨hpasses, hfits⟩ := hg.unary hfinal hspelled hunary hdepicts hplain
    exact ⟨hpasses, .inl hfits⟩

theorem conditional_traces (hg : Tracing g) : Traces .assignment g.conditional := by
  intro context cursor node cursor' hfinal hspelled hrun t hdepicts hplain
  rw [Grammar.conditional, bind_of_ok current_eq] at hrun
  obtain ⟨test, middle, htest, hrun⟩ := bind_eq_ok hrun
  obtain ⟨accepted, place, haccept, hrest⟩ := bind_eq_ok hrun
  cases accepted with
  | false =>
    cases hrest
    obtain ⟨hpasses, hfits, -⟩ := hg.binary 1 hfinal hspelled htest hdepicts hplain
    rcases acceptMark_passes hfinal (hpasses.spelled hspelled) haccept (by rintro ⟨⟩) with
      ⟨haccepted, -⟩ | ⟨-, rfl⟩
    · cases haccepted
    · exact ⟨hpasses, .ofBinary hfits⟩
  | true =>
    obtain ⟨consequent, behind, hconsequent, hrest⟩ := bind_eq_ok hrest
    obtain ⟨_, inside, hcolon, hrest⟩ := bind_eq_ok hrest
    obtain ⟨alternate, last, halternate, hrest⟩ := bind_eq_ok hrest
    cases hrest
    cases t with
    | conditional first second third =>
      obtain ⟨_, _, _, _, hnode, hfirst, hsecond, hthird⟩ := hdepicts
      cases hnode
      obtain ⟨hpassesFirst, hfitsFirst, -⟩ := hg.binary 1 hfinal hspelled htest hfirst hplain.1
      have hmiddle := hpassesFirst.spelled hspelled
      rcases acceptMark_passes hfinal hmiddle haccept (by rintro ⟨⟩) with
        ⟨-, hpassesQuestion⟩ | ⟨haccepted, -⟩
      · have hplace := hpassesQuestion.spelled hmiddle
        obtain ⟨hpassesSecond, hfitsSecond⟩ :=
          hg.assignment.allowingIn hfinal hplace hconsequent hsecond hplain.2.1
        have hpassesColon :=
          expectMark_passes hfinal (hpassesSecond.spelled hplace) hcolon (by rintro ⟨⟩)
        obtain ⟨hpassesThird, hfitsThird⟩ := hg.assignment hfinal
          (hpassesColon.spelled (hpassesSecond.spelled hplace)) halternate hthird hplain.2.2
        refine ⟨?_, .conditional hfitsFirst hfitsSecond hfitsThird⟩
        refine ((((hpassesFirst.trans hpassesQuestion).trans hpassesSecond).trans
          hpassesColon).trans hpassesThird).congr ?_
        simp [signs]
      · cases haccepted
    | _ => simp [Depicts] at hdepicts

/-! ## Assignments -/

theorem arrowFunction_gets (isAsync : Bool) : (g.arrowFunction isAsync).Gets Foreign := by
  apply gets_foreign
  unfold Grammar.arrowFunction
  refine .ite (.last fun start ↦ ?_) (.last fun start ↦ ?_)
  all_goals
    refine .last fun typeParameters ↦ .last fun signature ↦ .last fun _ ↦ .last fun isBlock ↦ ?_
    exact .ite (.last fun block ↦ .last fun body ↦ .node fun range ↦ rfl)
      (.last fun value ↦ .last fun body ↦ .node fun range ↦ rfl)

theorem yielding_gets : g.yielding.Gets Foreign := by
  apply gets_foreign
  exact .last fun start ↦ .last fun _ ↦ .last fun delegate ↦ .last fun next ↦
    .last fun argument ↦ .node fun range ↦ rfl

theorem assignmentStep_traces (hg : Tracing g) : Traces .assignment g.assignmentStep := by
  intro context cursor node cursor' hfinal hspelled hrun t hdepicts hplain
  have hrun := nested_eq_ok hrun
  have hfinal : ({ context with depth := context.depth + 1 } : ParseContext).final.kind = .eof :=
    hfinal
  generalize ({ context with depth := context.depth + 1 } : ParseContext) = inner at hrun hfinal
  have foreign : ∀ {action : Parse Node}, action.Gets Foreign → ∀ {place},
      action inner place = .ok node cursor' → Passes cursor cursor' t.signs ∧ Fits .assignment t :=
    fun hgets _ hrun ↦ absurd hplain (hgets.of_ok hrun t hdepicts)
  rw [bind_of_ok current_eq] at hrun
  obtain ⟨isAsync, place, hasync, hrun⟩ := bind_eq_ok hrun
  split at hrun
  · exact foreign (.last fun _ ↦ arrowFunction_gets true) hrun
  obtain ⟨isArrow, behind, harrow, hrest⟩ := bind_eq_ok hrun
  split at hrest
  · exact foreign (arrowFunction_gets false) hrest
  obtain rfl : place = cursor := Looks.atAsyncArrow.eq_of_ok hasync
  obtain rfl : behind = place := Looks.atArrow.eq_of_ok harrow
  rw [bind_of_ok (atWord_eq _ hfinal)] at hrest
  split at hrest
  · exact foreign yielding_gets hrest
  obtain ⟨target, last, htarget, hend⟩ := bind_eq_ok hrest
  rw [bind_of_ok current_eq] at hend
  have hreturn : (pure target : Parse Node) inner last = .ok node cursor' →
      Passes behind cursor' t.signs ∧ Fits .assignment t := by
    intro hpure
    cases hpure
    exact conditional_traces hg hfinal hspelled htarget hdepicts hplain
  generalize (last.after.head?.getD inner.final).kind = kind at hend
  split at hend
  · split at hend
    · exact foreign (gets_foreign (.last fun op ↦ .last fun value ↦ .node fun range ↦ rfl)) hend
    · exact hreturn hend
  · exact hreturn hend

/-! ## All levels -/

theorem fragmentRest_gets (start : Token) :
    (g.fragmentRest start).Gets (isForm · = false) := by
  unfold Grammar.fragmentRest
  refine .last fun children ↦ .last fun _ ↦ .last fun isClosed ↦ ?_
  exact .ite (.surface fun range ↦ rfl) (.fail _ _)

theorem elementRest_gets (start : Token) (tag : Bytes) (attributes : List Node) :
    (g.elementRest start tag attributes).Gets (isForm · = false) := by
  unfold Grammar.elementRest
  refine .last fun _ ↦ .last fun children ↦ .last fun _ ↦ .last fun place ↦ .last fun closing ↦ ?_
  have hrest : (do
      expectMark .tagEnd "Expected '>' to close JSX closing tag"
      surface start (.element tag attributes children false)).Gets (isForm · = false) :=
    .last fun _ ↦ .surface fun range ↦ rfl
  exact .ite (.last fun _ ↦ hrest) hrest

theorem elementStep_gets : g.elementStep.Gets Foreign := by
  apply gets_foreign
  unfold Grammar.elementStep
  refine .nested ?_
  refine .last fun start ↦ .last fun isFragment ↦ ?_
  refine .ite (fragmentRest_gets start) (.last fun tag ↦ .last fun attributes ↦ ?_)
  refine .last fun isSelfClosing ↦ .ite (.surface fun range ↦ rfl) ?_
  exact elementRest_gets start tag attributes

theorem tracing_grammar (level : Nat) : Tracing (grammar level) := by
  induction level with
  | zero =>
    have hnone : (Parse.failWith exhausted : Parse Node).Gets Foreign := .failWith exhausted
    exact {
      assignment := .of_gets hnone
      binary := fun _ _ _ _ _ _ _ hrun ↦ nomatch hrun
      unary := .of_gets hnone
      primary := .of_gets hnone
      construction := hnone
      element := hnone }
  | succ level ih =>
    exact {
      assignment := assignmentStep_traces ih
      binary := binaryStep_traces ih
      unary := unaryStep_traces ih
      primary := primaryStep_traces ih
      construction := constructionStep_gets (grammar level)
      element := elementStep_gets }

end Term

end SignalView
