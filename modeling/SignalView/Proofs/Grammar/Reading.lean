import SignalView.Grammar.Program

/-!
# Runs of parsing actions

What an action does to the tokens ahead. Where a token lies in the source plays no part in most
decisions of the grammar, so tokens are compared by their kind and value alone. A run is followed
forwards, from the tokens ahead to the value that an action gives, or backwards, from the value to
the tokens that were passed.
-/

namespace SignalView

/-- What a token stands for, wherever it is. -/
structure Sign where
  kind : TokenKind
  value : Bytes
  deriving DecidableEq, Repr

def Token.sign (token : Token) : Sign := ⟨token.kind, token.value⟩

def Mark.sign (m : Mark) : Sign := ⟨.mark m, bytes m.text⟩

/-- What lies ahead of a cursor. -/
def TokenCursor.signs (cursor : TokenCursor) : List Sign := cursor.after.map Token.sign

/-- The kind of the first of some tokens, behind which the input ends. -/
def headKind (signs : List Sign) : TokenKind := (signs.head?.map (·.kind)).getD .eof

@[simp]
theorem headKind_cons (sign : Sign) (rest : List Sign) : headKind (sign :: rest) = sign.kind := rfl

@[simp]
theorem Mark.sign_kind (m : Mark) : m.sign.kind = .mark m := rfl

namespace Parse

variable {α β : Type} {context : ParseContext} {cursor cursor' : TokenCursor}

/-! ## Chains of actions -/

theorem bind_eq_ok {action : Parse α} {next : α → Parse β} {value : β}
    (h : (action >>= next) context cursor = .ok value cursor') :
    ∃ first middle, action context cursor = .ok first middle ∧
      next first context middle = .ok value cursor' := by
  simp only [bind] at h
  cases haction : action context cursor with
  | ok first middle =>
    rw [haction] at h
    exact ⟨first, middle, rfl, h⟩
  | failed failure middle =>
    rw [haction] at h
    cases h

theorem bind_of_ok {action : Parse α} {next : α → Parse β} {first : α} {middle : TokenCursor}
    (h : action context cursor = .ok first middle) :
    (action >>= next) context cursor = next first context middle := by
  simp only [bind, h]

theorem pure_eq_ok {first value : α}
    (h : (pure first : Parse α) context cursor = .ok value cursor') :
    first = value ∧ cursor = cursor' := by
  cases h
  exact ⟨rfl, rfl⟩

/-! ## Forwards -/

/-- An action gives a value of a kind and leaves some tokens ahead. -/
def Gives (action : Parse α) (context : ParseContext) (cursor : TokenCursor) (P : α → Prop)
    (rest : List Sign) : Prop :=
  ∃ value cursor', action context cursor = .ok value cursor' ∧ P value ∧ cursor'.signs = rest

theorem Gives.bind {action : Parse α} {next : α → Parse β} {P : α → Prop} {Q : β → Prop}
    {middle rest : List Sign} (h : action.Gives context cursor P middle)
    (hnext : ∀ value cursor', P value → cursor'.signs = middle →
      (next value).Gives context cursor' Q rest) :
    (action >>= next).Gives context cursor Q rest := by
  obtain ⟨value, cursor', haction, hvalue, hmiddle⟩ := h
  obtain ⟨result, behind, hrun, hresult⟩ := hnext value cursor' hvalue hmiddle
  exact ⟨result, behind, by rw [bind_of_ok haction, hrun], hresult⟩

theorem Gives.pure {value : α} {P : α → Prop} (h : P value) :
    (pure value : Parse α).Gives context cursor P cursor.signs :=
  ⟨value, cursor, rfl, h, rfl⟩

theorem Gives.mono {action : Parse α} {P Q : α → Prop} {rest : List Sign}
    (h : action.Gives context cursor P rest) (hmono : ∀ value, P value → Q value) :
    action.Gives context cursor Q rest := by
  obtain ⟨value, cursor', hrun, hvalue, hrest⟩ := h
  exact ⟨value, cursor', hrun, hmono value hvalue, hrest⟩

/-- The next token, or the one that ends the input. -/
theorem current_kind (hfinal : context.final.kind = .eof) :
    (cursor.after.head?.getD context.final).kind = headKind cursor.signs := by
  unfold headKind TokenCursor.signs
  cases cursor.after with
  | nil => simpa using hfinal
  | cons token rest => rfl

theorem current_eq : current context cursor =
    .ok (cursor.after.head?.getD context.final) cursor := by
  simp [current, peek, List.head?_eq_getElem?]

theorem current_gives_token : current.Gives context cursor (fun _ ↦ True) cursor.signs :=
  ⟨_, cursor, current_eq, trivial, rfl⟩

/-- The cursor behind the next token. -/
theorem signs_eq_cons {sign : Sign} {rest : List Sign} (h : cursor.signs = sign :: rest) :
    ∃ token after, cursor.after = token :: after ∧ token.sign = sign ∧
      (⟨token :: cursor.before, after⟩ : TokenCursor).signs = rest := by
  obtain ⟨token, after, hafter, hsign, hrest⟩ := List.map_eq_cons_iff.mp h
  exact ⟨token, after, hafter, hsign, hrest⟩

section Cons

variable {token : Token} {after : List Token} (h : cursor.after = token :: after)

include h

theorem current_of_cons : current context cursor = .ok token cursor := by
  rw [current_eq, h]
  rfl

theorem advance_of_cons : advance context cursor = .ok () ⟨token :: cursor.before, after⟩ := by
  simp [advance, h]

theorem take_of_cons : take context cursor = .ok token.value ⟨token :: cursor.before, after⟩ := by
  unfold take
  rw [bind_of_ok (current_of_cons h), bind_of_ok (advance_of_cons h)]
  rfl

theorem at_of_cons (kind : TokenKind) :
    at_ kind context cursor = .ok (token.kind == kind) cursor := by
  unfold at_
  rw [bind_of_ok (current_of_cons h)]
  rfl

theorem accept_of_cons : accept token.kind context cursor =
    .ok true ⟨token :: cursor.before, after⟩ := by
  unfold accept
  rw [bind_of_ok (at_of_cons h token.kind), BEq.rfl, if_pos rfl, bind_of_ok (advance_of_cons h)]
  rfl

theorem expect_of_cons (message : String) : expect token.kind message context cursor =
    .ok token ⟨token :: cursor.before, after⟩ := by
  unfold expect expectWith
  rw [bind_of_ok (current_of_cons h), BEq.rfl, if_pos rfl, bind_of_ok (advance_of_cons h)]
  rfl

end Cons

theorem current_gives {sign : Sign} {rest : List Sign} (h : cursor.signs = sign :: rest) :
    current.Gives context cursor (·.sign = sign) (sign :: rest) := by
  obtain ⟨token, after, hafter, hsign, -⟩ := signs_eq_cons h
  exact ⟨token, cursor, current_of_cons hafter, hsign, h⟩

theorem advance_gives {sign : Sign} {rest : List Sign} (h : cursor.signs = sign :: rest) :
    advance.Gives context cursor (fun _ ↦ True) rest := by
  obtain ⟨token, after, hafter, -, hrest⟩ := signs_eq_cons h
  exact ⟨(), _, advance_of_cons hafter, trivial, hrest⟩

theorem take_gives {sign : Sign} {rest : List Sign} (h : cursor.signs = sign :: rest) :
    take.Gives context cursor (· = sign.value) rest := by
  obtain ⟨token, after, hafter, rfl, hrest⟩ := signs_eq_cons h
  exact ⟨token.value, _, take_of_cons hafter, rfl, hrest⟩

theorem accept_gives {sign : Sign} {rest : List Sign} (h : cursor.signs = sign :: rest) :
    (accept sign.kind).Gives context cursor (· = true) rest := by
  obtain ⟨token, after, hafter, rfl, hrest⟩ := signs_eq_cons h
  exact ⟨true, _, accept_of_cons hafter, rfl, hrest⟩

theorem acceptMark_gives {m : Mark} {rest : List Sign} (h : cursor.signs = m.sign :: rest) :
    (acceptMark m).Gives context cursor (· = true) rest := accept_gives h

theorem expect_gives {sign : Sign} {rest : List Sign} {message : String}
    (h : cursor.signs = sign :: rest) :
    (expect sign.kind message).Gives context cursor (·.sign = sign) rest := by
  obtain ⟨token, after, hafter, rfl, hrest⟩ := signs_eq_cons h
  exact ⟨token, _, expect_of_cons hafter message, rfl, hrest⟩

theorem discard_expect_gives {sign : Sign} {rest : List Sign} {message : String}
    (h : cursor.signs = sign :: rest) :
    (discard (expect sign.kind message) : Parse Unit).Gives context cursor (fun _ ↦ True) rest :=
  (expect_gives h).bind fun _ behind _ hbehind ↦ ⟨(), behind, rfl, trivial, hbehind⟩

theorem expectMark_gives {m : Mark} {rest : List Sign} {message : String}
    (h : cursor.signs = m.sign :: rest) :
    (expectMark m message).Gives context cursor (fun _ ↦ True) rest := discard_expect_gives h

theorem semicolon_gives {rest : List Sign} (h : cursor.signs = Mark.semicolon.sign :: rest) :
    semicolon.Gives context cursor (fun _ ↦ True) rest := by
  refine (acceptMark_gives h).bind fun accepted behind haccepted hbehind ↦ ?_
  rw [haccepted, if_pos rfl]
  exact ⟨(), behind, rfl, trivial, hbehind⟩

theorem Gives.allowingIn {action : Parse α} {P : α → Prop} {rest : List Sign}
    (h : action.Gives { context with noIn := false } cursor P rest) :
    (allowingIn action).Gives context cursor P rest := h

theorem Gives.nested {action : Parse α} {P : α → Prop} {rest : List Sign}
    (h : action.Gives { context with depth := context.depth + 1 } cursor P rest)
    (hdepth : (context.depth : Int) < context.maxDepth) :
    (nested action).Gives context cursor P rest := by
  obtain ⟨value, behind, hrun, hvalue, hrest⟩ := h
  refine ⟨value, behind, ?_, hvalue, hrest⟩
  unfold Parse.nested
  rw [if_neg (by omega), hrun]

theorem at_eq (kind : TokenKind) (hfinal : context.final.kind = .eof) :
    at_ kind context cursor = .ok (headKind cursor.signs == kind) cursor := by
  rw [← current_kind hfinal]
  unfold at_
  rw [bind_of_ok current_eq]
  rfl

theorem atMark_eq (m : Mark) (hfinal : context.final.kind = .eof) :
    atMark m context cursor = .ok (headKind cursor.signs == .mark m) cursor := at_eq _ hfinal

theorem atWord_eq (w : Word) (hfinal : context.final.kind = .eof) :
    atWord w context cursor = .ok (headKind cursor.signs == .word w) cursor := at_eq _ hfinal

theorem accept_eq_false {kind : TokenKind} (hfinal : context.final.kind = .eof)
    (h : headKind cursor.signs ≠ kind) : accept kind context cursor = .ok false cursor := by
  unfold accept
  rw [bind_of_ok (at_eq kind hfinal), beq_false_of_ne h]
  rfl

theorem accept_gives_false {kind : TokenKind} (hfinal : context.final.kind = .eof)
    (h : headKind cursor.signs ≠ kind) :
    (accept kind).Gives context cursor (· = false) cursor.signs :=
  ⟨false, cursor, accept_eq_false hfinal h, rfl, rfl⟩

/-- A token further ahead. -/
theorem peek_kind (hfinal : context.final.kind = .eof) (offset : Nat) :
    (cursor.after[offset]?.getD context.final).kind = headKind (cursor.signs.drop offset) := by
  rw [headKind, TokenCursor.signs, ← List.map_drop, List.head?_map, List.head?_drop]
  cases cursor.after[offset]? with
  | none => exact hfinal
  | some token => rfl

theorem onNewLine_eq : onNewLine context cursor =
    .ok (cursor.after.head?.getD context.final).newlineBefore cursor := by
  unfold onNewLine
  rw [bind_of_ok current_eq]
  rfl

theorem atMarks_eq (ms : List Mark) (hfinal : context.final.kind = .eof) :
    atMarks ms context cursor =
      .ok (ms.any fun m ↦ headKind cursor.signs == .mark m) cursor := by
  rw [← current_kind hfinal]
  unfold atMarks
  rw [bind_of_ok current_eq]
  rfl

theorem before_eq (closing : TokenKind) (hfinal : context.final.kind = .eof) :
    before closing context cursor =
      .ok (headKind cursor.signs != closing && headKind cursor.signs != .eof) cursor := by
  rw [← current_kind hfinal]
  unfold before
  rw [bind_of_ok current_eq]
  rfl

/-! ## Lists -/

/-- The round of a list that looks for one more item. -/
def listRound (more : Parse Bool) (item : Parse (α × Bool)) (items : List α) :
    Parse (List α × Bool) := do
  if ← more then
    let (next, needsComma) ← item
    if needsComma then return (items ++ [next], ← acceptMark .comma)
    return (items ++ [next], true)
  return (items, false)

theorem looseList_eq (rounds : Nat) (more : Parse Bool) (item : Parse (α × Bool)) :
    looseList rounds more item = iterate (listRound more item) rounds [] := rfl

/-! ## Backwards -/

/-- A token that is not the end of the input lies ahead. -/
theorem exists_cons {token : Token} (hfinal : context.final.kind = .eof)
    (h : cursor.after.head?.getD context.final = token) (hkind : token.kind ≠ .eof) :
    ∃ after, cursor.after = token :: after := by
  cases hafter : cursor.after with
  | nil =>
    rw [hafter] at h
    exact absurd (h ▸ hfinal) hkind
  | cons first after =>
    rw [hafter] at h
    exact ⟨after, congrArg (· :: after) h⟩

theorem accept_eq_ok {kind : TokenKind} {accepted : Bool} (hfinal : context.final.kind = .eof)
    (h : accept kind context cursor = .ok accepted cursor') (hkind : kind ≠ .eof) :
    (accepted = true ∧ ∃ token after, cursor.after = token :: after ∧ token.kind = kind ∧
      cursor' = ⟨token :: cursor.before, after⟩) ∨ (accepted = false ∧ cursor' = cursor) := by
  unfold accept at h
  rw [bind_of_ok (at_eq kind hfinal)] at h
  by_cases hhead : headKind cursor.signs = kind
  · left
    rw [hhead, BEq.rfl, if_pos rfl] at h
    rw [← current_kind hfinal] at hhead
    obtain ⟨after, hafter⟩ := exists_cons hfinal rfl (by rw [hhead]; exact hkind)
    rw [bind_of_ok (advance_of_cons hafter)] at h
    cases h
    exact ⟨rfl, _, after, hafter, hhead, rfl⟩
  · right
    rw [beq_false_of_ne hhead, if_neg Bool.false_ne_true] at h
    cases h
    exact ⟨rfl, rfl⟩

theorem expect_eq_ok {kind : TokenKind} {message : String} {token : Token}
    (hfinal : context.final.kind = .eof)
    (h : expect kind message context cursor = .ok token cursor') (hkind : kind ≠ .eof) :
    token.kind = kind ∧ ∃ after, cursor.after = token :: after ∧
      cursor' = ⟨token :: cursor.before, after⟩ := by
  unfold expect expectWith at h
  rw [bind_of_ok current_eq] at h
  split at h
  · next hhead =>
    have hhead := beq_iff_eq.mp hhead
    obtain ⟨after, hafter⟩ := exists_cons hfinal rfl (by rw [hhead]; exact hkind)
    rw [bind_of_ok (advance_of_cons hafter)] at h
    cases h
    exact ⟨hhead, after, hafter, rfl⟩
  · cases h

theorem before_eq_ok {closing : TokenKind} {more : Bool}
    (h : before closing context cursor = .ok more cursor') : cursor' = cursor := by
  unfold before at h
  rw [bind_of_ok current_eq] at h
  cases h
  rfl

theorem nested_eq_ok {action : Parse α} {value : α}
    (h : nested action context cursor = .ok value cursor') :
    action { context with depth := context.depth + 1 } cursor = .ok value cursor' := by
  unfold nested at h
  split at h
  · cases h
  · exact h

/-- A repetition that ends: what each round that asks for more keeps, and what the last round makes
of it. -/
theorem iterate_eq_ok {σ : Type} {step : σ → Parse (σ × Bool)} {P Q : σ → TokenCursor → Prop}
    (hmore : ∀ state next cursor cursor', P state cursor →
      step state context cursor = .ok (next, true) cursor' → P next cursor')
    (hlast : ∀ state next cursor cursor', P state cursor →
      step state context cursor = .ok (next, false) cursor' → Q next cursor')
    {rounds : Nat} {state result : σ} (hstate : P state cursor)
    (h : iterate step rounds state context cursor = .ok result cursor') : Q result cursor' := by
  induction rounds generalizing state cursor with
  | zero => cases h
  | succ rounds ih =>
    obtain ⟨⟨next, more⟩, middle, hstep, h⟩ := bind_eq_ok h
    cases more with
    | true => exact ih (hmore _ _ _ _ hstate hstep) h
    | false =>
      cases h
      exact hlast _ _ _ _ hstate hstep

/-- A list without items is read from no tokens. -/
theorem commaList_eq_nil {more : Parse Bool} {item : Parse α} {rounds : Nat}
    (hmore : ∀ cursor asked behind, more context cursor = .ok asked behind → behind = cursor)
    (h : commaList rounds more item context cursor = .ok [] cursor') : cursor' = cursor := by
  rw [commaList, looseList_eq] at h
  have hround : ∀ items next place behind asked, (items = [] → place = cursor) →
      listRound more (do return (← item, true)) items context place = .ok (next, asked) behind →
      next = [] → behind = cursor := by
    intro items next place behind asked hitems hrun hnil
    obtain ⟨_ | _, middle, hasked, hrun⟩ := bind_eq_ok hrun
    · cases hrun
      rw [hmore _ _ _ hasked]
      exact hitems hnil
    · obtain ⟨⟨value, needsComma⟩, last, hvalue, hrun⟩ := bind_eq_ok hrun
      obtain ⟨_, _, -, hvalue⟩ := bind_eq_ok hvalue
      cases hvalue
      obtain ⟨_, _, -, hrun⟩ := bind_eq_ok hrun
      cases hrun
      simp at hnil
  exact iterate_eq_ok (fun _ _ _ _ hitems ↦ hround _ _ _ _ true hitems)
    (fun _ _ _ _ hitems ↦ hround _ _ _ _ false hitems) (fun _ ↦ rfl) h rfl

theorem atMarks_eq_ok {ms : List Mark} {found : Bool}
    (h : atMarks ms context cursor = .ok found cursor') :
    cursor' = cursor ∧ (found = true →
      ∃ m ∈ ms, (cursor.after.head?.getD context.final).kind = .mark m) := by
  rw [atMarks, bind_of_ok current_eq] at h
  cases h
  refine ⟨rfl, fun hfound ↦ ?_⟩
  simpa using hfound

end Parse

theorem Program.splitFinal_concat {front : List Token} {final : Token} (h : final.kind = .eof) :
    splitFinal (front ++ [final]) = (front, final) := by
  simp [splitFinal, h]

end SignalView
