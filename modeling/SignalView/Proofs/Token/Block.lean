import SignalView.Proofs.Token.Cut

/-!
# Texts with braces and lines

Inside braces code is cut into tokens as outside of them, as long as no lexeme starts with a brace,
an angle bracket or a backtick. So a text of several lines with lists in braces is cut into tokens
like a text without them; the judgement keeps how many braces are open.
-/

namespace SignalView

/-- The first bytes of the lexemes that depend on the surroundings or change them. -/
def isBracket (b : UInt8) : Bool :=
  b == Quoted.openBrace || b == Quoted.closeBrace || b == byte '<' || b == byte '>' ||
    b == Quoted.backtick

/-- The surroundings are of no account for other lexemes. -/
theorem Scan.code_within {b : UInt8} (h : isBracket b = false) (previous : Option TokenKind)
    (surroundings : List Surrounding) (more : Bytes) :
    Scan.code previous surroundings (b :: more) =
      ⟨(Scan.code previous [] (b :: more)).lexeme, surroundings⟩ := by
  simp only [isBracket, Bool.or_eq_false_iff] at h
  obtain ⟨⟨⟨⟨hopen, hclose⟩, hless⟩, hgreater⟩, hbacktick⟩ := h
  simp only [Scan.code, List.head?_cons, Option.getD_some, hopen, hclose, hless, hgreater,
    hbacktick, Bool.false_eq_true, if_false]
  split
  · rfl
  split
  · rfl
  split
  · rfl
  by_cases hslash : (b == byte '/' && allowsOperand previous) = true
  · simp [hslash]
  · simp [hslash]

/-- A text with something behind it is cut into tokens, from the kind of the token in front of them
and the number of open braces to those behind them. -/
inductive BlockCuts (after : Bytes) :
    Option TokenKind → Nat → Bytes → List Sign → Option TokenKind → Nat → Prop
  | nil (previous : Option TokenKind) (depth : Nat) :
    BlockCuts after previous depth [] [] previous depth
  | space {previous last : Option TokenKind} {depth depth' : Nat} {b : UInt8} {text : Bytes}
    {signs : List Sign} : Byte.isSpace b = true →
    BlockCuts after previous depth text signs last depth' →
      BlockCuts after previous depth (b :: text) signs last depth'
  | token {previous last : Option TokenKind} {depth depth' : Nat} {b : UInt8} {lexeme text : Bytes}
    {sign : Sign} {signs : List Sign} : isBracket b = false →
    Lexes previous (b :: lexeme) (text ++ after) sign →
    BlockCuts after (some sign.kind) depth text signs last depth' →
      BlockCuts after previous depth (b :: lexeme ++ text) (sign :: signs) last depth'
  | openBrace {previous last : Option TokenKind} {depth depth' : Nat} {text : Bytes}
    {signs : List Sign} :
    BlockCuts after (some (.mark .openBrace)) (depth + 1) text signs last depth' →
      BlockCuts after previous depth (bytes "\x7b" ++ text) (Mark.openBrace.sign :: signs)
        last depth'
  | closeBrace {previous last : Option TokenKind} {depth depth' : Nat} {text : Bytes}
    {signs : List Sign} :
    BlockCuts after (some (.mark .closeBrace)) depth text signs last depth' →
      BlockCuts after previous (depth + 1) (bytes "\x7d" ++ text) (Mark.closeBrace.sign :: signs)
        last depth'

/-- Texts that are cut one behind the other. -/
theorem BlockCuts.append {previous middle last : Option TokenKind} {depth inside depth' : Nat}
    {after front back : Bytes} {signs more : List Sign}
    (hfront : BlockCuts (back ++ after) previous depth front signs middle inside)
    (hback : BlockCuts after middle inside back more last depth') :
    BlockCuts after previous depth (front ++ back) (signs ++ more) last depth' := by
  induction hfront with
  | nil _ _ => exact hback
  | space hspace _ ih => exact .space hspace (ih hback)
  | token hb hlexes _ ih =>
    rw [List.append_assoc, List.cons_append]
    refine .token hb ?_ (ih hback)
    rwa [List.append_assoc]
  | openBrace _ ih =>
    rw [List.append_assoc, List.cons_append]
    exact .openBrace (ih hback)
  | closeBrace _ ih =>
    rw [List.append_assoc, List.cons_append]
    exact .closeBrace (ih hback)

theorem BlockCuts.single {previous : Option TokenKind} {depth : Nat} {after lexeme : Bytes}
    {b : UInt8} {sign : Sign} (hhead : lexeme.head? = some b) (hb : isBracket b = false)
    (h : Lexes previous lexeme after sign) :
    BlockCuts after previous depth lexeme [sign] (some sign.kind) depth := by
  obtain ⟨more, rfl⟩ := List.head?_eq_some_iff.mp hhead
  have hcuts : BlockCuts after previous depth (b :: more ++ []) [sign] (some sign.kind) depth :=
    .token hb h (.nil (some sign.kind) depth)
  rwa [List.append_nil] at hcuts

namespace Lexer

/-- A run inside some braces, by the text ahead and the kind of the token in front of it. -/
structure Inside (lexer : Lexer) (previous : Option TokenKind) (depth : Nat) (rest : Bytes) :
    Prop where
  rest_eq : lexer.cursor.rest = rest
  surroundings_eq : lexer.surroundings = List.replicate depth .brace
  previous_eq : lexer.tokens.head?.map (·.kind) = previous

section

variable {lexer : Lexer} {previous : Option TokenKind} {depth : Nat} {rest : Bytes}

theorem Inside.inChildren_eq (h : lexer.Inside previous depth rest) : lexer.inChildren = false := by
  rw [inChildren, h.surroundings_eq]
  cases depth <;> rfl

theorem Inside.scan_eq (h : lexer.Inside previous depth rest) :
    lexer.scan = Scan.code previous (List.replicate depth .brace) rest := by
  rw [scan, h.surroundings_eq, h.previous_eq, h.rest_eq]
  cases depth <;> rfl

theorem Inside.run_space {b : UInt8} (h : lexer.Inside previous depth (b :: rest))
    (hspace : Byte.isSpace b = true) (options : LexerOptions) (rounds : Nat) :
    ∃ next : Lexer, run options (rounds + 1) lexer = run options (rounds + 1) next ∧
      next.Inside previous depth rest ∧ next.tokens = lexer.tokens := by
  obtain ⟨next, hrun, hrest, hsurroundings, htokens⟩ :=
    Lexer.run_space h.inChildren_eq hspace h.rest_eq options rounds
  refine ⟨next, hrun, ⟨hrest, hsurroundings.trans h.surroundings_eq, ?_⟩, htokens⟩
  rw [htokens, h.previous_eq]

/-- A round that takes in a token and comes to a number of open braces. -/
theorem Inside.run_token {lexeme : Bytes} {sign : Sign} {depth' : Nat}
    (h : lexer.Inside previous depth (lexeme ++ rest)) (hstarts : StartsToken (lexeme ++ rest))
    (hcode : Scan.code previous (List.replicate depth .brace) (lexeme ++ rest) =
      ⟨.token sign.kind sign.value lexeme.length, List.replicate depth' .brace⟩)
    (options : LexerOptions) (rounds : Nat) :
    ∃ next : Lexer, run options (rounds + 1) lexer = run options rounds next ∧
      next.Inside (some sign.kind) depth' rest ∧
      next.tokenList.map Token.sign = lexer.tokenList.map Token.sign ++ [sign] := by
  rw [← h.rest_eq] at hstarts
  obtain ⟨next, hrun, hrest, hsurroundings, hkind, hsigns⟩ :=
    run_lexeme h.inChildren_eq hstarts (h.scan_eq.trans hcode) options rounds
  rw [h.rest_eq, List.drop_left] at hrest
  exact ⟨next, hrun, ⟨hrest, hsurroundings, hkind⟩, hsigns⟩

end

/-- A run over a text that is cut adds its tokens. -/
theorem Inside.run_cuts {lexer : Lexer} {previous last : Option TokenKind} {depth depth' : Nat}
    {text after : Bytes} {signs : List Sign}
    (hcuts : BlockCuts after previous depth text signs last depth')
    (h : lexer.Inside previous depth (text ++ after)) (options : LexerOptions) {rounds : Nat}
    (hrounds : (text ++ after).length < rounds) :
    ∃ (next : Lexer) (rounds' : Nat), run options rounds lexer = run options rounds' next ∧
      after.length < rounds' ∧ next.Inside last depth' after ∧
      next.tokenList.map Token.sign = lexer.tokenList.map Token.sign ++ signs := by
  -- A token of the text, and what the rest of the text adds to it.
  have hstep {lexer : Lexer} {previous last : Option TokenKind} {depth inside depth' : Nat}
      {lexeme text : Bytes} {sign : Sign} {signs : List Sign} {rounds : Nat} (hne : lexeme ≠ [])
      (h : lexer.Inside previous depth (lexeme ++ text ++ after))
      (hrounds : (lexeme ++ text ++ after).length < rounds)
      (hstarts : StartsToken (lexeme ++ (text ++ after)))
      (hcode : Scan.code previous (List.replicate depth .brace) (lexeme ++ (text ++ after)) =
        ⟨.token sign.kind sign.value lexeme.length, List.replicate inside .brace⟩)
      (ih : ∀ {lexer : Lexer}, lexer.Inside (some sign.kind) inside (text ++ after) →
        ∀ {rounds : Nat}, (text ++ after).length < rounds →
        ∃ (next : Lexer) (rounds' : Nat), run options rounds lexer = run options rounds' next ∧
          after.length < rounds' ∧ next.Inside last depth' after ∧
          next.tokenList.map Token.sign = lexer.tokenList.map Token.sign ++ signs) :
      ∃ (next : Lexer) (rounds' : Nat), run options rounds lexer = run options rounds' next ∧
        after.length < rounds' ∧ next.Inside last depth' after ∧
        next.tokenList.map Token.sign = lexer.tokenList.map Token.sign ++ sign :: signs := by
    obtain ⟨rounds, rfl⟩ : ∃ r, rounds = r + 1 := ⟨rounds - 1, by omega⟩
    rw [List.append_assoc] at h hrounds
    obtain ⟨next, hrun, hnext, htokens⟩ := h.run_token hstarts hcode options rounds
    have hshorter : (text ++ after).length < rounds := by
      have := List.length_pos_iff.mpr hne
      rw [List.length_append] at hrounds
      omega
    obtain ⟨last, rounds', hrun', hafter, hlast, hsigns⟩ := ih hnext hshorter
    refine ⟨last, rounds', hrun.trans hrun', hafter, hlast, ?_⟩
    rw [hsigns, htokens, List.append_assoc]
    rfl
  induction hcuts generalizing lexer rounds with
  | nil _ _ => exact ⟨lexer, rounds, rfl, hrounds, h, by simp⟩
  | space hspace _ ih =>
    obtain ⟨rounds, rfl⟩ : ∃ r, rounds = r + 1 := ⟨rounds - 1, by omega⟩
    obtain ⟨next, hrun, hnext, htokens⟩ := h.run_space hspace options rounds
    rw [List.cons_append, List.length_cons] at hrounds
    obtain ⟨last, rounds', hrun', hafter, hlast, hsigns⟩ := ih hnext (Nat.lt_of_succ_lt hrounds)
    refine ⟨last, rounds', hrun.trans hrun', hafter, hlast, ?_⟩
    rw [hsigns, tokenList, htokens, ← tokenList]
  | token hb hlexes _ ih =>
    refine hstep (by simp) h hrounds hlexes.starts ?_ ih
    rw [List.cons_append, Scan.code_within hb, ← List.cons_append, hlexes.code_eq]
  | openBrace _ ih =>
    have hstarts (more : Bytes) : StartsToken (bytes "\x7b" ++ more) :=
      Lexes.startsToken_append (b := Quoted.openBrace) rfl rfl (by decide) more
    exact hstep (by decide) h hrounds (hstarts _) rfl ih
  | closeBrace _ ih =>
    have hstarts (more : Bytes) : StartsToken (bytes "\x7d" ++ more) :=
      Lexes.startsToken_append (b := Quoted.closeBrace) rfl rfl (by decide) more
    exact hstep (by decide) h hrounds (hstarts _) rfl ih

end Lexer

/-- A text that is cut is turned into its tokens. -/
theorem tokenize_of_blockCuts {text : Bytes} {signs : List Sign} {last : Option TokenKind}
    (h : BlockCuts [] none 0 text signs last 0) (options : LexerOptions) :
    TurnsInto options text signs := by
  have hinside : (Lexer.ofSource text).Inside none 0 (text ++ []) :=
    ⟨(List.append_nil text).symm, rfl, rfl⟩
  obtain ⟨next, rounds, hrun, hrounds, hnext, hsigns⟩ :=
    hinside.run_cuts h options (Nat.lt_succ_self _)
  obtain ⟨rounds, rfl⟩ : ∃ r, rounds = r + 1 := ⟨rounds - 1, by omega⟩
  have hbefore : next.Before last [] := ⟨hnext.rest_eq, hnext.surroundings_eq, hnext.previous_eq⟩
  obtain ⟨final, hresult, hfinal⟩ := hbefore.run_end (.inl rfl) options rounds
  refine ⟨next.tokenList, final, ?_, congrArg Sign.kind hfinal, hsigns⟩
  rw [← hresult, ← hrun, List.append_nil]
  rfl

end SignalView
