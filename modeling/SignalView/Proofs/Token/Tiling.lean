import Mathlib.Data.List.Induction
import SignalView.Proofs.Token.Gap
import SignalView.Proofs.Token.Spelling

/-!
# Lossless token streams

The tokens of a strict run tile the source: nothing but white space and comments lies between
them, each knows its place and whether a line ended in front of it, and each is spelled by its
slice of the source. The invariant of the run says this of the tokens so far, that the cursor
stands where the last of them ends, and that the surroundings are those which the kinds of the
tokens leave behind. One round of the run passes a gap and adds one token.
-/

namespace SignalView

/-! ## Tilings -/

/-- The offset behind the last of some tokens. -/
def endOf (tokens : List Token) : Nat := (tokens.getLast?.map (·.stop)).getD 0

/-- The surroundings behind some tokens. -/
def surroundingsOf (tokens : List Token) : List Surrounding :=
  (tokens.map (·.kind)).foldl Surrounding.after []

/-- A token at its place behind the tokens before it. -/
structure Token.Placed (source : Bytes) (before : List Token) (token : Token) : Prop where
  behind : endOf before ≤ token.start.offset
  ordered : token.start.offset ≤ token.stop
  inside : token.stop ≤ source.length
  nonempty : token.kind ≠ .eof → token.start.offset < token.stop
  gap : Gap (token.kind == .eof) (slice source (endOf before) token.start.offset)
  newline : token.newlineBefore = true ↔ 10 ∈ slice source (endOf before) token.start.offset
  line : token.start.line = 1 + (source.take token.start.offset).count 10
  column : token.start.column =
    1 + ((source.take token.start.offset).reverse.takeWhile (· != 10)).length
  spells : Spells (Surrounding.inTag (surroundingsOf before)) token.kind token.value
    (slice source token.start.offset token.stop)

/-- Tokens that tile the beginning of a source. -/
def Tiles (source : Bytes) (tokens : List Token) : Prop :=
  ∀ before token after, tokens = before ++ token :: after → Token.Placed source before token

/-- Tokens that tile a source up to its end. -/
structure IsTiling (source : Bytes) (tokens : List Token) : Prop where
  tiles : Tiles source tokens
  increasing : tokens.Pairwise fun a b ↦ a.stop ≤ b.start.offset ∧ a.start.offset < b.start.offset
  last : ∃ front final, tokens = front ++ [final] ∧ final.kind = .eof ∧
    final.start.offset = source.length ∧ final.stop = source.length ∧
    ∀ token ∈ front, token.kind ≠ .eof

/-- A token starts at the place of its offset. -/
theorem Token.Placed.start_eq {source : Bytes} {before : List Token} {token : Token}
    (h : token.Placed source before) :
    token.start = .ofOffset source token.start.offset := by
  rw [Position.ofOffset, ← h.line, ← h.column]

/-- A token ends at the place of its offset unless it is spread over lines. -/
theorem Token.Placed.stopPosition_eq_iff {source : Bytes} {before : List Token} {token : Token}
    (h : token.Placed source before) :
    token.stopPosition = .ofOffset source token.stop ↔
      10 ∉ slice source token.start.offset token.stop := by
  rw [← Position.ofOffset_eq_iff h.ordered h.inside, Token.stopPosition, h.start_eq]
  rfl

@[simp]
theorem endOf_concat (tokens : List Token) (token : Token) :
    endOf (tokens ++ [token]) = token.stop := by
  simp [endOf]

@[simp]
theorem surroundingsOf_concat (tokens : List Token) (token : Token) :
    surroundingsOf (tokens ++ [token]) =
      Surrounding.after (surroundingsOf tokens) token.kind := by
  simp [surroundingsOf]

theorem Tiles.nil (source : Bytes) : Tiles source [] := by
  intro before token after h
  simp at h

/-- What holds of every token behind those in front of it still does with one more token. -/
theorem forall_behind_concat {P : List Token → Token → Prop} {tokens : List Token} {token : Token}
    (htokens : ∀ before other after, tokens = before ++ other :: after → P before other)
    (htoken : P tokens token) :
    ∀ before other after, tokens ++ [token] = before ++ other :: after → P before other := by
  intro before other after h
  rcases List.eq_nil_or_concat after with rfl | ⟨after, last, rfl⟩
  · obtain ⟨rfl, hlast⟩ := List.append_inj' h rfl
    obtain rfl := List.singleton_inj.mp hlast
    exact htoken
  · rw [List.concat_eq_append, ← List.cons_append, ← List.append_assoc] at h
    exact htokens _ _ _ (List.append_inj' h rfl).1

theorem Tiles.concat {source : Bytes} {tokens : List Token} {token : Token}
    (htokens : Tiles source tokens) (htoken : token.Placed source tokens) :
    Tiles source (tokens ++ [token]) :=
  forall_behind_concat htokens htoken

theorem Tiles.of_concat {source : Bytes} {tokens : List Token} {token : Token}
    (h : Tiles source (tokens ++ [token])) :
    Tiles source tokens ∧ token.Placed source tokens := by
  refine ⟨fun before other after hother ↦ ?_, h _ _ _ rfl⟩
  have hlonger : tokens ++ [token] = before ++ other :: (after ++ [token]) := by
    rw [hother, List.append_assoc, List.cons_append]
  exact h _ _ _ hlonger

theorem Tiles.stop_le_endOf {source : Bytes} {tokens : List Token} (htokens : Tiles source tokens)
    {token : Token} (h : token ∈ tokens) : token.stop ≤ endOf tokens := by
  induction tokens using List.reverseRecOn with
  | nil => simp at h
  | append_singleton tokens last ih =>
    obtain ⟨hfront, hlast⟩ := htokens.of_concat
    rw [endOf_concat]
    rcases List.mem_append.mp h with hmem | hmem
    · calc
        token.stop ≤ endOf tokens := ih hfront hmem
        _ ≤ last.start.offset := hlast.behind
        _ ≤ last.stop := hlast.ordered
    · exact Nat.le_of_eq (congrArg _ (List.mem_singleton.mp hmem))

/-- Tokens that tile a source follow each other; only the last may be the one that marks the end. -/
theorem Tiles.pairwise {source : Bytes} {front : List Token} {final : Token}
    (htokens : Tiles source (front ++ [final])) (hkinds : ∀ token ∈ front, token.kind ≠ .eof) :
    (front ++ [final]).Pairwise fun a b ↦
      a.stop ≤ b.start.offset ∧ a.start.offset < b.start.offset := by
  induction front using List.reverseRecOn generalizing final with
  | nil => simp
  | append_singleton front last ih =>
    obtain ⟨hfront, hfinal⟩ := htokens.of_concat
    rw [List.pairwise_append]
    refine ⟨ih hfront fun token h ↦ hkinds token (by simp [h]), by simp, ?_⟩
    intro a ha b hb
    obtain rfl := List.mem_singleton.mp hb
    have hstop := Nat.le_trans (hfront.stop_le_endOf ha) hfinal.behind
    obtain ⟨before, after, heq⟩ := List.append_of_mem ha
    have hstart := (hfront _ _ _ heq).nonempty (hkinds a ha)
    exact ⟨hstop, Nat.lt_of_lt_of_le hstart hstop⟩

namespace Lexer

/-! ## The invariant of the run -/

/-- A run behind a token. -/
structure Tiled (source : Bytes) (lexer : Lexer) : Prop where
  cursor_at : lexer.cursor.At source (endOf lexer.tokenList)
  newline : lexer.newlinePending = false
  surroundings_eq : lexer.surroundings = surroundingsOf lexer.tokenList
  tiles : Tiles source lexer.tokenList
  kinds : ∀ token ∈ lexer.tokenList, token.kind ≠ .eof

/-- A run behind a gap, in front of a token that starts at an offset. -/
structure Ready (source : Bytes) (offset : Nat) (lexer : Lexer) : Prop where
  cursor_at : lexer.cursor.At source offset
  behind : endOf lexer.tokenList ≤ offset
  gap : Gap lexer.cursor.rest.isEmpty (slice source (endOf lexer.tokenList) offset)
  newline : lexer.newlinePending = (slice source (endOf lexer.tokenList) offset).contains 10
  surroundings_eq : lexer.surroundings = surroundingsOf lexer.tokenList
  tiles : Tiles source lexer.tokenList
  kinds : ∀ token ∈ lexer.tokenList, token.kind ≠ .eof

variable {options : LexerOptions} {source : Bytes} {lexer : Lexer} {offset : Nat}

theorem Tiled.ofSource (source : Bytes) : Tiled source (.ofSource source) where
  cursor_at := .start source
  newline := rfl
  surroundings_eq := rfl
  tiles := Tiles.nil source
  kinds := by simp [tokenList, Lexer.ofSource]

/-- Between tags nothing is passed over. -/
theorem Tiled.ready (h : Tiled source lexer) : Ready source (endOf lexer.tokenList) lexer where
  cursor_at := h.cursor_at
  behind := Nat.le_refl _
  gap := by simpa using Gap.nil
  newline := by simpa using h.newline
  surroundings_eq := h.surroundings_eq
  tiles := h.tiles
  kinds := h.kinds

theorem report_failure (hstrict : options.mode = .strict) (lexer : Lexer) (fault : LexicalFault)
    (start : Position) : (report options lexer fault start).failure ≠ none := by
  simp [report, hstrict]

theorem skipTrivia_ready (hstrict : options.mode = .strict) (h : Tiled source lexer)
    (hnone : (skipTrivia options lexer).failure = none) :
    ∃ length, Ready source (endOf lexer.tokenList + length) (skipTrivia options lexer).lexer := by
  unfold skipTrivia at hnone ⊢
  split at hnone
  · next length newline htrivia =>
    obtain ⟨gap, after, hrest, hlength, hnewline, hgap⟩ := triviaFrom_eq_space htrivia
    rw [Nat.zero_add] at hlength
    have hcursor : (Cursor.advanceBy length lexer.cursor).At source
        (endOf lexer.tokenList + length) := by
      apply h.cursor_at.advanceBy
      rw [hrest, hlength]
      simp
    have hslice : slice source (endOf lexer.tokenList) (endOf lexer.tokenList + length) = gap := by
      rw [← h.cursor_at.take_rest, hrest, hlength, List.take_left]
    have hafter : (Cursor.advanceBy length lexer.cursor).rest = after := by
      rw [hcursor.rest_eq, ← List.drop_drop, ← h.cursor_at.rest_eq, hrest, hlength, List.drop_left]
    refine ⟨length, ⟨hcursor, Nat.le_add_right _ _, ?_, ?_,
      h.surroundings_eq, h.tiles, h.kinds⟩⟩
    · change Gap (Cursor.advanceBy length lexer.cursor).rest.isEmpty
        (slice source (endOf lexer.tokenList) (endOf lexer.tokenList + length))
      rw [hslice, hafter]
      exact hgap
    · change newline = (slice source (endOf lexer.tokenList) _).contains 10
      rw [hslice, hnewline, h.newline, Bool.false_or]
  · exact absurd hnone (report_failure hstrict _ _ _)

/-- The token of a lexeme that starts at the cursor. -/
def tokenAhead (lexer : Lexer) (kind : TokenKind) (value : Bytes) (stop : Nat) : Token :=
  { kind := kind, value := value, start := lexer.cursor.position, stop := stop
    newlineBefore := lexer.newlinePending }

/-- The token that reaches from the place of a run over some of the bytes ahead is at its place. -/
theorem Ready.placed (h : Ready source offset lexer) (kind : TokenKind) (value : Bytes)
    {length : Nat} (hlength : length ≤ lexer.cursor.rest.length)
    (hkind : if kind = .eof then lexer.cursor.rest = [] else 0 < length ∧ lexer.cursor.rest ≠ [])
    (hspells : Spells (Surrounding.inTag lexer.surroundings) kind value
      (lexer.cursor.rest.take length)) :
    Token.Placed source lexer.tokenList (lexer.tokenAhead kind value (offset + length)) := by
  have hposition := h.cursor_at.position_eq
  have hoffset : lexer.cursor.position.offset = offset := by rw [hposition]; rfl
  have hgap : lexer.cursor.rest.isEmpty = (kind == .eof) := by
    split at hkind
    · next heof => simp [hkind, heof]
    · next hne => rw [List.isEmpty_eq_false_iff.mpr hkind.2, beq_eq_false_iff_ne.mpr hne]
  unfold tokenAhead
  refine ⟨?_, ?_, ?_, ?_, ?_, ?_, ?_, ?_, ?_⟩
  · rw [hoffset]
    exact h.behind
  · dsimp only
    omega
  · have := h.cursor_at.length_rest
    dsimp only
    omega
  · intro hne
    rw [if_neg hne] at hkind
    dsimp only
    omega
  · rw [hoffset, ← hgap]
    exact h.gap
  · rw [hoffset, h.newline]
    exact List.contains_iff_mem
  · rw [hposition]
    rfl
  · rw [hposition]
    rfl
  · rw [hoffset, ← h.surroundings_eq, ← h.cursor_at.take_rest]
    exact hspells

/-! ## A round and the run -/

theorem scan_sound (hrest : lexer.cursor.rest ≠ []) :
    lexer.scan.Sound lexer.surroundings lexer.cursor.rest := by
  unfold scan
  split
  · next outer houter =>
    rw [houter]
    exact Scan.children_sound hrest
  · next closing outer houter =>
    rw [houter]
    exact Scan.tag_sound hrest
  · next hchildren htag =>
    apply Scan.code_sound hrest
    · unfold Surrounding.inTag
      split
      · next closing outer houter => exact absurd houter (htag closing outer)
      · rfl
    · intro hhead
      obtain ⟨outer, houter⟩ := List.head?_eq_some_iff.mp hhead
      exact hchildren outer houter

@[simp]
theorem tokenList_push (lexer : Lexer) (kind : TokenKind) (value : Bytes) (start : Position) :
    (lexer.push kind value start).tokenList =
      lexer.tokenList ++ [{
        kind := kind, value := value, start := start, stop := lexer.cursor.position.offset
        newlineBefore := lexer.newlinePending }] := by
  simp [push, tokenList]

theorem Ready.tokenList_accept (h : Ready source offset lexer) {kind : TokenKind} {value : Bytes}
    {length : Nat} (hlength : length ≤ lexer.cursor.rest.length)
    (surroundings : List Surrounding) :
    (accept options lexer ⟨.token kind value length, surroundings⟩).lexer.tokenList =
      lexer.tokenList ++ [lexer.tokenAhead kind value (offset + length)] := by
  have hstop : (Cursor.advanceBy length lexer.cursor).position.offset = offset + length := by
    rw [(h.cursor_at.advanceBy hlength).position_eq]
    rfl
  simp only [accept, tokenList_push, Lexeme.length, hstop]
  rfl

theorem accept_tiled (hstrict : options.mode = .strict) (h : Ready source offset lexer)
    (hrest : lexer.cursor.rest ≠ [])
    (hnone : (accept options lexer lexer.scan).failure = none) :
    ∃ kind value length, lexer.scan.lexeme = .token kind value length ∧
      (accept options lexer lexer.scan).lexer.tokenList =
        lexer.tokenList ++ [lexer.tokenAhead kind value (offset + length)] ∧
      Tiled source (accept options lexer lexer.scan).lexer ∧
      (accept options lexer lexer.scan).lexer.cursor.rest.length < lexer.cursor.rest.length := by
  have hsound := scan_sound hrest
  generalize lexer.scan = scanned at hsound hnone
  obtain ⟨lexeme, surroundings⟩ := scanned
  cases lexeme with
  | fault cause length => exact absurd hnone (report_failure hstrict _ _ _)
  | token kind value length =>
    obtain ⟨⟨hpos, hlength, hspells⟩, hkind, hsurroundings⟩ := hsound
    have hkind := hkind rfl
    have hcursor := h.cursor_at.advanceBy hlength
    have hplaced := h.placed kind value hlength (by rw [if_neg hkind]; exact ⟨hpos, hrest⟩)
      hspells
    have hlist :
        (accept options lexer ⟨.token kind value length, surroundings⟩).lexer.tokenList = _ :=
      h.tokenList_accept hlength surroundings
    refine ⟨kind, value, length, rfl, hlist, ⟨?_, rfl, ?_, ?_, ?_⟩, ?_⟩
    · rw [hlist, endOf_concat]
      exact hcursor
    · rw [hlist, surroundingsOf_concat, ← h.surroundings_eq]
      exact hsurroundings rfl
    · rw [hlist]
      exact h.tiles.concat hplaced
    · rw [hlist]
      intro token hmem
      rcases List.mem_append.mp hmem with hmem | hmem
      · exact h.kinds token hmem
      · rw [List.mem_singleton.mp hmem]
        exact hkind
    · have hbefore := h.cursor_at.length_rest
      have hafter := hcursor.length_rest
      change (Cursor.advanceBy length lexer.cursor).rest.length < _
      omega

/-- A strict run ends outside of tags and elements only. -/
theorem finish_eq_push (hstrict : options.mode = .strict)
    (hnone : (finish options lexer).failure = none) :
    finish options lexer = ⟨lexer.push .eof [] lexer.cursor.position, none⟩ := by
  unfold finish at hnone ⊢
  cases hsurroundings : lexer.surroundings with
  | nil => rfl
  | cons surrounding outer =>
    rw [hsurroundings] at hnone
    cases surrounding with
    | children => simp [report, hstrict] at hnone
    | tag closing => simp [report, hstrict] at hnone
    | _ => rfl

theorem finish_isTiling (hstrict : options.mode = .strict) (h : Ready source offset lexer)
    (hrest : lexer.cursor.rest = []) (hnone : (finish options lexer).failure = none) :
    IsTiling source (finish options lexer).lexer.tokenList := by
  obtain rfl : offset = source.length := by
    have := h.cursor_at.length_rest
    rwa [hrest] at this
  have hoffset : lexer.cursor.position.offset = source.length := by
    rw [h.cursor_at.position_eq]
    rfl
  have hplaced := h.placed .eof [] (Nat.zero_le _)
    (by rwa [if_pos rfl]) rfl
  have htiles := h.tiles.concat hplaced
  rw [finish_eq_push hstrict hnone, tokenList_push, hoffset]
  exact ⟨htiles, htiles.pairwise h.kinds, _, _, rfl, rfl, hoffset, rfl, h.kinds⟩

theorem skipTrivia_tokenList (hnone : (skipTrivia options lexer).failure = none)
    (hstrict : options.mode = .strict) :
    (skipTrivia options lexer).lexer.tokenList = lexer.tokenList := by
  unfold skipTrivia at hnone ⊢
  split at hnone
  · rfl
  · exact absurd hnone (report_failure hstrict _ _ _)

/-- Every round passes a gap and adds a token, until the end of the source is reached. What the
tokens keep from round to round holds of all of them in the end. -/
theorem run_eq_finish (hstrict : options.mode = .strict) {I : List Token → Prop}
    (hstep : ∀ {lexer : Lexer} {offset : Nat} {kind : TokenKind} {value : Bytes} {length : Nat},
      Ready source offset lexer → lexer.scan.lexeme = .token kind value length →
      I lexer.tokenList → I (lexer.tokenList ++ [lexer.tokenAhead kind value (offset + length)]))
    {rounds : Nat} (h : Tiled source lexer) (hkept : I lexer.tokenList)
    (hrounds : lexer.cursor.rest.length < rounds)
    (hnone : (run options rounds lexer).failure = none) :
    ∃ last offset, run options rounds lexer = finish options last ∧ Ready source offset last ∧
      last.cursor.rest = [] ∧ I last.tokenList := by
  induction rounds generalizing lexer with
  | zero => exact absurd hrounds (Nat.not_lt_zero _)
  | succ rounds ih =>
    unfold run at hnone ⊢
    dsimp only at hnone ⊢
    generalize hready : (if lexer.inChildren then (⟨lexer, none⟩ : LexerStep)
      else skipTrivia options lexer) = ready at hnone ⊢
    cases hfailure : ready.failure with
    | some failure =>
      rw [hfailure] at hnone
      exact absurd (hfailure.symm.trans hnone) nofun
    | none =>
      simp only [hfailure] at hnone ⊢
      obtain ⟨length, hoffset, htokens⟩ :
          ∃ length, Ready source (endOf lexer.tokenList + length) ready.lexer ∧
            ready.lexer.tokenList = lexer.tokenList := by
        subst hready
        split
        · exact ⟨0, h.ready, rfl⟩
        · next hchildren =>
          rw [if_neg hchildren] at hfailure
          obtain ⟨length, hoffset⟩ := skipTrivia_ready hstrict h hfailure
          exact ⟨length, hoffset, skipTrivia_tokenList hfailure hstrict⟩
      rw [← htokens] at hkept
      by_cases hend : ready.lexer.cursor.atEnd = true
      · rw [if_pos hend]
        exact ⟨_, _, rfl, hoffset, by simpa [Cursor.atEnd] using hend, hkept⟩
      · rw [if_neg hend] at hnone ⊢
        cases hnext : (accept options ready.lexer ready.lexer.scan).failure with
        | some failure =>
          rw [hnext] at hnone
          exact absurd (hnext.symm.trans hnone) nofun
        | none =>
          simp only [hnext] at hnone ⊢
          obtain ⟨kind, value, length, hscan, hlist, htiled, hshorter⟩ :=
            accept_tiled hstrict hoffset (by simpa [Cursor.atEnd] using hend) hnext
          have hbefore := h.cursor_at.length_rest
          have hbehind := hoffset.cursor_at.length_rest
          refine ih htiled ?_ (by omega) hnone
          rw [hlist]
          exact hstep hoffset hscan hkept

theorem run_isTiling (hstrict : options.mode = .strict) {rounds : Nat} (h : Tiled source lexer)
    (hrounds : lexer.cursor.rest.length < rounds)
    (hnone : (run options rounds lexer).failure = none) :
    IsTiling source (run options rounds lexer).lexer.tokenList := by
  obtain ⟨last, offset, hrun, hready, hrest, -⟩ :=
    run_eq_finish hstrict (I := fun _ ↦ True) (fun _ _ _ ↦ trivial) h trivial hrounds hnone
  rw [hrun] at hnone ⊢
  exact finish_isTiling hstrict hready hrest hnone

end Lexer

/-- A strict run that returns has cut the source into its tokens without loss. -/
theorem tokenize_isTiling {options : LexerOptions} {source : Bytes} {tokens : List Token}
    (hstrict : options.mode = .strict) (h : (tokenize options source).result = .ok tokens) :
    IsTiling source tokens := by
  unfold LexerStep.result at h
  split at h
  · cases h
  · next hnone =>
    obtain rfl := Except.ok.inj h
    exact Lexer.run_isTiling hstrict (.ofSource source) (Nat.lt_succ_self _) hnone

theorem tokenize_isTiling_tag :
    let source := bytes "/*!*/\n<a b='c'/> // d"
    let tokens : List Token := [
      { kind := .mark .tagOpen, value := bytes "<", start := ⟨2, 1, 6⟩, stop := 7
        newlineBefore := true },
      { kind := .identifier, value := bytes "a", start := ⟨2, 2, 7⟩, stop := 8 },
      { kind := .identifier, value := bytes "b", start := ⟨2, 4, 9⟩, stop := 10 },
      { kind := .mark .assign, value := bytes "=", start := ⟨2, 5, 10⟩, stop := 11 },
      { kind := .string, value := bytes "c", start := ⟨2, 6, 11⟩, stop := 14 },
      { kind := .mark .tagSelfClose, value := bytes "/>", start := ⟨2, 9, 14⟩, stop := 16 },
      { kind := .eof, start := ⟨2, 16, 21⟩, stop := 21 }]
    (tokenize {} source).result = .ok tokens ∧ IsTiling source tokens := by
  intro source tokens
  have h : (tokenize {} source).result = .ok tokens := by decide +kernel
  exact ⟨h, tokenize_isTiling rfl h⟩

end SignalView
