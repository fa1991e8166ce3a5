import Mathlib.Data.Prod.Lex
import SignalView.Proofs.Token.Tiling
import SignalView.Proofs.Token.Tolerance

/-!
# Tokens in order

Whatever faults a run passes over, its tokens stand in order of their lines and columns, and the
last of them, and no other, marks the end.
-/

namespace SignalView

/-! ## Lines and columns -/

/-- The line and the column of a place, in order of lines first. -/
def Position.place (position : Position) : ℤ ×ₗ ℤ := toLex (position.line, position.column)

theorem Position.place_le_after (position : Position) (b : UInt8) :
    position.place ≤ (position.after b).place := by
  rw [place, place, Prod.Lex.toLex_le_toLex]
  unfold Position.after
  split
  · exact .inl (Int.ofNat_lt.mpr (Nat.lt_succ_self _))
  · exact .inr ⟨rfl, Int.ofNat_le.mpr (Nat.le_succ _)⟩

namespace Cursor

theorem place_le_advance (cursor : Cursor) :
    cursor.position.place ≤ cursor.advance.position.place := by
  unfold advance
  split
  · exact le_rfl
  · exact Position.place_le_after _ _

theorem place_le_advanceBy (length : Nat) (cursor : Cursor) :
    cursor.position.place ≤ (advanceBy length cursor).position.place := by
  induction length generalizing cursor with
  | zero => exact le_rfl
  | succ length ih => exact (place_le_advance cursor).trans (ih cursor.advance)

theorem advanceBy_add (n m : Nat) (cursor : Cursor) :
    advanceBy (n + m) cursor = advanceBy m (advanceBy n cursor) := by
  induction n generalizing cursor with
  | zero => rw [Nat.zero_add, advanceBy]
  | succ n ih => rw [Nat.succ_add, advanceBy, ih, advanceBy]

theorem advanceBy_place_mono {n m : Nat} (h : n ≤ m) (cursor : Cursor) :
    (advanceBy n cursor).position.place ≤ (advanceBy m cursor).position.place := by
  obtain ⟨k, rfl⟩ := Nat.exists_eq_add_of_le h
  rw [advanceBy_add]
  exact place_le_advanceBy k _

end Cursor

namespace Lexer

variable {options : LexerOptions} {lexer : Lexer} {position start : Position}

theorem place_le_recoveryPoint (mode : LexerMode) (start : Position) (cursor : Cursor) :
    cursor.position.place ≤ (recoveryPoint mode start cursor).position.place := by
  have hpass (p : UInt8 → Bool) (cursor : Cursor) :
      cursor.position.place ≤ (passWhile p cursor).position.place :=
    Cursor.place_le_advanceBy _ _
  unfold recoveryPoint
  dsimp only
  split <;> split
  · exact (Cursor.place_le_advance cursor).trans (hpass _ _)
  · exact hpass _ _
  · exact Cursor.place_le_advance cursor
  · exact le_rfl

/-- A comment that is never closed starts before the end. -/
theorem start_le_of_unterminatedComment {state : TriviaState} {skip length start length' : Nat}
    {newline newline' : Bool} {text : Bytes}
    (hstate : ∀ start, state = .blockComment start → start ≤ length)
    (h : triviaFrom state skip length newline text = .unterminatedComment start length' newline') :
    start ≤ length' := by
  fun_induction triviaFrom state skip length newline text with
  | case1 =>
    obtain ⟨rfl, rfl, -⟩ := Trivia.unterminatedComment.inj h
    exact hstate _ rfl
  | case2 | case12 => cases h
  | case3 _ _ _ _ _ _ ih | case7 _ _ _ _ _ _ ih =>
    exact ih (fun start hblock ↦ Nat.le_succ_of_le (hstate start hblock)) h
  | case4 _ _ _ _ _ ih | case5 _ _ _ _ _ ih | case6 _ _ _ _ _ _ ih | case8 _ _ _ _ _ ih
  | case9 _ _ _ _ _ _ ih | case10 _ _ _ _ _ _ _ ih => exact ih (by rintro _ ⟨⟩) h
  | case11 _ _ _ _ _ _ _ _ ih =>
    refine ih ?_ h
    rintro _ ⟨⟩
    exact Nat.le_succ _

/-! ## The invariant of a run -/

/-- Tokens, the latest first, that are in order and start at a place or before it; none of them
marks the end. -/
structure InOrder (position : Position) (tokens : List Token) : Prop where
  sorted : tokens.Pairwise fun later earlier ↦ earlier.start.place ≤ later.start.place
  starts : ∀ token ∈ tokens, token.start.place ≤ position.place
  kinds : ∀ token ∈ tokens, token.kind ≠ .eof

variable {tokens : List Token}

theorem InOrder.mono (h : InOrder start tokens) (hle : start.place ≤ position.place) :
    InOrder position tokens :=
  ⟨h.sorted, fun token htoken ↦ (h.starts token htoken).trans hle, h.kinds⟩

theorem InOrder.cons {token : Token} (h : InOrder token.start tokens) (hkind : token.kind ≠ .eof)
    (hle : token.start.place ≤ position.place) : InOrder position (token :: tokens) where
  sorted := List.pairwise_cons.mpr ⟨h.starts, h.sorted⟩
  starts := List.forall_mem_cons.mpr ⟨hle, (h.mono hle).starts⟩
  kinds := List.forall_mem_cons.mpr ⟨hkind, h.kinds⟩

/-- The tokens of a run are in order up to its cursor. -/
def Advancing (lexer : Lexer) : Prop := InOrder lexer.cursor.position lexer.tokens

theorem report_advancing (h : InOrder start lexer.tokens)
    (hstart : start.place ≤ lexer.cursor.position.place) (fault : LexicalFault) :
    (report options lexer fault start).lexer.Advancing := by
  have hlater := h.mono hstart
  unfold report
  dsimp only
  split
  · exact hlater
  · split
    · exact hlater
    · split
      · exact hlater
      · refine InOrder.cons h ?_ (hstart.trans (place_le_recoveryPoint _ _ _))
        rintro ⟨⟩

theorem reachLexeme_advancing (h : lexer.Advancing) :
    (reachLexeme options lexer).lexer.Advancing := by
  unfold reachLexeme skipTrivia
  split
  · exact h
  · split
    · exact h.mono (Cursor.place_le_advanceBy _ _)
    · next first length newline htrivia =>
      refine report_advancing ?_ (Cursor.advanceBy_place_mono ?_ _) _
      · exact h.mono (Cursor.place_le_advanceBy first _)
      · exact start_le_of_unterminatedComment (by rintro _ ⟨⟩) htrivia

theorem accept_advancing (hrest : lexer.cursor.atEnd = false) (h : lexer.Advancing) :
    (accept options lexer lexer.scan).lexer.Advancing := by
  have hsound : lexer.scan.Sound lexer.surroundings lexer.cursor.rest :=
    scan_sound (by simpa [Cursor.atEnd] using hrest)
  have hmoves := Cursor.place_le_advanceBy lexer.scan.lexeme.length lexer.cursor
  unfold accept
  dsimp only
  split
  · next kind value length hscan => exact InOrder.cons h (hsound.kind_ne hscan) hmoves
  · refine report_advancing ?_ hmoves _
    exact h

theorem closeMarkup_advancing (h : lexer.Advancing) :
    (closeMarkup options lexer).lexer.Advancing := by
  unfold closeMarkup
  split
  · exact report_advancing h le_rfl _
  · exact report_advancing h le_rfl _
  · exact h

/-- What the steps of a run preserve unless they end it holds in front of the end of every run that
gets there. -/
theorem run_eq_pushEnd {I : Lexer → Prop}
    (hreach : ∀ lexer, I lexer → (reachLexeme options lexer).failure = none →
      I (reachLexeme options lexer).lexer)
    (haccept : ∀ lexer, lexer.cursor.atEnd = false → I lexer →
      (accept options lexer lexer.scan).failure = none → I (accept options lexer lexer.scan).lexer)
    (hclose : ∀ lexer, I lexer → (closeMarkup options lexer).failure = none →
      I (closeMarkup options lexer).lexer) {rounds : Nat}
    (h : I lexer) (hnone : (run options rounds lexer).failure = none) :
    ∃ last, I last ∧ run options rounds lexer = last.pushEnd := by
  have hfinish {lexer : Lexer} (h : I lexer) (hnone : (finish options lexer).failure = none) :
      ∃ last, I last ∧ finish options lexer = last.pushEnd := by
    have hlast := hclose lexer h
    rw [finish_eq] at hnone ⊢
    generalize closeMarkup options lexer = step at hlast hnone ⊢
    obtain ⟨last, _ | failure⟩ := step
    · exact ⟨last, hlast rfl, rfl⟩
    · cases hnone
  induction rounds generalizing lexer with
  | zero => exact hfinish h hnone
  | succ rounds ih =>
    have hready := hreach lexer h
    rw [run_succ_eq] at hnone ⊢
    generalize reachLexeme options lexer = step at hready hnone ⊢
    obtain ⟨ready, _ | failure⟩ := step
    · rw [LexerStep.andThen_none] at hnone ⊢
      split at hnone
      · next hend =>
        rw [if_pos hend]
        exact hfinish (hready rfl) hnone
      · next hend =>
        rw [if_neg hend]
        have hnext := haccept ready (by simpa using hend) (hready rfl)
        generalize accept options ready ready.scan = step at hnext hnone ⊢
        obtain ⟨next, _ | failure⟩ := step
        · exact ih (hnext rfl) hnone
        · cases hnone
    · cases hnone

end Lexer

/-- The tokens of a run that returns are in order, and the last and no other marks the end. -/
theorem tokenizeFrom_inOrder {options : LexerOptions} {lexer : Lexer} {tokens : List Token}
    (h : (Lexer.tokenizeFrom options lexer).result = .ok tokens) :
    ∃ front final, tokens = front ++ [final] ∧ final.kind = .eof ∧
      (∀ token ∈ front, token.kind ≠ .eof) ∧
      tokens.Pairwise fun earlier later ↦ earlier.start.place ≤ later.start.place := by
  unfold LexerStep.result at h
  split at h
  · cases h
  · next hnone =>
    obtain rfl := Except.ok.inj h
    unfold Lexer.tokenizeFrom at hnone ⊢
    obtain ⟨last, hlast, hrun⟩ := Lexer.run_eq_pushEnd
      (fun _ h _ ↦ Lexer.reachLexeme_advancing h) (fun _ hrest h _ ↦ Lexer.accept_advancing hrest h)
      (fun _ h _ ↦ Lexer.closeMarkup_advancing h) ⟨.nil, by simp, by simp⟩ hnone
    rw [hrun]
    refine ⟨last.tokens.reverse, _, List.reverse_cons, rfl, ?_, ?_⟩
    · simpa using hlast.kinds
    · exact List.pairwise_reverse.mpr (List.pairwise_cons.mpr ⟨hlast.starts, hlast.sorted⟩)

end SignalView
