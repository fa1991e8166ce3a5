import Mathlib.Data.List.Forall2
import SignalView.Proofs.Token.Order
import SignalView.Proofs.Token.Origin

/-!
# Records of faults

A tolerant run keeps a record of every fault and leaves an error token in its place. Behind every
step of the run the records and the error tokens stand for each other, and neither limit has been
passed; a step that passes a limit ends the run with one record more than the limit allows. Every
round moves the cursor, so the number of rounds does not matter once there are more of them than
bytes ahead, and a run that no limit ends comes to the end of the source.
-/

namespace SignalView

/-! ## Places of a cursor -/

namespace Cursor

variable {source : Bytes} {offset : Nat} {cursor : Cursor}

theorem At.offset_eq (h : cursor.At source offset) : cursor.position.offset = offset := by
  rw [h.position_eq]
  rfl

theorem At.rest_eq_nil_iff (h : cursor.At source offset) :
    cursor.rest = [] ↔ offset = source.length := by
  have hlength := h.length_rest
  rw [← List.length_eq_zero_iff]
  omega

/-- At the end of the source a cursor does not move. -/
theorem advanceBy_of_rest_eq_nil (h : cursor.rest = []) (length : Nat) :
    cursor.advanceBy length = cursor := by
  have hadvance : cursor.advance = cursor := by
    unfold advance
    rw [h]
  induction length with
  | zero => rfl
  | succ length ih => rw [advanceBy, hadvance, ih]

/-- However far a cursor is moved, it stays inside the source. -/
theorem At.advanceBy_min (h : cursor.At source offset) (length : Nat) :
    (cursor.advanceBy length).At source (min (offset + length) source.length) := by
  induction length generalizing cursor offset with
  | zero =>
    rw [Nat.add_zero, Nat.min_eq_left h.inside]
    exact h
  | succ length ih =>
    by_cases hrest : cursor.rest = []
    · rw [advanceBy_of_rest_eq_nil hrest]
      have hoffset := h.rest_eq_nil_iff.mp hrest
      rw [Nat.min_eq_right (by omega), ← hoffset]
      exact h
    · have hmoved := ih (h.advance hrest)
      rwa [Nat.add_assoc, Nat.add_comm 1 length] at hmoved

/-- The cursor stands in the source, at an offset or behind it. -/
def Past (source : Bytes) (offset : Nat) (cursor : Cursor) : Prop :=
  ∃ reached, offset ≤ reached ∧ cursor.At source reached

theorem At.past (h : cursor.At source offset) : cursor.Past source offset :=
  ⟨offset, Nat.le_refl offset, h⟩

theorem Past.mono {earlier : Nat} (h : cursor.Past source offset) (hle : earlier ≤ offset) :
    cursor.Past source earlier := by
  obtain ⟨reached, hreached, hat⟩ := h
  exact ⟨reached, Nat.le_trans hle hreached, hat⟩

theorem Past.advanceBy (h : cursor.Past source offset) (length : Nat) :
    (cursor.advanceBy length).Past source offset := by
  obtain ⟨reached, hreached, hat⟩ := h
  have hinside := hat.inside
  exact ⟨_, by omega, hat.advanceBy_min length⟩

end Cursor

/-! ## Tokens behind one another -/

/-- Tokens, the latest first, none of which marks the end: each starts where the one before it
stops or behind that, and all of them stop at an offset or before it. -/
structure Spaced (offset : Nat) (tokens : List Token) : Prop where
  apart : tokens.Pairwise fun later earlier ↦ earlier.stop ≤ later.start.offset
  ordered : ∀ token ∈ tokens, token.start.offset ≤ token.stop
  inside : ∀ token ∈ tokens, token.stop ≤ offset
  kinds : ∀ token ∈ tokens, token.kind ≠ .eof

namespace Spaced

variable {offset later : Nat} {tokens : List Token} {token : Token}

theorem nil (offset : Nat) : Spaced offset [] := ⟨.nil, by simp, by simp, by simp⟩

theorem mono (h : Spaced offset tokens) (hle : offset ≤ later) : Spaced later tokens :=
  ⟨h.apart, h.ordered, fun token htoken ↦ Nat.le_trans (h.inside token htoken) hle, h.kinds⟩

theorem cons (h : Spaced token.start.offset tokens) (hkind : token.kind ≠ .eof)
    (hstart : token.start.offset ≤ token.stop) (hstop : token.stop ≤ offset) :
    Spaced offset (token :: tokens) where
  apart := List.pairwise_cons.mpr ⟨h.inside, h.apart⟩
  ordered := List.forall_mem_cons.mpr ⟨hstart, h.ordered⟩
  inside := List.forall_mem_cons.mpr ⟨hstop, (h.mono (Nat.le_trans hstart hstop)).inside⟩
  kinds := List.forall_mem_cons.mpr ⟨hkind, h.kinds⟩

end Spaced

/-- An error token and the record of its fault: the same message at the same place. -/
structure Token.Records (token : Token) (failure : Failure) : Prop where
  message : token.value = failure.message
  line : token.start.line = failure.line
  column : token.start.column = failure.column
  offset : token.start.offset = failure.offset

/-! ## Balanced books -/

/-- The tokens in front of an offset and the records: they stand for each other in order, and the
limits allow for as many. -/
structure Balanced (options : LexerOptions) (offset : Nat) (lexer : Lexer) : Prop where
  spaced : Spaced offset lexer.tokens
  records : List.Forall₂ Token.Records (lexer.tokens.filter (·.kind == .error)) lexer.errors
  recoveries : lexer.recoveries = lexer.errors.length
  errors_le : (lexer.errors.length : Int) ≤ options.maxErrors
  recoveries_le : (lexer.errors.length : Int) ≤ options.maxRecoveries

/-- The failure of a run that has passed a limit. -/
def Overdrawn (options : LexerOptions) (failure : Failure) (records : Nat) : Prop :=
  (failure.code = bytes "PSR-L010" ∧ (records : Int) = options.maxErrors + 1) ∨
    (failure.code = bytes "PSR-L011" ∧ (records : Int) = options.maxRecoveries + 1)

/-- A step that comes to an offset or gets further, and behind which the books are balanced, or one
that has passed a limit. -/
inductive LexerStep.Accounts (options : LexerOptions) (source : Bytes) (offset : Nat) :
    LexerStep → Prop
  | balanced {lexer : Lexer} {reached : Nat} :
    offset ≤ reached → lexer.cursor.At source reached → Balanced options reached lexer →
      Accounts options source offset ⟨lexer, none⟩
  | overdrawn {lexer : Lexer} {failure : Failure} :
    Overdrawn options failure lexer.errors.length →
      Accounts options source offset ⟨lexer, some failure⟩

theorem LexerStep.Accounts.mono {options : LexerOptions} {source : Bytes} {earlier offset : Nat}
    {step : LexerStep} (h : step.Accounts options source offset) (hle : earlier ≤ offset) :
    step.Accounts options source earlier := by
  cases h with
  | balanced hoffset hcursor hbalanced =>
    exact .balanced (Nat.le_trans hle hoffset) hcursor hbalanced
  | overdrawn hfailure => exact .overdrawn hfailure

namespace Lexer

variable {options : LexerOptions} {source : Bytes} {lexer : Lexer} {offset reached : Nat}

/-! ## Steps -/

/-- Reading goes on behind the start of a fault, unless that is the end of the source. -/
theorem recoveryPoint_past {start : Position} {cursor : Cursor}
    (h : cursor.Past source start.offset) (mode : LexerMode) :
    (recoveryPoint mode start cursor).Past source (min (start.offset + 1) source.length) := by
  obtain ⟨reached, hreached, hat⟩ := h
  have hstep : (if cursor.position.offset == start.offset then cursor.advance else cursor).Past
      source (min (start.offset + 1) source.length) := by
    split
    · next heq =>
      have hoffset : reached = start.offset := by
        rw [← hat.offset_eq]
        exact eq_of_beq heq
      rw [← hoffset]
      exact (hat.advanceBy_min 1).past
    · next hne =>
      have hoffset : reached ≠ start.offset := by
        rw [← hat.offset_eq]
        simpa using hne
      exact hat.past.mono (by omega)
  unfold recoveryPoint passWhile
  dsimp only
  split
  · exact hstep.advanceBy _
  · exact hstep

/-- A report adds an error token together with its record, or passes a limit. -/
theorem report_accounts {start : Position} (hmode : options.mode ≠ .strict)
    (h : Balanced options start.offset lexer) (hcursor : lexer.cursor.Past source start.offset)
    (fault : LexicalFault) :
    (report options lexer fault start).Accounts options source
      (min (start.offset + 1) source.length) := by
  obtain ⟨reached, hreached, hat⟩ := recoveryPoint_past hcursor options.mode
  have hstart : start.offset ≤ reached := by
    obtain ⟨place, hplace, hcursor⟩ := hcursor
    have := hcursor.inside
    omega
  have herrors := h.errors_le
  have hrecoveries := h.recoveries_le
  have hcount := h.recoveries
  unfold report
  dsimp only
  rw [if_neg (by simpa using hmode)]
  split
  · next hlimit =>
    rw [List.length_cons] at hlimit
    refine .overdrawn (.inl ⟨rfl, ?_⟩)
    rw [List.length_cons]
    omega
  · next hlimit =>
    rw [List.length_cons] at hlimit
    split
    · next hmany =>
      refine .overdrawn (.inr ⟨rfl, ?_⟩)
      rw [List.length_cons]
      omega
    · next hmany =>
      refine .balanced hreached hat ⟨?_, .cons ⟨rfl, rfl, rfl, rfl⟩ h.records, ?_, ?_, ?_⟩
      · have hstop : (recoveryPoint options.mode start lexer.cursor).position.offset = reached :=
          hat.offset_eq
        refine Spaced.cons h.spaced nofun ?_ (Nat.le_of_eq hstop)
        rw [hstop]
        exact hstart
      · exact congrArg (· + 1) hcount
      · exact Int.not_lt.mp hlimit
      · refine Int.not_lt.mp fun hmore ↦ hmany ?_
        rwa [hcount]

theorem reachLexeme_accounts (hmode : options.mode ≠ .strict)
    (hcursor : lexer.cursor.At source offset) (h : Balanced options offset lexer) :
    (reachLexeme options lexer).Accounts options source offset := by
  have hat (length : Nat) := hcursor.advanceBy_min length
  have hinside := hcursor.inside
  unfold reachLexeme skipTrivia
  split
  · exact .balanced (Nat.le_refl offset) hcursor h
  split
  · next length newline _ =>
    have hle : offset ≤ min (offset + length) source.length := by omega
    exact .balanced hle (hat length) { h with spaced := h.spaced.mono hle }
  · next first length newline htrivia =>
    have hfirst : first ≤ length := start_le_of_unterminatedComment (by rintro _ ⟨⟩) htrivia
    have hstart := (hat first).offset_eq
    have hbalanced : Balanced options (lexer.cursor.advanceBy first).position.offset
        { lexer with cursor := lexer.cursor.advanceBy length, newlinePending := newline } :=
      { h with spaced := h.spaced.mono (by omega) }
    refine (report_accounts hmode hbalanced ?_ _).mono (by omega)
    exact (hat length).past.mono (by omega)

/-- No scan gives an error token; only reports do. -/
theorem kind_ne_error_of_scan {kind : TokenKind} {value : Bytes} {length : Nat}
    (h : lexer.scan.lexeme = .token kind value length) : kind ≠ .error := by
  rintro rfl
  rcases scan_token h with hcode | hmarkup
  · cases hcode with
    | number _ hscan => rcases Literal.scanNumber_kind hscan with hkind | hkind <;> cases hkind
    | name hname hscan =>
      obtain ⟨text, -, -, htext, -⟩ := Literal.exists_scanName_eq hname _
      rw [htext] at hscan
      rcases (Literal.nameLexeme_eq_token hscan).2 with hkind | ⟨-, w, hkind, -⟩ <;> cases hkind
  · cases hmarkup

theorem accept_accounts (hmode : options.mode ≠ .strict) (hcursor : lexer.cursor.At source offset)
    (h : Balanced options offset lexer) (hrest : lexer.cursor.atEnd = false) :
    (accept options lexer lexer.scan).Accounts options source (offset + 1) := by
  have hrest : lexer.cursor.rest ≠ [] := by simpa [Cursor.atEnd] using hrest
  have hsound : lexer.scan.Sound lexer.surroundings lexer.cursor.rest := scan_sound hrest
  have hlength := hcursor.length_rest
  have hpos := List.length_pos_iff.mpr hrest
  have hoffset := hcursor.offset_eq
  unfold accept
  dsimp only
  split
  · next kind value length hscan =>
    have hreads := hsound.reads
    rw [hscan] at hreads ⊢
    have hat : (lexer.cursor.advanceBy length).At source (offset + length) :=
      hcursor.advanceBy hreads.2.1
    have hstop := hat.offset_eq
    have hkind := hsound.kind_ne hscan
    refine .balanced (by have := hreads.1; omega) hat ⟨?_, ?_, h.recoveries, h.errors_le,
      h.recoveries_le⟩
    · refine Spaced.cons (h.spaced.mono hoffset.ge) hkind ?_ hstop.le
      exact hoffset.le.trans ((Nat.le_add_right offset length).trans hstop.ge)
    · have hfilter : (kind == .error) = false := beq_false_of_ne (kind_ne_error_of_scan hscan)
      simpa [push, hfilter] using h.records
  · have hbalanced : Balanced options lexer.cursor.position.offset
        { lexer with
          cursor := lexer.cursor.advanceBy lexer.scan.lexeme.length
          surroundings := lexer.scan.surroundings } :=
      { h with spaced := h.spaced.mono hoffset.ge }
    refine (report_accounts hmode hbalanced ?_ _).mono (by omega)
    exact hoffset ▸ hcursor.past.advanceBy _

theorem closeMarkup_accounts (hmode : options.mode ≠ .strict)
    (hcursor : lexer.cursor.At source offset) (h : Balanced options offset lexer) :
    (closeMarkup options lexer).Accounts options source offset := by
  have hinside := hcursor.inside
  have hreport (fault : LexicalFault) :
      (report options lexer fault lexer.cursor.position).Accounts options source offset := by
    have hoffset := hcursor.offset_eq
    refine (report_accounts hmode ?_ ?_ fault).mono (by omega)
    · rwa [hoffset]
    · rw [hoffset]
      exact hcursor.past
  unfold closeMarkup
  split
  · exact hreport _
  · exact hreport _
  · exact .balanced (Nat.le_refl offset) hcursor h

/-! ## The run -/

/-- How a run can end: at the end of the source with balanced books, or past a limit. -/
inductive Ends (options : LexerOptions) (source : Bytes) : LexerStep → Prop
  | returned {last : Lexer} : last.cursor.At source source.length →
    Balanced options source.length last → Ends options source last.pushEnd
  | stopped {last : Lexer} {failure : Failure} :
    Overdrawn options failure last.errors.length → Ends options source ⟨last, some failure⟩

/-- Every round gets further or ends the run, so that all numbers of rounds above the number of
bytes ahead come to the same end. -/
theorem run_ends (hmode : options.mode ≠ .strict) (hcursor : lexer.cursor.At source offset)
    (h : Balanced options offset lexer) :
    ∃ step, Ends options source step ∧
      ∀ rounds, lexer.cursor.rest.length < rounds → run options rounds lexer = step := by
  induction hlength : lexer.cursor.rest.length using Nat.strong_induction_on
    generalizing lexer offset with
  | _ length ih =>
    suffices hround : ∃ step, Ends options source step ∧
        ∀ rounds, length ≤ rounds → run options (rounds + 1) lexer = step by
      obtain ⟨step, hends, hrun⟩ := hround
      refine ⟨step, hends, fun rounds hrounds ↦ ?_⟩
      rw [← hrun (rounds - 1) (by omega), Nat.sub_add_cancel (by omega)]
    simp only [run_succ_eq]
    have hreach := reachLexeme_accounts hmode hcursor h
    generalize reachLexeme options lexer = step at hreach ⊢
    cases hreach with
    | overdrawn hfailure => exact ⟨_, .stopped hfailure, fun _ _ ↦ rfl⟩
    | @balanced ready reached hreached hready hbalanced =>
      simp only [LexerStep.andThen_none]
      by_cases hend : ready.cursor.atEnd = true
      · have hlast : reached = source.length :=
          hready.rest_eq_nil_iff.mp (by simpa [Cursor.atEnd] using hend)
        simp only [if_pos hend, finish_eq]
        have hclose := closeMarkup_accounts hmode hready hbalanced
        generalize closeMarkup options ready = step at hclose ⊢
        cases hclose with
        | overdrawn hfailure => exact ⟨_, .stopped hfailure, fun _ _ ↦ rfl⟩
        | @balanced last place hplace hcursor hbooks =>
          obtain rfl : place = source.length := Nat.le_antisymm hcursor.inside (hlast ▸ hplace)
          exact ⟨_, .returned hcursor hbooks, fun _ _ ↦ rfl⟩
      · simp only [if_neg hend]
        have haccept := accept_accounts hmode hready hbalanced (by simpa using hend)
        generalize accept options ready ready.scan = step at haccept ⊢
        cases haccept with
        | overdrawn hfailure => exact ⟨_, .stopped hfailure, fun _ _ ↦ rfl⟩
        | @balanced next place hplace hnext hbooks =>
          have hbefore := hcursor.length_rest
          have hbehind := hnext.length_rest
          obtain ⟨step, hends, hrun⟩ := ih next.cursor.rest.length (by omega) hnext hbooks rfl
          exact ⟨step, hends, fun rounds hrounds ↦ hrun rounds (by omega)⟩

end Lexer

/-! ## Whole token streams -/

/-- Tokens that stand in a source one behind the other, up to the one that marks its end. -/
structure InPlace (source : Bytes) (tokens : List Token) : Prop where
  apart : tokens.Pairwise fun earlier later ↦ earlier.stop ≤ later.start.offset
  ordered : ∀ token ∈ tokens, token.start.offset ≤ token.stop
  inside : ∀ token ∈ tokens, token.stop ≤ source.length
  last : ∃ front final, tokens = front ++ [final] ∧ final.kind = .eof ∧
    final.start.offset = source.length ∧ ∀ token ∈ front, token.kind ≠ .eof

theorem Spaced.inPlace {source : Bytes} {tokens : List Token} {final : Token}
    (h : Spaced source.length tokens) (hkind : final.kind = .eof)
    (hstart : final.start.offset = source.length) (hstop : final.stop = source.length) :
    InPlace source (tokens.reverse ++ [final]) where
  apart := by
    rw [List.pairwise_append, List.pairwise_reverse]
    refine ⟨h.apart, List.pairwise_singleton _ _, fun token htoken last hlast ↦ ?_⟩
    rw [List.mem_singleton.mp hlast, hstart]
    exact h.inside token (List.mem_reverse.mp htoken)
  ordered token htoken := by
    rcases List.mem_append.mp htoken with hfront | hlast
    · exact h.ordered token (List.mem_reverse.mp hfront)
    · rw [List.mem_singleton.mp hlast, hstart, hstop]
  inside token htoken := by
    rcases List.mem_append.mp htoken with hfront | hlast
    · exact h.inside token (List.mem_reverse.mp hfront)
    · rw [List.mem_singleton.mp hlast, hstop]
  last := ⟨_, final, rfl, hkind, hstart, by simpa using h.kinds⟩

/-- The tokens and the records of a run that has returned: error tokens and records stand for each
other in order, and there are at most as many as both limits allow. -/
structure Settled (options : LexerOptions) (source : Bytes) (tokens : List Token)
    (records : List Failure) : Prop where
  matched : List.Forall₂ Token.Records (tokens.filter (·.kind == .error)) records
  errors_le : (records.length : Int) ≤ options.maxErrors
  recoveries_le : (records.length : Int) ≤ options.maxRecoveries
  inPlace : InPlace source tokens

/-- A tolerant run keeps exact books. It returns with tokens and records that settle, or it ends
past one of the limits, with one record more than that limit allows. It always does one or the
other, and comes to the same in whatever number of rounds above the number of bytes. -/
theorem tokenize_keeps_records {options : LexerOptions} (hmode : options.mode ≠ .strict)
    (herrors : 0 ≤ options.maxErrors) (hrecoveries : 0 ≤ options.maxRecoveries) (source : Bytes) :
    let step := tokenize options source
    let records := step.lexer.errorList
    ((∃ tokens, step.result = .ok tokens ∧ Settled options source tokens records) ∨
      ∃ failure, step.result = .error failure ∧ Overdrawn options failure records.length) ∧
    ∀ rounds, source.length < rounds → Lexer.run options rounds (.ofSource source) = step := by
  have hstart : Balanced options 0 (.ofSource source) :=
    ⟨.nil 0, .nil, rfl, herrors, hrecoveries⟩
  obtain ⟨step, hends, hrun⟩ := Lexer.run_ends hmode (.start source) hstart
  have htokenize : tokenize options source = step := hrun _ (Nat.lt_succ_self _)
  rw [htokenize]
  refine ⟨?_, hrun⟩
  cases hends with
  | stopped hfailure =>
    refine .inr ⟨_, rfl, ?_⟩
    rw [Lexer.errorList, List.length_reverse]
    exact hfailure
  | @returned last hcursor hbooks =>
    have hoffset := hcursor.offset_eq
    have htokens : last.pushEnd.lexer.tokenList =
        last.tokens.reverse ++ [last.tokenAhead .eof [] last.cursor.position.offset] :=
      Lexer.tokenList_push ..
    have hrecords : last.pushEnd.lexer.errorList = last.errors.reverse := rfl
    have hcount : last.pushEnd.lexer.errorList.length = last.errors.length := List.length_reverse
    refine .inl ⟨_, rfl, ⟨?_, hcount ▸ hbooks.errors_le, hcount ▸ hbooks.recoveries_le, ?_⟩⟩
    · rw [htokens, hrecords, List.filter_append, List.filter_reverse]
      simpa [Lexer.tokenAhead] using hbooks.records
    · rw [htokens]
      exact hbooks.spaced.inPlace rfl hoffset hoffset

/-- A comment that is never closed, behind a sign that starts no token. -/
theorem tokenize_keeps_records_unclosed :
    let options : LexerOptions := { mode := .collect, maxErrors := 2 }
    let source := bytes "a \x01 /*b"
    let step := tokenize options source
    step.lexer.errorList.map (·.offset) = [2, 4] ∧
    ((∃ tokens, step.result = .ok tokens ∧
        Settled options source tokens step.lexer.errorList) ∨
      ∃ failure, step.result = .error failure ∧
        Overdrawn options failure step.lexer.errorList.length) :=
  ⟨by decide +kernel, (tokenize_keeps_records (by decide) (by decide) (by decide) _).1⟩

end SignalView
