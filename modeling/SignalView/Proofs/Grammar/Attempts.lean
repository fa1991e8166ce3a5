import SignalView.Proofs.Grammar.Statements

/-!
# The course of a reading

A reading is a course of attempts at statements. Each attempt starts at a place on the tape, and the
next one starts further on: behind the statement that was read, or, when a failure is passed over,
at the place where reading goes on. That place lies behind the start of the failed statement and not
before the place where the failure was noticed.
-/

namespace SignalView

/-! ## The tape of a program -/

namespace Program

theorem splitFinal_final_kind (tokens : List Token) : (splitFinal tokens).2.kind = .eof := by
  unfold splitFinal
  split
  · rfl
  · dsimp only
    split
    · next hkind => exact beq_iff_eq.mp hkind
    · rfl

theorem splitFinal_kind_ne {tokens : List Token}
    (h : ∀ token ∈ tokens.dropLast, token.kind ≠ .eof) :
    ∀ token ∈ (splitFinal tokens).1, token.kind ≠ .eof := by
  unfold splitFinal
  split
  · simp
  · next last hlast =>
    dsimp only
    split
    · exact h
    · next hkind =>
      intro token htoken
      obtain ⟨front, rfl⟩ := List.getLast?_eq_some_iff.mp hlast
      rw [List.dropLast_concat] at h
      rcases List.mem_append.mp htoken with hmem | hmem
      · exact h token hmem
      · rw [List.mem_singleton.mp hmem]
        simpa using hkind

end Program

/-- The tape of a list of tokens in which only the last may be the end of input. -/
def Tape.ofTokens (tokens : List Token) (h : ∀ token ∈ tokens.dropLast, token.kind ≠ .eof) :
    Tape where
  tokens := (Program.splitFinal tokens).1
  final := (Program.splitFinal tokens).2
  kind_ne := Program.splitFinal_kind_ne h
  final_kind := Program.splitFinal_final_kind tokens

namespace Program

variable {tape : Tape} {p q : Nat}

/-! ## Going on after a failure -/

theorem synchronize_cursor (hq : q ≤ tape.size) :
    ∃ r, q ≤ r ∧ r ≤ tape.size ∧
      synchronize (tape.cursor q).before (tape.cursor q).after = tape.cursor r := by
  induction hleft : tape.size - q generalizing q with
  | zero =>
    obtain rfl : q = tape.size := by omega
    have hafter : (tape.cursor tape.size).after = [] := List.drop_length
    refine ⟨tape.size, Nat.le_refl _, Nat.le_refl _, ?_⟩
    rw [hafter, synchronize, ← hafter]
  | succ left ih =>
    have hlt : q < tape.size := by omega
    rw [Tape.cursor_after_eq hlt, synchronize]
    split
    · refine ⟨q, Nat.le_refl q, hq, ?_⟩
      rw [← Tape.cursor_after_eq hlt]
    · obtain ⟨r, hqr, hr, hrun⟩ := ih hlt (by omega)
      refine ⟨r, by omega, hr, ?_⟩
      rw [← hrun, Tape.cursor_succ hlt]

/-- Reading goes on behind the start of the failed statement, and not before the place where the
failure was noticed. -/
theorem recover_cursor (hp : p < tape.size) (hpq : p ≤ q) (hq : q ≤ tape.size) :
    ∃ r, p < r ∧ q ≤ r ∧ r ≤ tape.size ∧
      recover (tape.cursor p) (tape.cursor q) = tape.cursor r := by
  unfold recover
  have hlength (s : Nat) : (tape.cursor s).after.length = tape.size - s := List.length_drop
  split
  · next hafter =>
    have hend : tape.size - q = 0 := by simp [← hlength, hafter]
    exact ⟨q, by omega, Nat.le_refl q, hq, rfl⟩
  · next token rest hafter =>
    have hlt : q < tape.size := by
      have := hlength q
      rw [hafter, List.length_cons] at this
      omega
    rw [hlength, hlength]
    split
    · obtain ⟨r, hqr, hr, hrun⟩ := synchronize_cursor (Nat.succ_le_of_lt hlt)
      refine ⟨r, by omega, by omega, hr, ?_⟩
      rw [Tape.cursor_after_eq hlt] at hafter
      obtain ⟨rfl, rfl⟩ := List.cons.inj hafter
      rw [← hrun, Tape.cursor_succ hlt]
    · obtain ⟨r, hqr, hr, hrun⟩ := synchronize_cursor hq
      exact ⟨r, by omega, hqr, hr, hrun⟩

/-! ## Attempts -/

/-- An attempt at a statement: the place that it starts at and what came of it. -/
structure Attempt where
  start : TokenCursor
  outcome : ParseOutcome Node

namespace Attempt

/-- The statements that attempts have read. -/
def nodes (trace : List Attempt) : List Node :=
  trace.filterMap fun attempt ↦
    match attempt.outcome with
    | .ok node _ => some node
    | .failed _ _ => none

/-- The failures of attempts. -/
def failures (trace : List Attempt) : List Failure :=
  trace.filterMap fun attempt ↦
    match attempt.outcome with
    | .ok _ _ => none
    | .failed failure _ => some failure

variable {start cursor : TokenCursor} {node : Node} {failure : Failure} {trace : List Attempt}

@[simp]
theorem nodes_nil : nodes [] = [] := rfl

@[simp]
theorem nodes_ok_cons : nodes (⟨start, .ok node cursor⟩ :: trace) = node :: nodes trace := rfl

@[simp]
theorem nodes_failed_cons : nodes (⟨start, .failed failure cursor⟩ :: trace) = nodes trace := rfl

@[simp]
theorem failures_nil : failures [] = [] := rfl

@[simp]
theorem failures_ok_cons : failures (⟨start, .ok node cursor⟩ :: trace) = failures trace := rfl

@[simp]
theorem failures_failed_cons :
    failures (⟨start, .failed failure cursor⟩ :: trace) = failure :: failures trace := rfl

end Attempt

/-- The attempts of a reading that has seen a number of failures. -/
def attempts (statement : Parse Node) (options : Options) (context : ParseContext) :
    Nat → Nat → TokenCursor → List Attempt
  | 0, _, _ => []
  | rounds + 1, failures, cursor =>
    if cursor.after.isEmpty then []
    else
      let outcome := statement context cursor
      ⟨cursor, outcome⟩ ::
        match outcome with
        | .ok _ next => attempts statement options context rounds failures next
        | .failed _ reached =>
          if options.collectErrors && failures + 1 < options.maxErrors then
            attempts statement options context rounds (failures + 1) (recover cursor reached)
          else []

variable {statement : Parse Node} {options : Options} {context : ParseContext}

/-- Whether a reading goes on behind a failure, given how many there have been before it. -/
def Options.goesOn (options : Options) (failures : Nat) : Prop :=
  options.collectErrors = true ∧ failures + 1 < options.maxErrors

section Course

variable (tape statement options context)

/-- The course of a reading from a place on: the failures before it, its attempts, and the place
that it ends at. -/
inductive Course : Nat → Nat → List Attempt → Nat → Prop
  | done {failures : Nat} : Course tape.size failures [] tape.size
  | read {p q failures last : Nat} {node : Node} {rest : List Attempt} (hpq : p < q)
    (hq : q ≤ tape.size) (hfits : node.Fits tape.Tag .statement)
    (hrun : statement context (tape.cursor p) = .ok node (tape.cursor q))
    (hrest : Course q failures rest last) :
    Course p failures (⟨tape.cursor p, .ok node (tape.cursor q)⟩ :: rest) last
  | stop {p q failures : Nat} {failure : Failure} (hp : p < tape.size) (hpq : p ≤ q)
    (hq : q ≤ tape.size) (hblames : tape.Blames p q failure)
    (hrun : statement context (tape.cursor p) = .failed failure (tape.cursor q))
    (hstops : ¬options.goesOn failures) :
    Course p failures [⟨tape.cursor p, .failed failure (tape.cursor q)⟩] q
  | resume {p q r failures last : Nat} {failure : Failure} {rest : List Attempt} (hpq : p ≤ q)
    (hpr : p < r) (hqr : q ≤ r) (hr : r ≤ tape.size) (hblames : tape.Blames p q failure)
    (hrun : statement context (tape.cursor p) = .failed failure (tape.cursor q))
    (hrecover : recover (tape.cursor p) (tape.cursor q) = tape.cursor r)
    (hgoes : options.goesOn failures) (hrest : Course r (failures + 1) rest last) :
    Course p failures (⟨tape.cursor p, .failed failure (tape.cursor q)⟩ :: rest) last

end Course

/-- A reading whose statements move on takes its course, given a round for each token that is left
and one more. -/
theorem attempts_course (hfinal : context.final = tape.final)
    (hstatement : ∀ p, tape.Forms p p statement .statement) {rounds failures : Nat}
    (hp : p ≤ tape.size) (hrounds : tape.size - p < rounds) :
    ∃ last, Course tape statement options context p failures
      (attempts statement options context rounds failures (tape.cursor p)) last := by
  induction rounds generalizing p failures with
  | zero => omega
  | succ rounds ih =>
    rw [attempts]
    obtain rfl | hlt := Nat.eq_or_lt_of_le hp
    · have hafter : (tape.cursor tape.size).after = [] := List.drop_length
      rw [hafter]
      exact ⟨_, .done⟩
    rw [if_neg (by rw [Tape.cursor_after_eq hlt]; exact Bool.false_ne_true)]
    have hbeside : tape.Beside context context := ⟨hfinal, hfinal, Int.le_refl _, rfl, rfl⟩
    obtain ⟨node, q, hrun, -, -, hq, hpq, hfits⟩ | ⟨failure, q, hrun, hpq, hq, hblames⟩ :=
      hstatement p (Nat.le_refl p) hp hbeside
    · rw [hrun]
      obtain ⟨last, hrest⟩ : ∃ last, Course tape statement options context q failures _ last :=
        ih hq (by omega)
      exact ⟨last, .read hpq hq hfits hrun hrest⟩
    · rw [hrun]
      dsimp only
      split
      · next hgoes =>
        obtain ⟨r, hpr, hqr, hr, hrecover⟩ := recover_cursor hlt hpq hq
        rw [hrecover]
        obtain ⟨last, hrest⟩ :
            ∃ last, Course tape statement options context r (failures + 1) _ last :=
          ih hr (by omega)
        refine ⟨last, .resume hpq hpr hqr hr hblames hrun hrecover ?_ hrest⟩
        simpa [Options.goesOn] using hgoes
      · next hstops =>
        exact ⟨q, .stop hlt hpq hq hblames hrun (by simpa [Options.goesOn] using hstops)⟩

/-- What a reading comes to: its first failure when it is strict, and else what it has read with all
of its failures. -/
def Progress.after (options : Options) (progress : Progress) (trace : List Attempt)
    (last : TokenCursor) : Except Failure Progress :=
  match options.collectErrors, Attempt.failures trace with
  | false, failure :: _ => .error failure
  | _, failures => .ok {
      body := progress.body ++ Attempt.nodes trace
      errors := progress.errors ++ failures
      cursor := last }

section After

variable {body : List Node} {errors : List Failure} {node : Node} {failure : Failure}
  {start cursor reached last : TokenCursor} {trace : List Attempt}

theorem after_collecting {progress : Progress} (hcollect : options.collectErrors = true) :
    Progress.after options progress trace last = .ok {
      body := progress.body ++ Attempt.nodes trace
      errors := progress.errors ++ Attempt.failures trace
      cursor := last } := by
  simp [Progress.after, hcollect]

theorem after_of_failures_nil {progress : Progress} (h : Attempt.failures trace = []) :
    Progress.after options progress trace last = .ok {
      body := progress.body ++ Attempt.nodes trace
      errors := progress.errors
      cursor := last } := by
  simp [Progress.after, h]

theorem after_of_failures_cons {progress : Progress} (hstrict : options.collectErrors = false)
    {more : List Failure} (h : Attempt.failures trace = failure :: more) :
    Progress.after options progress trace last = .error failure := by
  simp [Progress.after, hstrict, h]

theorem after_ok_cons :
    Progress.after options ⟨body, errors, start⟩ (⟨start, .ok node cursor⟩ :: trace) last =
      Progress.after options ⟨body ++ [node], errors, cursor⟩ trace last := by
  simp [Progress.after]

theorem after_failed_cons (hcollect : options.collectErrors = true) (cursor : TokenCursor) :
    Progress.after options ⟨body, errors, start⟩ (⟨start, .failed failure reached⟩ :: trace) last =
      Progress.after options ⟨body, errors ++ [failure], cursor⟩ trace last := by
  simp [Progress.after, hcollect]

theorem statements_of_ok {rounds : Nat} (hp : p < tape.size)
    (hrun : statement context (tape.cursor p) = .ok node cursor) :
    statements statement options context (rounds + 1) ⟨body, errors, tape.cursor p⟩ =
      statements statement options context rounds ⟨body ++ [node], errors, cursor⟩ := by
  simp [statements, Tape.cursor_after_eq hp, hrun]

theorem statements_of_failed {rounds : Nat} (hp : p < tape.size)
    (hrun : statement context (tape.cursor p) = .failed failure reached) :
    statements statement options context (rounds + 1) ⟨body, errors, tape.cursor p⟩ =
      if options.collectErrors then
        if options.maxErrors ≤ errors.length + 1 then .ok ⟨body, errors ++ [failure], reached⟩
        else statements statement options context rounds
          ⟨body, errors ++ [failure], recover (tape.cursor p) reached⟩
      else .error failure := by
  simp [statements, Tape.cursor_after_eq hp, hrun]

end After

/-- A reading comes to what its attempts come to. -/
theorem statements_eq_after {failures last rounds : Nat} {trace : List Attempt}
    (h : Course tape statement options context p failures trace last)
    (hrounds : tape.size - p < rounds) (body : List Node) {errors : List Failure}
    (herrors : errors.length = failures) :
    statements statement options context rounds ⟨body, errors, tape.cursor p⟩ =
      Progress.after options ⟨body, errors, tape.cursor p⟩ trace (tape.cursor last) := by
  obtain ⟨rounds, rfl⟩ := Nat.exists_eq_succ_of_ne_zero (Nat.ne_zero_of_lt hrounds)
  induction h generalizing rounds body errors with
  | done =>
    have hafter : (tape.cursor tape.size).after = [] := List.drop_length
    simp [statements, hafter, Progress.after]
  | @read p q _ _ _ _ hpq hq hfits hrun hrest ih =>
    obtain ⟨rounds, rfl⟩ : ∃ n, rounds = n + 1 := ⟨rounds - 1, by omega⟩
    rw [statements_of_ok (by omega) hrun, after_ok_cons]
    exact ih _ herrors _ (by omega)
  | stop hp hpq hq hblames hrun hstops =>
    rw [statements_of_failed hp hrun]
    split
    · next hcollect =>
      have hless : options.maxErrors ≤ errors.length + 1 := by
        simpa [Options.goesOn, hcollect, herrors] using hstops
      simp [hless, Progress.after, hcollect]
    · next hstrict => simp [Progress.after, hstrict]
  | @resume p q r _ _ _ _ hpq hpr hqr hr hblames hrun hrecover hgoes hrest ih =>
    obtain ⟨hcollect, hless⟩ := hgoes
    obtain ⟨rounds, rfl⟩ : ∃ n, rounds = n + 1 := ⟨rounds - 1, by omega⟩
    rw [statements_of_failed (by omega) hrun, if_pos hcollect, if_neg (by omega), hrecover,
      after_failed_cons hcollect (tape.cursor r)]
    exact ih _ (by simp [herrors]) _ (by omega)

/-! ## Whole programs -/

section Whole

variable {tokens : List Token} (h : ∀ token ∈ tokens.dropLast, token.kind ≠ .eof)

/-- What surrounds the statements of a program. -/
def surroundings (options : Options) (tape : Tape) : ParseContext :=
  { final := tape.final, maxDepth := options.maxDepth }

/-- The statements of a program, read with a number of levels and rounds. -/
def reading (options : Options) (tape : Tape) (level rounds : Nat) : Except Failure Progress :=
  statements (grammar level).statement options (surroundings options tape) rounds
    { cursor := tape.cursor 0 }

/-- The attempts at the statements of a program. -/
def trace (options : Options) (tape : Tape) (level rounds : Nat) : List Attempt :=
  attempts (grammar level).statement options (surroundings options tape) rounds 0 (tape.cursor 0)

/-- The attempts of a reading with the levels and rounds that a program is given. -/
def attemptsOf (options : Options) (tokens : List Token) : List Attempt :=
  let (tokens, final) := splitFinal tokens
  attempts (grammar (levelsPerToken * (tokens.length + 1))).statement options
    { final := final, maxDepth := options.maxDepth } (tokens.length + 1) 0 { after := tokens }

/-- The program that a reading gives. -/
def Progress.parsed (tape : Tape) (progress : Progress) : Parsed :=
  let last := progress.cursor.before.head?.getD (tape.token 0)
  { root := .surface ⟨(tape.token 0).start, last.stopPosition⟩ (.program progress.body)
    errors := progress.errors }

theorem parse_eq_reading (options : Options) :
    parse options tokens =
      (reading options (.ofTokens tokens h) (levelsPerToken * ((Tape.ofTokens tokens h).size + 1))
        ((Tape.ofTokens tokens h).size + 1)).map (Progress.parsed (.ofTokens tokens h)) := by
  have htoken : (splitFinal tokens).1.head?.getD (splitFinal tokens).2 =
      (Tape.ofTokens tokens h).token 0 := by
    rw [List.head?_eq_getElem?]
    rfl
  unfold parse
  simp only [htoken]
  -- The bounds and the start are the same on both sides; only the result matters.
  generalize hrun : reading options _ _ _ = result
  rw [reading] at hrun
  change (statements _ _ _ _ _ >>= _) = _
  cases result with
  | error => exact congrArg (· >>= _) hrun
  | ok => exact congrArg (· >>= _) hrun

end Whole

/-- A reading with enough levels and rounds takes its course and comes to what its attempts do. -/
theorem reading_eq_after (options : Options) (tape : Tape) {level rounds : Nat}
    (hlevel : levelsPerToken * (tape.size + 1) ≤ level) (hrounds : tape.size < rounds) :
    ∃ last, Course tape (grammar level).statement options (surroundings options tape) 0 0
        (trace options tape level rounds) last ∧
      reading options tape level rounds =
        Progress.after options { cursor := tape.cursor 0 } (trace options tape level rounds)
          (tape.cursor last) := by
  have hstatement (p : Nat) : tape.Forms p p (grammar level).statement .statement := by
    refine (grammar_serves tape level).statement ?_
    rw [levelsPerToken] at hlevel
    omega
  have hfinal : (surroundings options tape).final = tape.final := rfl
  obtain ⟨last, hcourse⟩ := attempts_course hfinal hstatement (Nat.zero_le _) (by omega)
  exact ⟨last, hcourse, statements_eq_after hcourse (by omega) [] rfl⟩

/-- A program is what the attempts at its statements come to. -/
theorem parse_eq_after {tokens : List Token} (h : ∀ token ∈ tokens.dropLast, token.kind ≠ .eof)
    (options : Options) :
    let tape := Tape.ofTokens tokens h
    ∃ last, Course tape (grammar (levelsPerToken * (tape.size + 1))).statement options
        (surroundings options tape) 0 0 (attemptsOf options tokens) last ∧
      parse options tokens =
        (Progress.after options { cursor := tape.cursor 0 } (attemptsOf options tokens)
          (tape.cursor last)).map (Progress.parsed tape) := by
  intro tape
  obtain ⟨last, hcourse, hreading⟩ :=
    reading_eq_after options tape (Nat.le_refl _) (Nat.lt_succ_self _)
  refine ⟨last, hcourse, ?_⟩
  rw [parse_eq_reading h, hreading]
  rfl

end Program

end SignalView
