import SignalView.Proofs.Grammar.Termination
import SignalView.Proofs.Token.Order

/-!
# Strict and collecting readings

A collecting reading goes the same way as a strict one up to the first failure: there the strict
reading ends. Behind it the collecting reading goes on, with at most one failure for each statement
that it attempts. Each attempt starts behind the start of the one before it and not before the place
where that one failed, so the failures are in order of the source.
-/

namespace SignalView

/-- The line and the column of a failure, in order of lines first. -/
def Failure.place (failure : Failure) : ℤ ×ₗ ℤ := toLex (failure.line, failure.column)

theorem Tape.Blames.place_eq {tape : Tape} {o q : Nat} {failure : Failure}
    (h : tape.Blames o q failure) :
    ∃ t, o ≤ t ∧ t ≤ q ∧ failure.place = (tape.token t).start.place := by
  obtain ⟨-, t, hot, htq, hline, hcolumn⟩ := h
  refine ⟨t, hot, htq, ?_⟩
  rw [Failure.place, hline, hcolumn]
  rfl

namespace Program

/-! ## Up to the first failure -/

namespace Attempt

/-- The attempts up to the first that fails, which is the last of them. -/
def upToFailure : List Attempt → List Attempt
  | [] => []
  | ⟨start, .ok node cursor⟩ :: rest => ⟨start, .ok node cursor⟩ :: upToFailure rest
  | ⟨start, .failed failure cursor⟩ :: _ => [⟨start, .failed failure cursor⟩]

theorem failures_upToFailure (trace : List Attempt) :
    failures (upToFailure trace) = (failures trace).head?.toList := by
  fun_induction upToFailure trace with
  | case1 => rfl
  | case2 _ _ _ _ ih => simpa using ih
  | case3 => simp

theorem upToFailure_eq_self {trace : List Attempt} (h : failures trace = []) :
    upToFailure trace = trace := by
  fun_induction upToFailure trace with
  | case1 => rfl
  | case2 _ _ _ _ ih => rw [ih (by simpa using h)]
  | case3 => simp at h

end Attempt

/-- The attempts of a strict reading are those of a collecting one up to its first failure. -/
theorem attempts_strict {statement : Parse Node} {strict collecting : Options}
    (hstrict : strict.collectErrors = false) (context : ParseContext) (rounds failures : Nat)
    (cursor : TokenCursor) :
    attempts statement strict context rounds failures cursor =
      Attempt.upToFailure (attempts statement collecting context rounds failures cursor) := by
  induction rounds generalizing cursor with
  | zero => rfl
  | succ rounds ih =>
    rw [attempts, attempts]
    split
    · rfl
    · cases statement context cursor with
      | ok node next => exact congrArg _ (ih next)
      | failed failure reached => simp [hstrict, Attempt.upToFailure]

/-! ## Along a course -/

variable {tape : Tape} {statement : Parse Node} {options : Options} {context : ParseContext}
  {p failures last : Nat} {trace : List Attempt}

theorem Course.length_failures_le
    (h : Course tape statement options context p failures trace last) :
    failures + (Attempt.failures trace).length ≤ max (failures + 1 : Int) options.maxErrors := by
  induction h with
  | done =>
    rw [Attempt.failures_nil, List.length_nil]
    omega
  | read _ _ _ _ _ ih => simpa using ih
  | stop => simp
  | resume _ _ _ _ _ _ _ hgoes _ ih =>
    have hless := hgoes.2
    rw [Attempt.failures_failed_cons, List.length_cons]
    omega

theorem Course.start_eq (h : Course tape statement options context p failures trace last) :
    ∀ attempt ∈ trace, ∃ s, p ≤ s ∧ s < tape.size ∧ attempt.start = tape.cursor s := by
  induction h with
  | done => simp
  | read hpq hq _ _ _ ih =>
    refine List.forall_mem_cons.mpr ⟨⟨_, Nat.le_refl _, by omega, rfl⟩, fun attempt hmem ↦ ?_⟩
    obtain ⟨s, hs, hsize, hstart⟩ := ih attempt hmem
    exact ⟨s, by omega, hsize, hstart⟩
  | stop hp => simpa using ⟨_, Nat.le_refl _, hp, rfl⟩
  | resume _ hpr _ hr _ _ _ _ _ ih =>
    refine List.forall_mem_cons.mpr ⟨⟨_, Nat.le_refl _, by omega, rfl⟩, fun attempt hmem ↦ ?_⟩
    obtain ⟨s, hs, hsize, hstart⟩ := ih attempt hmem
    exact ⟨s, by omega, hsize, hstart⟩

/-- Each attempt starts behind the start of the one before it. -/
theorem Course.pairwise_start (h : Course tape statement options context p failures trace last) :
    trace.Pairwise fun earlier later ↦
      earlier.start.before.length < later.start.before.length := by
  have hlength {s : Nat} (hs : s ≤ tape.size) : (tape.cursor s).before.length = s := by
    rw [Tape.cursor, List.length_reverse, List.length_take_of_le hs]
  have hbehind {p q failures last : Nat} {rest : List Attempt} (hpq : p < q) (hq : q ≤ tape.size)
      (hrest : Course tape statement options context q failures rest last) :
      ∀ later ∈ rest, (tape.cursor p).before.length < later.start.before.length := by
    intro later hmem
    obtain ⟨s, hs, hsize, hstart⟩ := hrest.start_eq later hmem
    rw [hstart, hlength (by omega), hlength (by omega)]
    omega
  induction h with
  | done => exact .nil
  | read hpq hq _ _ hrest ih => exact List.pairwise_cons.mpr ⟨hbehind hpq hq hrest, ih⟩
  | stop => exact List.pairwise_singleton _ _
  | resume _ hpr _ hr _ _ _ _ hrest ih => exact List.pairwise_cons.mpr ⟨hbehind hpr hr hrest, ih⟩

/-- Failures are reported from the place on that a course starts at. -/
theorem Course.place_eq (h : Course tape statement options context p failures trace last) :
    ∀ failure ∈ Attempt.failures trace, ∃ t, p ≤ t ∧
      failure.place = (tape.token t).start.place := by
  induction h with
  | done => simp
  | read hpq _ _ _ _ ih =>
    intro failure hmem
    obtain ⟨t, ht, hplace⟩ := ih failure hmem
    exact ⟨t, by omega, hplace⟩
  | stop _ _ _ hblames =>
    obtain ⟨t, ht, -, hplace⟩ := hblames.place_eq
    simpa using ⟨t, ht, hplace⟩
  | resume _ hpr _ _ hblames _ _ _ _ ih =>
    obtain ⟨t, ht, -, hplace⟩ := hblames.place_eq
    refine List.forall_mem_cons.mpr ⟨⟨t, ht, hplace⟩, fun failure hmem ↦ ?_⟩
    obtain ⟨t, ht, hplace⟩ := ih failure hmem
    exact ⟨t, by omega, hplace⟩

/-- On a tape in order, the failures of a course are in order. -/
theorem Course.pairwise_place (h : Course tape statement options context p failures trace last)
    (hsorted : ∀ i j, i ≤ j → (tape.token i).start.place ≤ (tape.token j).start.place) :
    (Attempt.failures trace).Pairwise fun earlier later ↦ earlier.place ≤ later.place := by
  induction h with
  | done => exact .nil
  | read _ _ _ _ _ ih => exact ih
  | stop => exact List.pairwise_singleton _ _
  | resume _ _ hqr _ hblames _ _ _ hrest ih =>
    refine List.pairwise_cons.mpr ⟨fun later hmem ↦ ?_, ih⟩
    obtain ⟨t, -, htq, hplace⟩ := hblames.place_eq
    obtain ⟨u, hu, hlater⟩ := hrest.place_eq later hmem
    rw [hplace, hlater]
    exact hsorted t u (by omega)

/-! ## Whole programs -/

section Whole

variable {tokens : List Token} (h : ∀ token ∈ tokens.dropLast, token.kind ≠ .eof)
  {strict collecting : Options} (hstrict : strict.collectErrors = false)
  (hcollecting : collecting.collectErrors = true) (hdepth : strict.maxDepth = collecting.maxDepth)

include hstrict hdepth in
theorem attemptsOf_strict (tokens : List Token) :
    attemptsOf strict tokens = Attempt.upToFailure (attemptsOf collecting tokens) := by
  unfold attemptsOf
  rw [hdepth]
  exact attempts_strict hstrict _ _ _ _

include h hstrict hdepth in
/-- A strict reading ends with the first failure. -/
theorem parse_strict_of_failures_cons {failure : Failure} {more : List Failure}
    (hfailures : Attempt.failures (attemptsOf collecting tokens) = failure :: more) :
    parse strict tokens = .error failure := by
  obtain ⟨last, -, hparse⟩ := parse_eq_after h strict
  have hfirst : Attempt.failures (attemptsOf strict tokens) = [failure] := by
    rw [attemptsOf_strict hstrict hdepth, Attempt.failures_upToFailure, hfailures]
    rfl
  rw [hparse, after_of_failures_cons hstrict hfirst]
  rfl

include h hstrict hdepth in
/-- Without a failure both readings give the same. -/
theorem parse_strict_of_failures_nil
    (hfailures : Attempt.failures (attemptsOf collecting tokens) = []) :
    parse strict tokens = parse collecting tokens := by
  obtain ⟨last, hcourse, hparse⟩ := parse_eq_after h strict
  obtain ⟨last', hcourse', hparse'⟩ := parse_eq_after h collecting
  have hsame : attemptsOf strict tokens = attemptsOf collecting tokens := by
    rw [attemptsOf_strict hstrict hdepth, Attempt.upToFailure_eq_self hfailures]
  have hlast : last = (Tape.ofTokens tokens h).size := by
    rw [hsame] at hcourse
    exact hcourse.ends.resolve_right fun hends ↦ hends.1 hfailures
  have hlast' : last' = (Tape.ofTokens tokens h).size :=
    hcourse'.ends.resolve_right fun hends ↦ hends.1 hfailures
  rw [hparse, hparse', hsame, hlast, hlast', after_of_failures_nil hfailures,
    after_of_failures_nil hfailures]

include h hcollecting in
/-- A collecting reading gives what it has read, and its failures. -/
theorem parse_collecting :
    ∃ parsed, parse collecting tokens = .ok parsed ∧
      (∃ range, parsed.root =
        .surface range (.program (Attempt.nodes (attemptsOf collecting tokens)))) ∧
      parsed.errors = Attempt.failures (attemptsOf collecting tokens) := by
  obtain ⟨last, -, hparse⟩ := parse_eq_after h collecting
  rw [after_collecting hcollecting] at hparse
  exact ⟨_, hparse, ⟨_, rfl⟩, rfl⟩

include h hstrict hdepth in
/-- A strict reading fails with the first failure, and else gives the same. -/
theorem parse_strict_iff {parsed : Parsed} (hparse : parse collecting tokens = .ok parsed)
    (herrors : parsed.errors = Attempt.failures (attemptsOf collecting tokens)) :
    (∀ failure, parse strict tokens = .error failure ↔ parsed.errors.head? = some failure) ∧
    ∀ program, parse strict tokens = .ok program ↔
      parse collecting tokens = .ok program ∧ program.errors = [] := by
  cases hfailures : Attempt.failures (attemptsOf collecting tokens) with
  | nil =>
    rw [parse_strict_of_failures_nil h hstrict hdepth hfailures, hparse, herrors, hfailures]
    refine ⟨by simp, fun program ↦ ⟨fun hprogram ↦ ⟨hprogram, ?_⟩, fun hprogram ↦ hprogram.1⟩⟩
    rw [← Except.ok.inj hprogram, herrors, hfailures]
  | cons failure more =>
    rw [parse_strict_of_failures_cons h hstrict hdepth hfailures, hparse, herrors, hfailures]
    refine ⟨by simp, fun program ↦ ⟨by simp, ?_⟩⟩
    rintro ⟨hprogram, hnone⟩
    rw [← Except.ok.inj hprogram, herrors, hfailures] at hnone
    cases hnone

end Whole

end Program

/-! ## Tokens of a source -/

/-- Tokens in order are in order on their tape. -/
theorem Tape.place_mono {front : List Token} {final : Token} {tape : Tape}
    (htokens : tape.tokens = front) (hfinal : tape.final = final)
    (hsorted : (front ++ [final]).Pairwise fun earlier later ↦
      earlier.start.place ≤ later.start.place) {i j : Nat} (hij : i ≤ j) :
    (tape.token i).start.place ≤ (tape.token j).start.place := by
  obtain ⟨hfront, -, hlast⟩ := List.pairwise_append.mp hsorted
  subst htokens hfinal
  by_cases hj : j < tape.size
  · obtain rfl | hlt := Nat.eq_or_lt_of_le hij
    · exact le_rfl
    · rw [token, token, List.getElem?_eq_getElem hj, List.getElem?_eq_getElem (hlt.trans hj)]
      exact List.pairwise_iff_getElem.mp hfront i j (hlt.trans hj) hj hlt
  · have hend : tape.token j = tape.final := by
      rw [token, List.getElem?_eq_none (Nat.le_of_not_lt hj)]
      rfl
    rw [hend]
    by_cases hi : i < tape.size
    · exact hlast _ (token_mem hi) _ (by simp)
    · rw [token, List.getElem?_eq_none (Nat.le_of_not_lt hi)]
      exact le_rfl

open Program

/-- A strict reading of the tokens of a source fails exactly when a collecting one keeps that
failure first, and gives a program exactly when the collecting one gives the same without a failure.
A collecting reading keeps at most as many failures as it may, each from another attempt at a
statement, and in order of the source; a strict reading makes the same attempts up to the first
failure. -/
theorem collecting_agrees_with_strict {lexerOptions : LexerOptions} {lexer : Lexer}
    {tokens : List Token} (h : (Lexer.tokenizeFrom lexerOptions lexer).result = .ok tokens)
    (maxDepth maxErrors : Int) :
    let strict : Options := { maxDepth := maxDepth, maxErrors := maxErrors }
    let collecting : Options :=
      { collectErrors := true, maxDepth := maxDepth, maxErrors := maxErrors }
    ∃ parsed, parse collecting tokens = .ok parsed ∧
      (∀ failure, parse strict tokens = .error failure ↔ parsed.errors.head? = some failure) ∧
      (∀ program, parse strict tokens = .ok program ↔
        parse collecting tokens = .ok program ∧ program.errors = []) ∧
      parsed.errors.length ≤ max 1 maxErrors ∧
      (parsed.errors.Pairwise fun earlier later ↦ earlier.place ≤ later.place) ∧
      (∃ range, parsed.root =
        .surface range (.program (Attempt.nodes (attemptsOf collecting tokens)))) ∧
      parsed.errors = Attempt.failures (attemptsOf collecting tokens) ∧
      ((attemptsOf collecting tokens).Pairwise fun earlier later ↦
        earlier.start.before.length < later.start.before.length) ∧
      attemptsOf strict tokens = Attempt.upToFailure (attemptsOf collecting tokens) ∧
      ∀ failure, parse strict tokens = .error failure →
        Attempt.failures (attemptsOf strict tokens) = [failure] := by
  intro strict collecting
  obtain ⟨front, final, rfl, hfinal, hkinds, hsorted⟩ := tokenizeFrom_inOrder h
  have hend : ∀ token ∈ (front ++ [final]).dropLast, token.kind ≠ .eof := by
    simpa using hkinds
  have hstrict : strict.collectErrors = false := rfl
  have hcollecting : collecting.collectErrors = true := rfl
  have hdepth : strict.maxDepth = collecting.maxDepth := rfl
  obtain ⟨parsed, hparse, hroot, herrors⟩ := parse_collecting hend hcollecting
  obtain ⟨last, hcourse, -⟩ := parse_eq_after hend collecting
  obtain ⟨hfails, hgives⟩ := parse_strict_iff hend hstrict hdepth hparse herrors
  have hattempts := attemptsOf_strict hstrict hdepth (front ++ [final])
  refine ⟨parsed, hparse, hfails, hgives, ?_, ?_, hroot, herrors, hcourse.pairwise_start,
    hattempts, fun failure hfailure ↦ ?_⟩
  · rw [herrors]
    simpa using hcourse.length_failures_le
  · rw [herrors]
    refine hcourse.pairwise_place fun i j hij ↦ ?_
    have hsplit : splitFinal (front ++ [final]) = (front, final) := splitFinal_concat hfinal
    exact Tape.place_mono (congrArg Prod.fst hsplit) (congrArg Prod.snd hsplit) hsorted hij
  · rw [hattempts, Attempt.failures_upToFailure, ← herrors, (hfails failure).mp hfailure]
    rfl

/-- Two statements of which each has a fault. -/
theorem collecting_agrees_with_strict_two_faults :
    let tokens : List Token := [
      { kind := .word .let_, value := bytes "let", start := ⟨1, 1, 0⟩, stop := 3 },
      { kind := .mark .assign, value := bytes "=", start := ⟨1, 5, 4⟩, stop := 5 },
      { kind := .mark .semicolon, value := bytes ";", start := ⟨1, 6, 5⟩, stop := 6 },
      { kind := .mark .closeParen, value := bytes ")", start := ⟨1, 8, 7⟩, stop := 8 },
      { kind := .eof, start := ⟨1, 9, 8⟩, stop := 8 }]
    (tokenize {} (bytes "let =; )")).result = .ok tokens ∧
      ∃ parsed, parse { collectErrors := true } tokens = .ok parsed ∧
        ∀ failure, parse {} tokens = .error failure ↔ parsed.errors.head? = some failure := by
  intro tokens
  have h : (tokenize {} (bytes "let =; )")).result = .ok tokens := by decide +kernel
  obtain ⟨parsed, hparse, hfails, -⟩ := collecting_agrees_with_strict h 100 50
  exact ⟨h, parsed, hparse, hfails⟩

end SignalView
