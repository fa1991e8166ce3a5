import SignalView.Compilation
import SignalView.Proofs.Grammar.Termination
import SignalView.Proofs.Token.Tiling
import SignalView.Proofs.Token.Tolerance

/-!
# From sources to trees

What a source is read as before it is lowered. A run of the lexer without a fault gives tokens whose
names are not empty, whatever its mode, and so no element of a tree that is read from them lacks a
tag. A tree that was read without a failure is read under every deeper limit too.
-/

namespace SignalView

/-! ## Tokens -/

/-- Tokens of which only the last one marks the end, and in which no name is empty. -/
structure Token.IsStream (tokens : List Token) : Prop where
  kind_ne : ∀ token ∈ tokens.dropLast, token.kind ≠ .eof
  value_ne : ∀ token ∈ tokens, token.kind.isMemberName → token.value ≠ []

/-- A token that stands for its bytes has some. -/
theorem Token.Placed.value_ne_nil {source : Bytes} {before : List Token} {token : Token}
    (h : token.Placed source before) (hname : token.kind.isMemberName) : token.value ≠ [] := by
  have hkind : token.kind ≠ .eof := by
    intro hkind
    rw [hkind] at hname
    cases hname
  have hspells : slice source token.start.offset token.stop = token.value := by
    have hspells := h.spells
    revert hname hspells
    cases token.kind <;> first | exact fun _ hspells ↦ hspells | exact fun hname ↦ by cases hname
  have hlength : (slice source token.start.offset token.stop).length =
      token.stop - token.start.offset := by
    rw [slice, List.length_drop, List.length_take_of_le h.inside]
  intro hnil
  have hnonempty := h.nonempty hkind
  rw [hspells, hnil, List.length_nil] at hlength
  omega

theorem IsTiling.isStream {source : Bytes} {tokens : List Token} (h : IsTiling source tokens) :
    Token.IsStream tokens where
  kind_ne := by
    obtain ⟨front, final, rfl, -, -, -, hkinds⟩ := h.last
    simpa using hkinds
  value_ne token hmem hname := by
    obtain ⟨before, after, hsplit⟩ := List.append_of_mem hmem
    exact (h.tiles before token after hsplit).value_ne_nil hname

theorem tokenize_isStream_of_strict {options : LexerOptions} {source : Bytes}
    (hstrict : options.mode = .strict) (hnone : (tokenize options source).failure = none) :
    Token.IsStream (tokenize options source).lexer.tokenList :=
  (Lexer.run_isTiling hstrict (.ofSource source) (Nat.lt_succ_self _) hnone).isStream

/-- A run that records no fault gives what a strict one gives. -/
theorem tokenize_isStream {options : LexerOptions} {source : Bytes}
    (hnone : (tokenize options source).failure = none)
    (herrors : (tokenize options source).lexer.errorList = []) :
    Token.IsStream (tokenize options source).lexer.tokenList := by
  by_cases hmode : options.mode = .strict
  · exact tokenize_isStream_of_strict hmode hnone
  · have hagrees : (tokenize {} source).Agrees (tokenize options source) :=
      Lexer.run_agrees rfl hmode _ rfl
    have hstrict : (tokenize {} source).failure = none →
        Token.IsStream (tokenize {} source).lexer.tokenList := tokenize_isStream_of_strict rfl
    generalize tokenize {} source = run at hagrees hstrict
    generalize tokenize options source = run' at hagrees hnone herrors ⊢
    cases hagrees with
    | same => exact hstrict rfl
    | stopped hfirst =>
      rw [List.reverse_eq_nil_iff.mp herrors] at hfirst
      cases hfirst

/-! ## Trees -/

namespace Program

theorem mem_of_mem_splitFinal {tokens : List Token} {token : Token}
    (h : token ∈ (splitFinal tokens).1) : token ∈ tokens := by
  unfold splitFinal at h
  split at h
  · cases h
  · dsimp only at h
    split at h
    · exact List.dropLast_subset tokens h
    · exact h

/-- On a tape without empty names every tag has a name. -/
theorem tag_ne_nil {tokens : List Token} (h : Token.IsStream tokens) {tag : Bytes}
    (htag : (Tape.ofTokens tokens h.kind_ne).Tag tag) : tag ≠ [] := by
  obtain ⟨token, hmem, hname, hfront⟩ := htag
  rintro rfl
  exact h.value_ne token (mem_of_mem_splitFinal hmem) hname (List.prefix_nil.mp hfront)

section Reading

variable {tape : Tape} {statement : Parse Node} {options : Options} {context : ParseContext}
  {p failures last : Nat} {trace : List Attempt}

/-- What the attempts of a course have read stands where statements do. -/
theorem Course.nodes_fit (h : Course tape statement options context p failures trace last) :
    ∀ node ∈ Attempt.nodes trace, node.Fits tape.Tag .statement := by
  induction h with
  | done => simp
  | read _ _ hfits _ _ ih => exact List.forall_mem_cons.mpr ⟨hfits, ih⟩
  | stop => simp
  | resume _ _ _ _ _ _ _ _ _ ih => exact ih

/-- Attempts that do not fail are the same under a deeper limit. -/
theorem attempts_deeper (hstatement : ∀ p, tape.Forms p p statement .statement)
    {deeper : ParseContext} (hbeside : tape.Beside context deeper) {options' : Options}
    {rounds : Nat} (hp : p ≤ tape.size)
    (h : Attempt.failures
      (attempts statement options context rounds failures (tape.cursor p)) = []) :
    attempts statement options' deeper rounds failures (tape.cursor p) =
      attempts statement options context rounds failures (tape.cursor p) := by
  induction rounds generalizing p with
  | zero => rfl
  | succ rounds ih =>
    rw [attempts] at h ⊢
    rw [attempts]
    split
    · rfl
    · next hmore =>
      rw [if_neg hmore] at h
      obtain ⟨node, q, hrun, hdeeper, hpq, hq, -⟩ | ⟨failure, q, hrun, -⟩ :=
        hstatement p (Nat.le_refl p) hp hbeside
      · rw [hrun] at h ⊢
        rw [hdeeper]
        exact congrArg _ (ih hq h)
      · rw [hrun] at h
        cases h

end Reading

variable {tokens : List Token} {options : Options} {parsed : Parsed}

/-- A program that was read without a failure comes to the statements of its attempts. -/
theorem parse_attempts (h : ∀ token ∈ tokens.dropLast, token.kind ≠ .eof)
    (hparse : parse options tokens = .ok parsed) (herrors : parsed.errors = []) :
    Attempt.failures (attemptsOf options tokens) = [] := by
  obtain ⟨last, -, hafter⟩ := parse_eq_after h options
  rw [hafter] at hparse
  cases hcollect : options.collectErrors with
  | true =>
    rw [after_collecting hcollect] at hparse
    obtain rfl := Except.ok.inj hparse
    simpa [Progress.parsed] using herrors
  | false =>
    cases hfailures : Attempt.failures (attemptsOf options tokens) with
    | nil => rfl
    | cons failure more =>
      rw [after_of_failures_cons hcollect hfailures] at hparse
      cases hparse

/-- The statements of a program stand where statements do, with tags that are found among its
tokens. -/
theorem parse_body (h : ∀ token ∈ tokens.dropLast, token.kind ≠ .eof)
    (hparse : parse options tokens = .ok parsed) :
    ∃ range body, parsed.root = .surface range (.program body) ∧
      ∀ item ∈ body, item.Fits (Tape.ofTokens tokens h).Tag .statement := by
  obtain ⟨last, hcourse, hafter⟩ := parse_eq_after h options
  rw [hafter] at hparse
  have hnodes {progress : Progress} (hprogress : Progress.after options
      { cursor := (Tape.ofTokens tokens h).cursor 0 } (attemptsOf options tokens)
      ((Tape.ofTokens tokens h).cursor last) = .ok progress) :
      progress.body = Attempt.nodes (attemptsOf options tokens) := by
    unfold Progress.after at hprogress
    split at hprogress
    · cases hprogress
    · obtain rfl := Except.ok.inj hprogress
      rfl
  generalize Progress.after _ _ _ _ = result at hparse hnodes
  cases result with
  | error => cases hparse
  | ok progress =>
    obtain rfl := Except.ok.inj hparse
    refine ⟨_, progress.body, rfl, fun item hitem ↦ ?_⟩
    rw [hnodes rfl] at hitem
    exact hcourse.nodes_fit item hitem

/-- Without empty names among the tokens, no element lacks a tag. -/
theorem parse_root (h : Token.IsStream tokens) (hparse : parse options tokens = .ok parsed) :
    ∃ range body, parsed.root = .surface range (.program body) ∧
      ∀ item ∈ body, item.Fits (· ≠ []) .statement := by
  obtain ⟨range, body, hroot, hbody⟩ := parse_body h.kind_ne hparse
  exact ⟨range, body, hroot, fun item hitem ↦ (hbody item hitem).mono fun _ ↦ tag_ne_nil h⟩

theorem parse_fits (h : Token.IsStream tokens) (hparse : parse options tokens = .ok parsed) :
    ∀ item ∈ parsed.root.children, item.Fits (· ≠ []) .statement := by
  obtain ⟨range, body, hroot, hbody⟩ := parse_root h hparse
  rw [hroot]
  exact hbody

/-- A program that is read without a failure is read in the same way under a deeper limit. -/
theorem parse_deeper (h : ∀ token ∈ tokens.dropLast, token.kind ≠ .eof)
    (hparse : parse options tokens = .ok parsed) (herrors : parsed.errors = []) {maxDepth : Int}
    (hdepth : options.maxDepth ≤ maxDepth) :
    parse { options with maxDepth := maxDepth } tokens = .ok parsed := by
  have hfailures := parse_attempts h hparse herrors
  obtain ⟨last, hcourse, hafter⟩ := parse_eq_after h options
  obtain ⟨last', hcourse', hafter'⟩ := parse_eq_after h { options with maxDepth := maxDepth }
  have hsame : attemptsOf { options with maxDepth := maxDepth } tokens =
      attemptsOf options tokens := by
    have hstart : 0 ≤ (Tape.ofTokens tokens h).size := Nat.zero_le _
    refine attempts_deeper (fun p ↦ ?_) ?_ hstart hfailures
    · refine (grammar_serves _ _).statement ?_
      change 12 * ((Tape.ofTokens tokens h).size - p) + _ ≤ 12 * ((Tape.ofTokens tokens h).size + 1)
      omega
    · exact ⟨rfl, rfl, hdepth, rfl, rfl⟩
  have hlast : last = (Tape.ofTokens tokens h).size :=
    hcourse.ends.resolve_right fun hends ↦ hends.1 hfailures
  have hlast' : last' = (Tape.ofTokens tokens h).size := by
    rw [hsame] at hcourse'
    exact hcourse'.ends.resolve_right fun hends ↦ hends.1 hfailures
  rw [hafter', hsame, hlast', after_of_failures_nil hfailures]
  rw [hafter, hlast, after_of_failures_nil hfailures] at hparse
  exact hparse

end Program

end SignalView
