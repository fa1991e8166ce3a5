import SignalView.Token.Stream

/-!
# Strict and tolerant runs

A run is a chain of steps, each of which may end it: trivia are passed over, a lexeme is taken in,
the end of the source is closed off. A tolerant run goes the same way as a strict one up to the
first fault. There the strict run ends, and the tolerant one records the same failure. Whatever
happens behind it, what has been recorded stays, so the first record is the strict failure.
-/

namespace SignalView

/-- Goes on behind a step, unless the step ended the run. -/
def LexerStep.andThen (step : LexerStep) (next : Lexer → LexerStep) : LexerStep :=
  match step.failure with
  | some _ => step
  | none => next step.lexer

@[simp]
theorem LexerStep.andThen_none (lexer : Lexer) (next : Lexer → LexerStep) :
    (⟨lexer, none⟩ : LexerStep).andThen next = next lexer := rfl

@[simp]
theorem LexerStep.andThen_some (lexer : Lexer) (failure : Failure) (next : Lexer → LexerStep) :
    (⟨lexer, some failure⟩ : LexerStep).andThen next = ⟨lexer, some failure⟩ := rfl

namespace Lexer

variable {options : LexerOptions} {lexer : Lexer}

/-! ## A run as a chain of steps -/

/-- Gets to the next lexeme; between tags nothing is passed over. -/
def reachLexeme (options : LexerOptions) (lexer : Lexer) : LexerStep :=
  if lexer.inChildren then ⟨lexer, none⟩ else skipTrivia options lexer

/-- Reports the tag or the element that the end of the source leaves open. -/
def closeMarkup (options : LexerOptions) (lexer : Lexer) : LexerStep :=
  match lexer.surroundings with
  | .children :: _ => report options lexer .unterminatedElement lexer.cursor.position
  | .tag _ :: _ => report options lexer .unterminatedTag lexer.cursor.position
  | _ => ⟨lexer, none⟩

/-- Adds the token that marks the end. -/
def pushEnd (lexer : Lexer) : LexerStep := ⟨lexer.push .eof [] lexer.cursor.position, none⟩

theorem finish_eq (options : LexerOptions) (lexer : Lexer) :
    finish options lexer = (closeMarkup options lexer).andThen pushEnd := by
  unfold finish
  change (closeMarkup options lexer).andThen pushEnd = _
  rfl

theorem run_succ_eq (options : LexerOptions) (rounds : Nat) (lexer : Lexer) :
    run options (rounds + 1) lexer =
      (reachLexeme options lexer).andThen fun lexer ↦
        if lexer.cursor.atEnd then finish options lexer
        else (accept options lexer lexer.scan).andThen (run options rounds) := rfl

/-- What every step of a run does to the lexer, the run as a whole does too. -/
theorem run_related {R : Lexer → Lexer → Prop} (htrans : ∀ {a b c}, R a b → R b c → R a c)
    (hreach : ∀ lexer, R lexer (reachLexeme options lexer).lexer)
    (haccept : ∀ lexer, lexer.cursor.atEnd = false →
      R lexer (accept options lexer lexer.scan).lexer)
    (hclose : ∀ lexer, R lexer (closeMarkup options lexer).lexer)
    (hend : ∀ lexer, R lexer lexer.pushEnd.lexer) (rounds : Nat) (lexer : Lexer) :
    R lexer (run options rounds lexer).lexer := by
  have hthen {lexer : Lexer} {step : LexerStep} {next : Lexer → LexerStep}
      (hstep : R lexer step.lexer) (hnext : R step.lexer (next step.lexer).lexer) :
      R lexer (step.andThen next).lexer := by
    obtain ⟨after, _ | failure⟩ := step
    · exact htrans hstep hnext
    · exact hstep
  have hfinish (lexer : Lexer) : R lexer (finish options lexer).lexer := by
    rw [finish_eq]
    exact hthen (hclose lexer) (hend _)
  induction rounds generalizing lexer with
  | zero => exact hfinish lexer
  | succ rounds ih =>
    rw [run_succ_eq]
    refine hthen (hreach lexer) ?_
    split
    · exact hfinish _
    · next hrest => exact hthen (haccept _ (by simpa using hrest)) (ih _)

/-! ## Records stay -/

theorem report_errors {records : List Failure} (h : lexer.errors = records) (fault : LexicalFault)
    (start : Position) : records <:+ (report options lexer fault start).lexer.errors := by
  subst h
  unfold report
  dsimp only
  split
  · exact List.suffix_rfl
  · split
    · exact List.suffix_cons _ _
    · split <;> exact List.suffix_cons _ _

theorem reachLexeme_errors (options : LexerOptions) (lexer : Lexer) :
    lexer.errors <:+ (reachLexeme options lexer).lexer.errors := by
  unfold reachLexeme skipTrivia
  split
  · exact List.suffix_rfl
  · split
    · exact List.suffix_rfl
    · exact report_errors (by rfl) _ _

theorem accept_errors (options : LexerOptions) (lexer : Lexer) (scanned : Scanned) :
    lexer.errors <:+ (accept options lexer scanned).lexer.errors := by
  unfold accept
  dsimp only
  split
  · exact List.suffix_rfl
  · exact report_errors (by rfl) _ _

theorem closeMarkup_errors (options : LexerOptions) (lexer : Lexer) :
    lexer.errors <:+ (closeMarkup options lexer).lexer.errors := by
  unfold closeMarkup
  split
  · exact report_errors rfl _ _
  · exact report_errors rfl _ _
  · exact List.suffix_rfl

theorem run_errors (options : LexerOptions) (rounds : Nat) (lexer : Lexer) :
    lexer.errors <:+ (run options rounds lexer).lexer.errors := by
  apply run_related (R := fun a b ↦ a.errors <:+ b.errors) List.IsSuffix.trans
    (reachLexeme_errors options)
  · intro lexer _
    exact accept_errors options lexer lexer.scan
  · exact closeMarkup_errors options
  · intro lexer
    exact List.suffix_rfl

/-! ## Tokens stay -/

theorem report_tokens {tokens : List Token} (h : lexer.tokens = tokens) (fault : LexicalFault)
    (start : Position) : tokens <:+ (report options lexer fault start).lexer.tokens := by
  subst h
  unfold report
  dsimp only
  split
  · exact List.suffix_rfl
  · split
    · exact List.suffix_rfl
    · split
      · exact List.suffix_rfl
      · exact List.suffix_cons _ _

theorem run_tokens (options : LexerOptions) (rounds : Nat) (lexer : Lexer) :
    lexer.tokens <:+ (run options rounds lexer).lexer.tokens := by
  apply run_related (R := fun a b ↦ a.tokens <:+ b.tokens) List.IsSuffix.trans
  · intro lexer
    unfold reachLexeme skipTrivia
    split
    · exact List.suffix_rfl
    · split
      · exact List.suffix_rfl
      · exact report_tokens (by rfl) _ _
  · intro lexer _
    unfold accept
    dsimp only
    split
    · exact List.suffix_cons _ _
    · exact report_tokens (by rfl) _ _
  · intro lexer
    unfold closeMarkup
    split
    · exact report_tokens (by rfl) _ _
    · exact report_tokens (by rfl) _ _
    · exact List.suffix_rfl
  · intro lexer
    exact List.suffix_cons _ _

end Lexer

/-! ## Agreement -/

/-- A tolerant step beside a strict one: both come to the same without a record, or the strict one
ends with the failure that the tolerant one records first. -/
inductive LexerStep.Agrees : LexerStep → LexerStep → Prop
  | same {lexer : Lexer} (h : lexer.errors = []) : Agrees ⟨lexer, none⟩ ⟨lexer, none⟩
  | stopped {lexer : Lexer} {failure : Failure} {tolerant : LexerStep}
    (h : tolerant.lexer.errors.getLast? = some failure) : Agrees ⟨lexer, some failure⟩ tolerant

/-- The first record outlasts whatever is recorded behind it. -/
theorem getLast?_of_suffix {α : Type} {first : α} {records more : List α} (h : records <:+ more)
    (hfirst : records.getLast? = some first) : more.getLast? = some first := by
  obtain ⟨front, rfl⟩ := h
  rw [List.getLast?_append, hfirst]
  rfl

theorem LexerStep.Agrees.andThen {strict tolerant : LexerStep} {next next' : Lexer → LexerStep}
    (h : strict.Agrees tolerant)
    (hnext : ∀ lexer, lexer.errors = [] → (next lexer).Agrees (next' lexer))
    (hstay : ∀ lexer, lexer.errors <:+ (next' lexer).lexer.errors) :
    (strict.andThen next).Agrees (tolerant.andThen next') := by
  cases h with
  | same herrors => exact hnext _ herrors
  | @stopped lexer failure tolerant hfirst =>
    refine .stopped ?_
    obtain ⟨after, _ | end_⟩ := tolerant
    · exact getLast?_of_suffix (hstay after) hfirst
    · exact hfirst

namespace Lexer

variable {strict tolerant : LexerOptions} {lexer : Lexer}

section Modes

variable (hstrict : strict.mode = .strict) (htolerant : tolerant.mode ≠ .strict)

include hstrict htolerant

theorem report_agrees (herrors : lexer.errors = []) (fault : LexicalFault) (start : Position) :
    (report strict lexer fault start).Agrees (report tolerant lexer fault start) := by
  have hreport : report strict lexer fault start = ⟨lexer, some (.ofFault fault start)⟩ := by
    simp [report, hstrict]
  have hfirst : (report tolerant lexer fault start).lexer.errors.getLast? =
      some (.ofFault fault start) := by
    unfold report
    dsimp only
    rw [if_neg (by simpa using htolerant), herrors]
    split
    · rfl
    · split <;> rfl
  rw [hreport]
  exact .stopped hfirst

theorem reachLexeme_agrees (herrors : lexer.errors = []) :
    (reachLexeme strict lexer).Agrees (reachLexeme tolerant lexer) := by
  unfold reachLexeme skipTrivia
  split
  · exact .same herrors
  · split
    · exact .same herrors
    · exact report_agrees hstrict htolerant (by exact herrors) _ _

theorem accept_agrees (herrors : lexer.errors = []) (scanned : Scanned) :
    (accept strict lexer scanned).Agrees (accept tolerant lexer scanned) := by
  unfold accept
  dsimp only
  split
  · exact .same herrors
  · exact report_agrees hstrict htolerant (by exact herrors) _ _

theorem finish_agrees (herrors : lexer.errors = []) :
    (finish strict lexer).Agrees (finish tolerant lexer) := by
  rw [finish_eq, finish_eq]
  refine .andThen ?_ (fun _ h ↦ .same h) (fun _ ↦ List.suffix_rfl)
  unfold closeMarkup
  split
  · exact report_agrees hstrict htolerant herrors _ _
  · exact report_agrees hstrict htolerant herrors _ _
  · exact .same herrors

theorem run_agrees (rounds : Nat) (herrors : lexer.errors = []) :
    (run strict rounds lexer).Agrees (run tolerant rounds lexer) := by
  have hfinish (lexer : Lexer) :
      lexer.errors <:+ (finish tolerant lexer).lexer.errors := run_errors tolerant 0 lexer
  induction rounds generalizing lexer with
  | zero => exact finish_agrees hstrict htolerant herrors
  | succ rounds ih =>
    rw [run_succ_eq, run_succ_eq]
    refine (reachLexeme_agrees hstrict htolerant herrors).andThen ?_ ?_
    · intro lexer herrors
      split
      · exact finish_agrees hstrict htolerant herrors
      · exact (accept_agrees hstrict htolerant herrors _).andThen (fun _ ↦ ih)
          (run_errors tolerant rounds)
    · intro lexer
      split
      · exact hfinish lexer
      · have haccept := accept_errors tolerant lexer lexer.scan
        generalize accept tolerant lexer lexer.scan = step at haccept ⊢
        obtain ⟨after, _ | failure⟩ := step
        · exact haccept.trans (run_errors tolerant rounds after)
        · exact haccept

end Modes

end Lexer

/-- A strict run ends with a failure exactly when a tolerant run records it first, and gives tokens
exactly when the tolerant run gives the same ones and records nothing. -/
theorem tokenize_agrees_up_to_first_fault {strict tolerant : LexerOptions}
    (hstrict : strict.mode = .strict) (htolerant : tolerant.mode ≠ .strict) (source : Bytes) :
    (∀ failure, (tokenize strict source).failure = some failure ↔
      (tokenize tolerant source).lexer.errorList.head? = some failure) ∧
    ∀ tokens, (tokenize strict source).result = .ok tokens ↔
      (tokenize tolerant source).result = .ok tokens ∧
        (tokenize tolerant source).lexer.errorList = [] := by
  have hagrees : (tokenize strict source).Agrees (tokenize tolerant source) :=
    Lexer.run_agrees hstrict htolerant _ rfl
  simp only [Lexer.errorList, List.head?_reverse, List.reverse_eq_nil_iff]
  generalize tokenize strict source = run at hagrees ⊢
  generalize tokenize tolerant source = run' at hagrees ⊢
  cases hagrees with
  | same herrors => simp [herrors, LexerStep.result]
  | stopped hfirst =>
    refine ⟨fun failure ↦ by rw [hfirst], fun tokens ↦ ⟨?_, ?_⟩⟩
    · intro h
      cases h
    · rintro ⟨-, hnone⟩
      rw [hnone] at hfirst
      cases hfirst

/-- A text that is never closed, behind a sign that starts no token. -/
theorem tokenize_agrees_up_to_first_fault_unclosed :
    (∀ failure, (tokenize {} (bytes "a \x01 'b")).failure = some failure ↔
      (tokenize { mode := .resilient, maxErrors := 0 } (bytes "a \x01 'b")).lexer.errorList.head? =
        some failure) ∧
    ∀ tokens, (tokenize {} (bytes "a \x01 'b")).result = .ok tokens ↔
      (tokenize { mode := .resilient, maxErrors := 0 } (bytes "a \x01 'b")).result = .ok tokens ∧
        (tokenize { mode := .resilient, maxErrors := 0 } (bytes "a \x01 'b")).lexer.errorList = [] :=
  tokenize_agrees_up_to_first_fault rfl (by decide) _

end SignalView
