import SignalView.Proofs.Compilation.Reading
import SignalView.Proofs.Lowering.Statements
import SignalView.Proofs.Script.Statements

/-!
# What can go wrong behind the parser

Each phase behind the parser takes on every construct that the phase before it gives. What a source
that was read can still fail with are the faults of its components and attributes, and the limits
on nesting.
-/

namespace SignalView

/-- A source that the strict lexer and the parser accept is lowered to views that all stand in their
places with nothing missing, or it has malformed parameters, a key or an attribute twice, or nesting
beyond the limit. What it is lowered to is written, in every format, unless its nesting is beyond
the limit. -/
theorem accepted_lowers_and_writes {lexer : LexerOptions} (hstrict : lexer.mode = .strict)
    {source : Bytes} {tokens : List Token} (hlexed : (tokenize lexer source).result = .ok tokens)
    {parser : Program.Options} {parsed : Program.Parsed}
    (hparsed : Program.parse parser tokens = .ok parsed) (options : ViewProgram.Options)
    (script : ScriptOptions) :
    match (ViewProgram.ofNode options parsed.root).1 with
    | .error failure =>
      failure.code ∈ [bytes "PSR-A001", bytes "PSR-A003", bytes "PSR-A004", bytes "PSR-A010"]
    | .ok program =>
      (∀ view ∈ program.body, view.Fits .statement) ∧
        match Script.ofProgram script program with
        | .error failure => failure.code = bytes "PSR-G010"
        | .ok _ => True := by
  have hnone : (tokenize lexer source).failure = none := by
    cases h : (tokenize lexer source).failure with
    | none => rfl
    | some failure => simp [LexerStep.result, h] at hlexed
  have hstream : Token.IsStream tokens := by
    have hlist := tokenize_isStream_of_strict hstrict hnone
    simp only [LexerStep.result, hnone] at hlexed
    rwa [Except.ok.inj hlexed] at hlist
  have hitems : ∀ item ∈ parsed.root.children, item.Placed True 0 .statement :=
    fun item hitem ↦ ⟨Program.parse_fits hstream hparsed item hitem, .inl trivial⟩
  obtain ⟨state, -, ⟨program, hrun, -, hbody, -⟩ | ⟨failure, hrun, hcode⟩⟩ :=
    ViewProgram.ofNode_cases options options hitems (Nat.zero_le options.maxDepth.toNat) rfl
      (Int.le_refl _)
  · simp only [hrun]
    refine ⟨fun view hview ↦ (hbody view hview).1, ?_⟩
    obtain ⟨result, hwritten, -⟩ | ⟨failure, hwritten, hcode, -⟩ :=
      Script.ofProgram_cases script script rfl (Int.le_refl _) hbody (Nat.zero_le _)
    · simp only [hwritten]
    · simp only [hwritten]
      exact hcode
  · simp only [hrun]
    rcases hcode with hcode | ⟨hcode, -⟩
    · have hknown := List.mem_append_left [bytes "PSR-A010"] hcode
      exact hknown
    · exact hcode ▸ by decide

/-- A component that renders a signal. -/
theorem accepted_lowers_and_writes_component :
    ∃ tokens parsed, (tokenize {} (bytes "component A() { return <p>{x()}</p>; }")).result =
        .ok tokens ∧ Program.parse {} tokens = .ok parsed ∧
      match (ViewProgram.ofNode {} parsed.root).1 with
      | .error failure =>
        failure.code ∈ [bytes "PSR-A001", bytes "PSR-A003", bytes "PSR-A004", bytes "PSR-A010"]
      | .ok program =>
        (∀ view ∈ program.body, view.Fits .statement) ∧
          match Script.ofProgram { runtimeModule := [] } program with
          | .error failure => failure.code = bytes "PSR-G010"
          | .ok _ => True := by
  obtain ⟨tokens, hlexed, hread⟩ : ∃ tokens,
      (tokenize {} (bytes "component A() { return <p>{x()}</p>; }")).result = .ok tokens ∧
        (Program.parse {} tokens).toBool = true := by
    refine ⟨_, rfl, ?_⟩
    decide +kernel
  cases hparsed : Program.parse {} tokens with
  | error => simp [hparsed, Except.toBool] at hread
  | ok parsed =>
    refine ⟨tokens, parsed, hlexed, hparsed, ?_⟩
    exact accepted_lowers_and_writes rfl hlexed hparsed {} { runtimeModule := [] }

end SignalView
