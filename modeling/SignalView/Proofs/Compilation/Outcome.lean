import SignalView.Proofs.Compilation.Reading
import SignalView.Proofs.Lowering.Statements
import SignalView.Proofs.Syntax.Parts

/-!
# The outcome of a compilation

A compilation ends in one of three ways: with errors and without code, with the source itself and a
remark, or with the text of the lowered program and warnings at most. A strict one comes to the same
as one that is not, unless that has warnings.
-/

namespace SignalView

open Slot

/-! ## Trees without views -/

/-- In a tree that has nothing to compile there is no component, no element and no fragment. -/
theorem Compilation.not_isView_of_contains {Tag : Bytes → Prop} {range : Range} {body : List Node}
    (hbody : ∀ item ∈ body, item.Fits Tag .statement)
    (hview : hasView (.surface range (.program body)) = false) {inner : Node}
    (hinner : (Node.surface range (.program body)).Contains inner) :
    inner.isComponent = false ∧ inner.isMarkup = false := by
  have hreached (h : (Node.surface range (.program body)).Reached inner) :
      inner.isComponent = false ∧ inner.isMarkup = false := by
    have hnot := List.any_eq_false.mp hview inner h.mem_descendants
    simpa using hnot
  cases hinner with
  | self => exact ⟨rfl, rfl⟩
  | @surface _ _ place item _ hpart hinner =>
    obtain ⟨rfl, hitem⟩ := mem_filled.mp hpart
    obtain rfl | hbelow | ⟨range, form, rfl⟩ := hinner.reached (hbody item hitem)
    · exact hreached (.of_mem_children hitem (.inl rfl))
    · exact hreached (.of_mem_children hitem (.inr hbelow))
    · exact ⟨rfl, rfl⟩

namespace Compilation

variable {options : Options} {source : Bytes}

/-! ## Ways to end -/

/-- The compilation has no code, and an error to say why. -/
def Stopped (result : Compilation) : Prop := result.code = [] ∧ result.hasErrors = true

theorem stopped_failed (log : List Log.Entry) (diagnostics : List Diagnostic) (failure : Failure) :
    (failed log diagnostics failure).Stopped := by
  simp [Stopped, failed, hasErrors, Failure.toDiagnostic]

theorem stopped_rejected {failures : List Failure} (h : failures ≠ []) (log : List Log.Entry)
    (phase : Phase) (message : Bytes) :
    (rejected log (failures.map Failure.toDiagnostic) phase message).Stopped := by
  refine ⟨rfl, List.any_eq_true.mpr ?_⟩
  obtain ⟨failure, more, rfl⟩ := List.exists_cons_of_ne_nil h
  exact ⟨failure.toDiagnostic, by simp [rejected], rfl⟩

/-- What a source is read as, when its tokens and its tree are without a fault. -/
structure ReadAs (options : Options) (source : Bytes) (tokens : List Token)
    (root : Node) : Prop where
  lexed : (tokenize options.lexer source).result = .ok tokens
  clean : (tokenize options.lexer source).lexer.errorList = []
  parsed : Program.parse options.parser tokens = .ok ⟨root, []⟩

theorem ReadAs.isStream {tokens : List Token} {root : Node}
    (h : ReadAs options source tokens root) : Token.IsStream tokens := by
  have hlexed := h.lexed
  unfold LexerStep.result at hlexed
  split at hlexed
  · cases hlexed
  · next hnone =>
    rw [← Except.ok.inj hlexed]
    exact tokenize_isStream hnone h.clean

/-- Whether a source is read without a fault, as tokens and a tree with a property. -/
def reads (options : Options) (source : Bytes) (property : List Token → Node → Bool) : Bool :=
  let run := tokenize options.lexer source
  run.failure.isNone && run.lexer.errorList.isEmpty &&
    match Program.parse options.parser run.lexer.tokenList with
    | .ok ⟨root, []⟩ => property run.lexer.tokenList root
    | _ => false

theorem exists_of_reads {property : List Token → Node → Bool}
    (h : reads options source property = true) :
    ∃ tokens root, ReadAs options source tokens root ∧ property tokens root = true := by
  simp only [reads, Bool.and_eq_true, Option.isNone_iff_eq_none, List.isEmpty_iff] at h
  obtain ⟨⟨hnone, hclean⟩, htree⟩ := h
  split at htree
  · next root hparsed =>
    refine ⟨_, root, ⟨?_, hclean, hparsed⟩, htree⟩
    rw [LexerStep.result, hnone]
  · cases htree

/-- Whether a source is read without faults, and lowered to a program that has a property. -/
def lowers (source : Bytes) (property : ViewProgram → Bool) : Bool :=
  reads {} source fun _ root ↦
    match (ViewProgram.ofNode {} root).1 with
    | .ok program => property program
    | .error _ => false

theorem exists_of_lowers {property : ViewProgram → Bool} (h : lowers source property = true) :
    ∃ tokens root program state, ReadAs {} source tokens root ∧
      ViewProgram.ofNode {} root = (.ok program, state) ∧ property program = true := by
  obtain ⟨tokens, root, hread, hlowered⟩ := exists_of_reads h
  split at hlowered
  · next program hprogram =>
    exact ⟨tokens, root, program, (ViewProgram.ofNode {} root).2, hread,
      Prod.ext hprogram rfl, hlowered⟩
  · cases hlowered

/-- The entry of the log that a lowering starts with. -/
def tokenEntry (options : Options) (tokens : List Token) : Log.Entry :=
  debugEntry .lexer (Bytes.ofNat tokens.length ++ bytes " tokens from " ++ options.unitName)

theorem ReadAs.ofSource_eq {tokens : List Token} {root : Node}
    (h : ReadAs options source tokens root) :
    ofSource options source = ofTree options source [tokenEntry options tokens] root := by
  have hlexed := h.lexed
  unfold LexerStep.result at hlexed
  split at hlexed
  · cases hlexed
  · next hnone =>
    simp only [ofSource, hnone, h.clean, List.isEmpty_nil, if_true, Except.ok.inj hlexed, ofTokens,
      tokenEntry, h.parsed]

/-- Strictness plays no part before lowering. -/
theorem ReadAs.exists_ofTree {tokens : List Token} {root : Node}
    (h : ReadAs options source tokens root) :
    ∃ log, ∀ strict, ofSource { options with strict := strict } source =
      ofTree { options with strict := strict } source log root := by
  have hread (strict : Bool) : ReadAs { options with strict := strict } source tokens root :=
    ⟨h.lexed, h.clean, h.parsed⟩
  exact ⟨[tokenEntry options tokens], fun strict ↦ (hread strict).ofSource_eq⟩

/-- A phase in front of lowering stops the compilation, whether it is strict or not, or the source
is read. -/
theorem ofSource_cases (options : Options) (source : Bytes) :
    (∃ result : Compilation, result.Stopped ∧
      ∀ strict, ofSource { options with strict := strict } source = result) ∨
    ∃ tokens root, ReadAs options source tokens root := by
  have hlexer (strict : Bool) : { options with strict := strict }.lexer = options.lexer := rfl
  have hparser (strict : Bool) : { options with strict := strict }.parser = options.parser := rfl
  have hname (strict : Bool) : { options with strict := strict }.unitName = options.unitName := rfl
  simp only [ofSource, ofTokens, hlexer, hparser, hname]
  cases hfailure : (tokenize options.lexer source).failure with
  | some failure => exact .inl ⟨_, stopped_failed _ _ failure, fun _ ↦ rfl⟩
  | none =>
    cases herrors : (tokenize options.lexer source).lexer.errorList with
    | cons failure more => exact .inl ⟨_, stopped_rejected (by simp) _ _ _, fun _ ↦ rfl⟩
    | nil =>
      dsimp only [List.isEmpty_nil, if_true]
      cases hparse :
        Program.parse options.parser (tokenize options.lexer source).lexer.tokenList with
      | error failure => exact .inl ⟨_, stopped_failed _ _ failure, fun _ ↦ rfl⟩
      | ok parsed =>
        obtain ⟨root, errors⟩ := parsed
        cases errors with
        | cons failure more => exact .inl ⟨_, stopped_rejected (by simp) _ _ _, fun _ ↦ rfl⟩
        | nil =>
          refine .inr ⟨_, root, ?_, herrors, hparse⟩
          rw [LexerStep.result, hfailure]

/-- A tree without views is left alone, and any other is lowered; lowering stops the compilation,
or warns at most. -/
theorem ofTree_cases {tokens : List Token} {root : Node} (h : ReadAs options source tokens root)
    (log : List Log.Entry) :
    (hasView root = false ∧ ∃ log', ∀ strict,
      ofTree { options with strict := strict } source log root =
        { code := source, diagnostics := [passedThroughNote], log := log' }) ∨
    (∃ result : Compilation, result.Stopped ∧
      ∀ strict, ofTree { options with strict := strict } source log root = result) ∨
    ∃ program state log', state.OnlyWarns ∧
      ViewProgram.ofNode options.lowering root = (.ok program, state) ∧
      ∀ strict, ofTree { options with strict := strict } source log root =
        ofViews { options with strict := strict } log' state.diagnostics program := by
  have hlowering (strict : Bool) : { options with strict := strict }.lowering = options.lowering :=
    rfl
  simp only [ofTree, hlowering]
  cases hview : hasView root with
  | false => exact .inl ⟨rfl, _, fun _ ↦ rfl⟩
  | true =>
    have hitems : ∀ item ∈ root.children, item.Placed True 0 .statement := fun item hitem ↦
      ⟨Program.parse_fits h.isStream h.parsed item hitem, .inl trivial⟩
    obtain ⟨state, hwarns, ⟨program, hrun, -⟩ | ⟨failure, hrun, -⟩⟩ :=
      ViewProgram.ofNode_cases options.lowering options.lowering hitems (Nat.zero_le _) rfl
        (Int.le_refl _)
    · simp only [hrun]
      exact .inr (.inr ⟨program, state, _, hwarns, rfl, fun _ ↦ rfl⟩)
    · simp only [hrun]
      exact .inr (.inl ⟨_, stopped_failed _ _ failure, fun _ ↦ rfl⟩)

/-! ## Writing what was lowered -/

section Views

variable {log : List Log.Entry} {diagnostics : List Diagnostic} {program : ViewProgram}

theorem map_promoted_relaxed : diagnostics.map (promoted false) = diagnostics :=
  (List.map_congr_left fun d _ ↦ by simp [promoted]).trans (List.map_id _)

theorem not_any_error (h : ∀ d ∈ diagnostics, d.severity = .warning) :
    diagnostics.any (·.severity == .error) = false := by
  rw [List.any_eq_false]
  intro d hd
  simp [h d hd]

/-- In a strict compilation every warning is an error. -/
theorem any_promoted_strict (h : ∀ d ∈ diagnostics, d.severity = .warning)
    (hsome : diagnostics ≠ []) :
    (diagnostics.map (promoted true)).any (·.severity == .error) = true := by
  obtain ⟨d, more, rfl⟩ := List.exists_cons_of_ne_nil hsome
  simp [promoted, h d List.mem_cons_self]

/-- With nothing to report but warnings, the writer stops the compilation, or strictness does, or
the text is written under the warnings there are; a strict compilation has none then. -/
theorem ofViews_cases (options : Options) (log : List Log.Entry) (program : ViewProgram)
    (h : ∀ d ∈ diagnostics, d.severity = .warning) :
    (ofViews options log diagnostics program).Stopped ∨
      ((∃ script, Script.ofProgram options.script program = .ok script ∧
        (ofViews options log diagnostics program).code = script.text) ∧
        (ofViews options log diagnostics program).diagnostics = diagnostics ∧
        (options.strict = true → diagnostics = [])) := by
  have hwritten (hsame : diagnostics.map (promoted options.strict) = diagnostics) :
      (ofViews options log diagnostics program).Stopped ∨
        ((∃ script, Script.ofProgram options.script program = .ok script ∧
          (ofViews options log diagnostics program).code = script.text) ∧
          (ofViews options log diagnostics program).diagnostics = diagnostics) := by
    simp only [ofViews, hsame, not_any_error h, Bool.false_eq_true, if_false]
    cases Script.ofProgram options.script program with
    | ok script => exact .inr ⟨⟨script, rfl, rfl⟩, rfl⟩
    | error failure => exact .inl (stopped_failed _ _ failure)
  cases hstrict : options.strict with
  | false =>
    rw [hstrict] at hwritten
    exact (hwritten map_promoted_relaxed).imp id fun hresult ↦ ⟨hresult.1, hresult.2, nofun⟩
  | true =>
    by_cases hnone : diagnostics = []
    · subst hnone
      exact (hwritten rfl).imp id fun hresult ↦ ⟨hresult.1, hresult.2, fun _ ↦ rfl⟩
    · have hany :
          (diagnostics.map (promoted options.strict)).any (·.severity == .error) = true := by
        rw [hstrict]
        exact any_promoted_strict h hnone
      left
      simp only [ofViews, hany, if_true]
      exact ⟨rfl, hany⟩

end Views

/-! ## The contract -/

/-- Whether a diagnostic is an error or a warning. -/
def isFault (d : Diagnostic) : Bool := d.severity == .error || d.severity == .warning

theorem Stopped.any_isFault {result : Compilation} (h : result.Stopped) :
    result.diagnostics.any isFault = true := by
  obtain ⟨d, hmem, hd⟩ := List.any_eq_true.mp h.2
  exact List.any_eq_true.mpr ⟨d, hmem, by simp [isFault, hd]⟩

/-- A compilation that is not stopped passes a source without views through, or writes what the
source is lowered to. -/
theorem ofSource_ends (options : Options) (source : Bytes) :
    let result := ofSource options source
    result.Stopped ∨ result.hasErrors = false ∧ ∃ tokens root, ReadAs options source tokens root ∧
      (((∀ inner, root.Contains inner → inner.isComponent = false ∧ inner.isMarkup = false) ∧
          result.code = source ∧ result.diagnostics = [passedThroughNote]) ∨
        ∃ program state script, ViewProgram.ofNode options.lowering root = (.ok program, state) ∧
          Script.ofProgram options.script program = .ok script ∧ result.code = script.text ∧
          ∀ d ∈ result.diagnostics, d.severity = .warning) := by
  intro result
  obtain ⟨stopped, hstopped, hall⟩ | ⟨tokens, root, hread⟩ := ofSource_cases options source
  · have hresult : result = stopped := hall options.strict
    exact .inl (hresult ▸ hstopped)
  obtain ⟨log, hall⟩ := hread.exists_ofTree
  obtain ⟨hview, log', htree⟩ | ⟨stopped, hstopped, htree⟩ |
      ⟨program, state, log', hwarns, hrun, htree⟩ := ofTree_cases hread log
  · have hresult : result = { code := source, diagnostics := [passedThroughNote], log := log' } :=
      (hall options.strict).trans (htree options.strict)
    obtain ⟨range, body, hroot, hbody⟩ := Program.parse_root hread.isStream hread.parsed
    dsimp only at hroot
    subst hroot
    refine .inr ⟨by rw [hresult]; rfl, tokens, _, hread, .inl ⟨fun inner ↦ ?_, ?_, ?_⟩⟩
    · exact not_isView_of_contains hbody hview
    · rw [hresult]
    · rw [hresult]
  · have hresult : result = stopped := (hall options.strict).trans (htree options.strict)
    exact .inl (hresult ▸ hstopped)
  · have hresult : result = ofViews options log' state.diagnostics program :=
      (hall options.strict).trans (htree options.strict)
    obtain hstopped | ⟨⟨script, hwritten, hcode⟩, hdiagnostics, -⟩ :=
      ofViews_cases options log' program hwarns
    · exact .inl (hresult ▸ hstopped)
    · refine .inr ⟨?_, tokens, root, hread, .inr ⟨program, state, script, hrun, hwritten, ?_, ?_⟩⟩
      · rw [hresult, hasErrors, hdiagnostics]
        exact not_any_error hwarns
      · rw [hresult, hcode]
      · rw [hresult, hdiagnostics]
        exact hwarns

/-- Strictness makes errors of warnings, and changes nothing else. -/
theorem ofSource_strict (options : Options) (source : Bytes) :
    let strict := ofSource { options with strict := true } source
    let relaxed := ofSource { options with strict := false } source
    (strict.hasErrors = true ↔ relaxed.diagnostics.any isFault = true) ∧
      (strict.hasErrors = false → strict = relaxed) := by
  intro strict relaxed
  have hstops {stopped other : Compilation} (hstrict : strict = stopped) (h : stopped.Stopped)
      (hrelaxed : relaxed = other) (hfault : other.diagnostics.any isFault = true) :
      (strict.hasErrors = true ↔ relaxed.diagnostics.any isFault = true) ∧
        (strict.hasErrors = false → strict = relaxed) := by
    rw [hstrict, hrelaxed]
    refine ⟨iff_of_true h.2 hfault, fun hnone ↦ ?_⟩
    rw [h.2] at hnone
    cases hnone
  obtain ⟨stopped, hstopped, hall⟩ | ⟨tokens, root, hread⟩ := ofSource_cases options source
  · exact hstops (hall true) hstopped (hall false) hstopped.any_isFault
  obtain ⟨log, hall⟩ := hread.exists_ofTree
  obtain ⟨-, log', htree⟩ | ⟨stopped, hstopped, htree⟩ |
      ⟨program, state, log', hwarns, -, htree⟩ := ofTree_cases hread log
  · have hresult (b : Bool) := (hall b).trans (htree b)
    rw [show strict = _ from hresult true, show relaxed = _ from hresult false]
    exact ⟨by simp [hasErrors, passedThroughNote, isFault], fun _ ↦ rfl⟩
  · have hresult (b : Bool) := (hall b).trans (htree b)
    exact hstops (hresult true) hstopped (hresult false) hstopped.any_isFault
  · have hresult (b : Bool) := (hall b).trans (htree b)
    by_cases hnone : state.diagnostics = []
    · -- nothing is there to be promoted, so the two come to the same
      have hsame : strict = relaxed := by
        rw [show strict = _ from hresult true, show relaxed = _ from hresult false, hnone]
        rfl
      refine ⟨?_, fun _ ↦ hsame⟩
      rw [hsame]
      obtain hstopped | ⟨-, hdiagnostics, -⟩ := ofViews_cases
        { options with strict := false } log' program hwarns
      · rw [show relaxed = _ from hresult false]
        exact iff_of_true hstopped.2 hstopped.any_isFault
      · rw [show relaxed = _ from hresult false, hasErrors, hdiagnostics, hnone]
        rfl
    · refine hstops (hresult true) ?_ (hresult false) ?_
      · have hviews := ofViews_cases { options with strict := true } log' program hwarns
        exact hviews.resolve_right fun hwritten ↦ hnone (hwritten.2.2 rfl)
      · obtain hstopped | ⟨-, hdiagnostics, -⟩ := ofViews_cases
          { options with strict := false } log' program hwarns
        · exact hstopped.any_isFault
        · obtain ⟨d, more, hcons⟩ := List.exists_cons_of_ne_nil hnone
          rw [hdiagnostics, List.any_eq_true]
          refine ⟨d, by simp [hcons], ?_⟩
          simp [isFault, hwarns d (by simp [hcons])]

/-- With errors there is no code. Without errors a source that contains no component, no element and
no fragment is passed through with a remark, and any other gives the text of what it is lowered to,
with warnings at most. A strict compilation has an error exactly when one that is not strict has an
error or a warning, and comes to the same when it has none. -/
theorem ofSource_contract (options : Options) (source : Bytes) :
    let result := ofSource options source
    let strict := ofSource { options with strict := true } source
    let relaxed := ofSource { options with strict := false } source
    (result.hasErrors = true → result.code = []) ∧
    (result.hasErrors = false → ∃ tokens root, ReadAs options source tokens root ∧
      (((∀ inner, root.Contains inner → inner.isComponent = false ∧ inner.isMarkup = false) ∧
          result.code = source ∧ result.diagnostics = [passedThroughNote]) ∨
        ∃ program state script, ViewProgram.ofNode options.lowering root = (.ok program, state) ∧
          Script.ofProgram options.script program = .ok script ∧ result.code = script.text ∧
          ∀ d ∈ result.diagnostics, d.severity = .warning)) ∧
    (strict.hasErrors = true ↔ relaxed.diagnostics.any isFault = true) ∧
    (strict.hasErrors = false → strict = relaxed) := by
  intro result strict relaxed
  obtain ⟨hiff, hsame⟩ := ofSource_strict options source
  obtain hstopped | ⟨hnone, hends⟩ := ofSource_ends options source
  · refine ⟨fun _ ↦ hstopped.1, fun hnone ↦ ?_, hiff, hsame⟩
    rw [hstopped.2] at hnone
    cases hnone
  · refine ⟨fun herrors ↦ ?_, fun _ ↦ hends, hiff, hsame⟩
    rw [hnone] at herrors
    cases herrors

end Compilation

end SignalView
