import SignalView.Proofs.Compilation.Outcome
import SignalView.Proofs.Script.Statements

/-!
# Limits on the nesting

A limit on the nesting only ever stops a compilation. What is compiled without an error under one
limit comes to the same under every limit that is no lower.

Each phase counts in its own way. The parser does not count the operands that it gathers in a loop,
and the phases behind it count every construct on the way down, so that they can stop at what the
parser has read. A tree whose paths are no longer than the limit passes both of them.
-/

namespace SignalView.Compilation

variable {options : Options} {source : Bytes} {tokens : List Token} {root : Node} {maxDepth : Int}

theorem Stopped.not_clean {result : Compilation} (h : result.Stopped) : result.hasErrors ≠ false :=
  fun hnone ↦ Bool.noConfusion (hnone.symm.trans h.2)

theorem ReadAs.deeper (h : ReadAs options source tokens root)
    (hdepth : options.maxDepth ≤ maxDepth) :
    ReadAs { options with maxDepth := maxDepth } source tokens root where
  lexed := h.lexed
  clean := h.clean
  parsed := Program.parse_deeper h.isStream.kind_ne h.parsed rfl hdepth

/-- What is lowered from a tree that was read is written in the same way. -/
theorem ofViews_deeper (hdepth : options.maxDepth ≤ maxDepth) {log : List Log.Entry}
    {diagnostics : List Diagnostic} {program : ViewProgram}
    (hbody : ∀ view ∈ program.body, view.Placed True 0 .statement)
    (hclean : (ofViews options log diagnostics program).hasErrors = false) :
    ofViews { options with maxDepth := maxDepth } log diagnostics program =
      ofViews options log diagnostics program := by
  unfold ofViews at hclean ⊢
  dsimp only at hclean ⊢
  split
  · rfl
  · next hnone =>
    rw [if_neg hnone] at hclean
    obtain ⟨script, hwritten, hdeeper⟩ | ⟨failure, hwritten, -⟩ :=
      Script.ofProgram_cases options.script (Options.script { options with maxDepth := maxDepth })
        rfl hdepth hbody (Nat.zero_le _)
    · rw [hwritten, hdeeper]
    · rw [hwritten] at hclean
      exact absurd hclean (stopped_failed _ _ failure).not_clean

theorem ofTree_deeper (h : ReadAs options source tokens root)
    (hdepth : options.maxDepth ≤ maxDepth) {log : List Log.Entry}
    (hclean : (ofTree options source log root).hasErrors = false) :
    ofTree { options with maxDepth := maxDepth } source log root =
      ofTree options source log root := by
  unfold ofTree at hclean ⊢
  dsimp only at hclean ⊢
  split
  · next hview =>
    rw [if_pos hview] at hclean
    have hitems : ∀ item ∈ root.children, item.Placed True 0 .statement := fun item hitem ↦
      ⟨Program.parse_fits h.isStream h.parsed item hitem, .inl trivial⟩
    obtain ⟨state, -, ⟨program, hrun, hdeeper, hbody, -⟩ | ⟨failure, hrun, -⟩⟩ :=
      ViewProgram.ofNode_cases options.lowering
        (Options.lowering { options with maxDepth := maxDepth }) hitems (Nat.zero_le _) rfl hdepth
    · rw [hrun] at hclean ⊢
      rw [hdeeper]
      exact ofViews_deeper hdepth hbody hclean
    · rw [hrun] at hclean
      exact absurd hclean (stopped_failed _ _ failure).not_clean
  · rfl

/-- What is compiled without an error is compiled in the same way under a deeper limit. -/
theorem ofSource_deeper (hdepth : options.maxDepth ≤ maxDepth)
    (hclean : (ofSource options source).hasErrors = false) :
    ofSource { options with maxDepth := maxDepth } source = ofSource options source := by
  obtain ⟨result, hstopped, hall⟩ | ⟨tokens, root, hread⟩ := ofSource_cases options source
  · rw [show ofSource options source = result from hall options.strict] at hclean
    exact absurd hclean hstopped.not_clean
  · rw [hread.ofSource_eq] at hclean ⊢
    rw [(hread.deeper hdepth).ofSource_eq]
    exact ofTree_deeper hread hdepth hclean

/-- A component under a limit of seven levels, and under the usual one. -/
theorem ofSource_deeper_component :
    let source := bytes "component A() { return <p>{x}</p>; }"
    (ofSource { maxDepth := 7 } source).hasErrors = false ∧
      ofSource { maxDepth := 100 } source = ofSource { maxDepth := 7 } source := by
  have hclean : (ofSource { maxDepth := 7 }
      (bytes "component A() { return <p>{x}</p>; }")).hasErrors = false := by
    decide +kernel
  exact ⟨hclean, @ofSource_deeper { maxDepth := 7 } _ 100 (by decide) hclean⟩

/-- Whether a tree is a statement of an element without attributes and children. -/
def isLoneElement : Node → Bool
  | .surface _ (.program
      [.plain _ (.expressionStatement (.surface _ (.element _ [] [] _)))]) => true
  | _ => false

theorem within_of_isLoneElement (h : isLoneElement root = true) :
    ∀ item ∈ root.children, item.Within 3 := by
  unfold isLoneElement at h
  split at h
  · next range statement element tag selfClosing =>
    have helement : Node.Within 2 (.surface element (.element tag [] [] selfClosing)) :=
      .surface (Nat.le_refl (0 + 2)) (by simp [Surface.slots, Slot.filled])
    have hstatement : Node.Within 3 (.plain statement (.expressionStatement
        (.surface element (.element tag [] [] selfClosing)))) := by
      refine .plain (Nat.lt_succ_self 2) fun place part hpart ↦ ?_
      obtain ⟨-, rfl⟩ : place = .expression ∧ part = _ := by simpa [Plain.slots] using hpart
      exact helement
    simpa [Node.children, Surface.children] using hstatement
  · cases h

/-- Whether a tree is not lowered because of a failure with a code. -/
def failsWith (options : Options) (code : Bytes) (root : Node) : Bool :=
  match (ViewProgram.ofNode options.lowering root).1 with
  | .error failure => failure.code == code
  | .ok _ => false

theorem exists_of_failsWith {code : Bytes} (h : failsWith options code root = true) :
    ∃ failure, (ViewProgram.ofNode options.lowering root).1 = .error failure ∧
      failure.code = code := by
  unfold failsWith at h
  split at h
  · next failure hrun => exact ⟨failure, hrun, eq_of_beq h⟩
  · cases h

end SignalView.Compilation
