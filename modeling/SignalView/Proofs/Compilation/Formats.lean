import SignalView.Proofs.Compilation.Runtime
import SignalView.Proofs.Script.Formats.Programs

/-!
# What the module format changes

The module format decides how the imports at the top and the exports of values are written, and
nothing else. An export is written by the format wherever it stands, so a namespace has the same
text in both formats as long as it exports no values.
-/

namespace SignalView

open Slot

/-- What the module format changes of a program's output. -/
structure FormatAccount (options : ScriptOptions) (program : ViewProgram) : Prop where
  /-- The program is written in both formats or in none. It imports the same things in both, and a
  statement of it in which no export is written by the format has the same text. -/
  outcome :
    (∃ failure, ∀ format,
      Script.ofProgram (options.inFormat format) program = .error failure) ∨
    ∃ (rows : List (Bytes × Bytes)) (final : EmitState),
      Script.statementTexts (emission (options.inFormat .esm) options.maxDepth.toNat) program 0 {} =
        .ok (rows.map Prod.fst, final) ∧
      Script.statementTexts (emission (options.inFormat .commonjs) options.maxDepth.toNat) program
        0 {} = .ok (rows.map Prod.snd, final) ∧
      Script.ofProgram (options.inFormat .esm) program =
        .ok (Script.assembled .esm final.imports (rows.map Prod.fst)) ∧
      Script.ofProgram (options.inFormat .commonjs) program =
        .ok (Script.assembled .commonjs final.imports (rows.map Prod.snd)) ∧
      List.Forall₂ (fun view row ↦ view.FormatFree → row.1 = row.2) program.body rows
  /-- Wherever it stands, what holds no export that is written by the format is written the same. -/
  same : ∀ view ∈ program.subviews, view.FormatFree → ∀ levels,
    (emission (options.inFormat .esm) levels).statement view =
      (emission (options.inFormat .commonjs) levels).statement view ∧
    (emission (options.inFormat .esm) levels).expression view =
      (emission (options.inFormat .commonjs) levels).expression view
  /-- Wherever it stands, an export that is written by the format has two different texts, when its
  parts have not. -/
  apart : ∀ view ∈ program.subviews, view.readsFormat = true →
    (∀ part ∈ parts view.slots, part.FormatFree) → ∀ levels,
      Emit.Apart ((emission (options.inFormat .esm) levels).statement view)
        ((emission (options.inFormat .commonjs) levels).statement view)

theorem View.FormatFree.stable {view : View} (h : view.FormatFree)
    (hsound : ∀ part ∈ view.subviews, part.Sound) : view.Stable True :=
  fun part hpart ↦ ⟨hsound part hpart, fun _ ↦ h part hpart⟩

namespace Compilation

open Emission Script

variable {options : Options} {source : Bytes} {tokens : List Token} {root : Node}

/-- The module format changes the imports at the top and the exports of values. -/
theorem ReadAs.formatAccount (h : ReadAs options source tokens root) {program : ViewProgram}
    {state : LoweringState}
    (hlowered : ViewProgram.ofNode options.lowering root = (.ok program, state)) :
    FormatAccount options.script program := by
  have hbody := h.kept hlowered
  have hsound : ∀ view ∈ program.subviews, ∀ part ∈ view.subviews, part.Sound := by
    intro view hview
    obtain ⟨statement, hstatement, hpart⟩ := mem_sum_map.mp hview
    obtain ⟨_, hkept⟩ := (hbody statement hstatement).of_mem_subviews hpart
    exact hkept.2
  constructor
  case outcome =>
    obtain ⟨failure, hesm, hcommonjs⟩ | ⟨rows, final, hesm, hcommonjs, hrows⟩ :=
      @statementTexts_rows options.script program (fun view hview ↦ (hbody view hview).2)
        .esm .commonjs options.maxDepth.toNat 0 {}
    · refine .inl ⟨failure, fun format ↦ ?_⟩
      rw [ofProgram_eq]
      cases format with
      | esm => exact congrArg (Except.map _) hesm
      | commonjs => exact congrArg (Except.map _) hcommonjs
    · refine .inr ⟨rows, final, hesm, hcommonjs, ?_, ?_, hrows⟩
      · rw [ofProgram_eq]
        exact congrArg (Except.map _) hesm
      · rw [ofProgram_eq]
        exact congrArg (Except.map _) hcommonjs
  case same =>
    intro view hview hfree levels
    have hparallel := @emission_parallel options.script True .esm .commonjs levels
    have hstable := hfree.stable (hsound view hview)
    exact ⟨(hparallel.statement hstable).eq, (hparallel.expression hstable).eq⟩
  case apart =>
    intro view hview hreads hfree levels
    refine emission_apart hreads (fun part hpart ↦ ?_) levels
    refine (hfree part hpart).stable fun inner hinner ↦ hsound view hview inner ?_
    rw [View.subviews_eq, Multiset.mem_cons]
    exact .inr (mem_subviews.mpr ⟨part, hpart, hinner⟩)

/-- The text of a program in a format, if it can be written. -/
def textIn? (options : Options) (format : ModuleFormat) (program : ViewProgram) : Option Bytes :=
  ((Script.ofProgram (options.script.inFormat format) program).map (·.text)).toOption

/-- Of two namespaces, the one that exports a value has another text in each format. -/
theorem ReadAs.formatAccount_namespaces :
    ∃ tokens root program state,
      ReadAs {} (bytes "namespace N \x7b export const x = 1; \x7d\nnamespace M \x7b let y; \x7d")
        tokens root ∧
      ViewProgram.ofNode (Options.lowering {}) root = (.ok program, state) ∧
      FormatAccount (Options.script {}) program ∧
      textIn? {} .esm program = some (bytes "namespace N \x7b\n  export const x = 1;\n\x7d\n" ++
        bytes "namespace M \x7b\n  let y;\n\x7d\n") ∧
      textIn? {} .commonjs program = some (
        bytes "namespace N \x7b\n  const x = 1;\n  exports.x = x;\n\x7d\n" ++
          bytes "namespace M \x7b\n  let y;\n\x7d\n") := by
  have hreads : reads {}
      (bytes "namespace N \x7b export const x = 1; \x7d\nnamespace M \x7b let y; \x7d")
      (fun _ root ↦ (written? {} root).any fun result ↦
        decide (textIn? {} .esm result.1 =
          some (bytes "namespace N \x7b\n  export const x = 1;\n\x7d\n" ++
            bytes "namespace M \x7b\n  let y;\n\x7d\n") ∧
          textIn? {} .commonjs result.1 = some (
            bytes "namespace N \x7b\n  const x = 1;\n  exports.x = x;\n\x7d\n" ++
              bytes "namespace M \x7b\n  let y;\n\x7d\n"))) = true := by
    decide +kernel
  obtain ⟨tokens, root, hread, houtput⟩ := exists_of_reads hreads
  obtain ⟨⟨program, code, final⟩, hresult, htexts⟩ := (Option.any_eq_true _ _).mp houtput
  obtain ⟨state, hlowered, -⟩ := exists_of_written? hresult
  exact ⟨tokens, root, program, state, hread, hlowered, hread.formatAccount hlowered,
    of_decide_eq_true htexts⟩

end Compilation

end SignalView
