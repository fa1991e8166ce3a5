import SignalView.Proofs.Script.Formats.Statements
import SignalView.Proofs.Script.Statements

/-!
# Programs in two formats

A program is written in both formats or in none, and it imports the same things. What holds no
export that is written by the format has the same text in both, wherever it stands. An export that
is written by the format has another text in each of them, and it has it in a namespace as well as
at the level of the module.
-/

namespace SignalView

open Slot

/-- The same options with another module format. -/
def ScriptOptions.inFormat (options : ScriptOptions) (format : ModuleFormat) : ScriptOptions :=
  { options with format := format }

namespace Emit

variable {α : Type}

/-- What the one action writes, the other one writes as another text. -/
def Apart (action other : Emit Bytes) : Prop :=
  ∀ level s text t, action level s = .ok (text, t) →
    ∃ text', other level s = .ok (text', t) ∧ text ≠ text'

namespace Apart

theorem pure {text text' : Bytes} (h : text ≠ text') :
    Apart (Pure.pure text) (Pure.pure text') := by
  rintro level s _ _ ⟨⟩
  exact ⟨text', rfl, h⟩

theorem after {action : Emit α} {next next' : α → Emit Bytes}
    (h : ∀ value, Apart (next value) (next' value)) :
    Apart (action >>= next) (action >>= next') := by
  intro level s text t hrun
  obtain ⟨value, middle, hvalue, hrun⟩ := bind_eq_ok.mp hrun
  rw [bind_of_ok hvalue]
  exact h value level middle text t hrun

theorem still {action : Emit α} (haction : Still action) {text : Bytes} {next : α → Emit Bytes}
    (h : ∀ value, Apart (Pure.pure text) (next value)) :
    Apart (Pure.pure text) (action >>= next) := by
  intro level s text t hrun
  obtain ⟨value, hvalue⟩ := haction level s
  rw [bind_of_ok hvalue]
  exact h value level s text t hrun

theorem ite_right {c : Prop} [Decidable c] {action other other' : Emit Bytes}
    (h : c → Apart action other) (h' : ¬c → Apart action other') :
    Apart action (if c then other else other') := by
  split
  · next hc => exact h hc
  · next hc => exact h' hc

end Apart

end Emit

namespace Emission

open Emit

/-! ## Exports -/

theorem ne_of_take {text text' lead lead' : Bytes} (h : text.take 7 = lead)
    (h' : text'.take 7 = lead') (hne : lead ≠ lead') : text ≠ text' := by
  rintro rfl
  exact hne (h.symm.trans h')

/-- What is assigned to an export begins with the object that holds the exports. -/
theorem exists_exportTarget (name : Bytes) :
    ∃ rest, exportTarget name = bytes "exports" ++ rest := by
  unfold exportTarget
  split
  · exact ⟨bytes "." ++ name, rfl⟩
  · exact ⟨bytes "[" ++ name ++ bytes "]", rfl⟩

theorem exists_join (separator text : Bytes) (texts : List Bytes) :
    ∃ rest, Bytes.join separator (text :: texts) = text ++ rest := by
  cases texts with
  | nil => exact ⟨[], by simp [Bytes.join]⟩
  | cons next texts =>
    exact ⟨separator ++ Bytes.join separator (next :: texts), by simp [Bytes.join]⟩

/-- The assignments behind a declaration are longer than the word in front of it. -/
theorem export_ne_assigned (text margin : Bytes) {names : List Bytes} (hnames : names ≠ []) :
    bytes "export " ++ text ≠ text ++ names.flatMap fun name ↦
      bytes "\n" ++ margin ++ exportTarget name ++ bytes " = " ++ name ++ bytes ";" := by
  obtain ⟨name, names, rfl⟩ := List.exists_cons_of_ne_nil hnames
  obtain ⟨rest, hrest⟩ := exists_exportTarget name
  intro heq
  have hlength := congrArg List.length heq
  have hword : (bytes "export ").length = 7 := by decide
  have hobject : (bytes "exports").length = 7 := by decide
  have hbreak : (bytes "\n").length = 1 := by decide
  simp only [List.flatMap_cons, hrest, List.length_append, hword, hobject, hbreak] at hlength
  omega

theorem exportAssignments_apart (e : Emission) {text : Bytes}
    (htext : text.take 7 = bytes "export ") (specifiers : List ExportSpecifier) (source : Bytes) :
    Apart (pure text) (e.exportAssignments specifiers source) := by
  unfold exportAssignments
  cases specifiers.filter (!·.isType) with
  | nil => exact .pure (ne_of_take htext (rfl : _ = bytes ";") (by decide))
  | cons s specifiers =>
    refine .still (pad_still e) fun margin ↦ .pure ?_
    rw [List.map_cons]
    obtain ⟨rest, hrest⟩ := exists_exportTarget s.exported
    obtain ⟨tail, htail⟩ := exists_join (bytes "\n" ++ margin) _ _
    rw [htail, hrest]
    exact ne_of_take htext (rfl : _ = bytes "exports") (by decide)

section Formats

variable {e e' : Emission} (hesm : e.options.format = .esm)
  (hcommonjs : e'.options.format = .commonjs)
include hesm hcommonjs

theorem exportDeclaration_apart (h : Parallel True e e') {declaration : View}
    (hdeclaration : declaration.Stable True) (hnames : valueNames declaration ≠ []) :
    Apart (e.exportDeclaration declaration) (e'.exportDeclaration declaration) := by
  have hrun : e.exportDeclaration declaration = e.statement declaration >>= fun text ↦
      pure (bytes "export " ++ text) := by
    simp [exportDeclaration, hesm]
  have hrun' : e'.exportDeclaration declaration = e'.statement declaration >>= fun text ↦
      e'.pad >>= fun margin ↦ pure (text ++ (valueNames declaration).flatMap fun name ↦
        bytes "\n" ++ margin ++ exportTarget name ++ bytes " = " ++ name ++ bytes ";") := by
    simp [exportDeclaration, hcommonjs, hnames]
  rw [hrun, hrun', (h.statement hdeclaration).eq]
  exact .after fun text ↦ .still (pad_still e') fun margin ↦
    .pure (export_ne_assigned text margin hnames)

theorem exportList_apart (specifiers : List ExportSpecifier) (source : Bytes) {view : View} :
    Apart (e.plainStatement view (.exportNamed none specifiers source false))
      (e'.plainStatement view (.exportNamed none specifiers source false)) := by
  simp only [plainStatement, hesm, hcommonjs]
  exact exportAssignments_apart e' rfl specifiers source

theorem exportAll_apart (source name : Bytes) :
    e.exportAll source name false ≠ e'.exportAll source name false := by
  obtain ⟨rest, hrest⟩ := exists_exportTarget name
  unfold exportAll
  rw [hesm, hcommonjs, hrest]
  cases name with
  | nil => exact ne_of_take (rfl : _ = bytes "export ") (rfl : _ = bytes "Object.") (by decide)
  | cons b name =>
    exact ne_of_take (rfl : _ = bytes "export ") (rfl : _ = bytes "exports") (by decide)

theorem exportDefault_apart (h : Parallel True e e') {value : DefaultExport View}
    (hparts : ∀ part ∈ parts value.slots, part.Stable True)
    (hreads : ∀ declaration, value = .declaration declaration →
      isConstant declaration = true → declaredName declaration ≠ []) :
    Apart (e.exportDefault value) (e'.exportDefault value) := by
  cases value with
  | expression value =>
    simp only [DefaultExport.slots, parts_filled, List.forall_mem_singleton] at hparts
    simp only [exportDefault, (h.expression hparts).eq, hesm, hcommonjs]
    exact .after fun text ↦
      .pure (ne_of_take (rfl : _ = bytes "export ") (rfl : _ = bytes "exports") (by decide))
  | declaration declaration =>
    simp only [DefaultExport.slots, parts_filled, List.forall_mem_singleton] at hparts
    simp only [exportDefault, (h.statement hparts).eq, h.pad.eq, hesm, hcommonjs]
    refine .after fun text ↦ ?_
    have hdefault : (bytes "export default ").length = 15 := by decide
    have htarget : (bytes "exports.default = ").length = 18 := by decide
    have hbreak : (bytes "\n").length = 1 := by decide
    cases hconstant : isConstant declaration with
    | false =>
      change Apart (pure (bytes "export default " ++ text))
        (if (declaredName declaration).isEmpty then _ else _)
      refine .ite_right (fun _ ↦ ?_) fun _ ↦ ?_
      · exact .pure (ne_of_take (rfl : _ = bytes "export ") (rfl : _ = bytes "exports") (by decide))
      · refine .still (pad_still e') fun margin ↦ .pure fun heq ↦ ?_
        have hlength := congrArg List.length heq
        simp only [defaultTarget, List.length_append, hdefault, htarget, hbreak] at hlength
        omega
    | true =>
      have hname : (declaredName declaration).isEmpty = false := by
        simpa using hreads declaration rfl hconstant
      rw [hname]
      refine .after fun margin ↦ .pure fun heq ↦ ?_
      have hlength := congrArg List.length heq
      simp only [defaultTarget, List.length_append, hdefault, htarget] at hlength
      omega

theorem statementStep_apart (h : Parallel True e e') {view : View}
    (hreads : view.readsFormat = true) (hparts : ∀ part ∈ parts view.slots, part.Stable True) :
    Apart (e.statementStep view) (e'.statementStep view) := by
  unfold View.readsFormat at hreads
  split at hreads
  · next declaration _ _ _ =>
    refine exportDeclaration_apart hesm hcommonjs h ?_ (by simpa using hreads)
    exact hparts declaration (by simp [View.slots, Plain.slots])
  · next specifiers source typeOnly =>
    obtain rfl : typeOnly = false := by simpa using hreads
    simp only [statementStep]
    exact exportList_apart hesm hcommonjs specifiers source
  · next source name typeOnly =>
    obtain rfl : typeOnly = false := by simpa using hreads
    exact .pure (exportAll_apart hesm hcommonjs source name)
  · simp only [statementStep, plainStatement]
    refine exportDefault_apart hesm hcommonjs h hparts fun declaration hvalue ↦ ?_
    cases hvalue
  · next declaration =>
    simp only [statementStep, plainStatement]
    refine exportDefault_apart hesm hcommonjs h hparts fun _ hvalue hconstant ↦ ?_
    cases hvalue
    simpa [hconstant] using hreads
  · cases hreads

end Formats

/-! ## Entry points -/

variable {options : ScriptOptions}

/-- What is sound is written alike in two formats, whatever the number of levels. -/
theorem emission_parallel (p : Prop) (format format' : ModuleFormat) (levels : Nat) :
    Parallel p (emission (options.inFormat format) levels)
      (emission (options.inFormat format') levels) := by
  induction levels with
  | zero => exact ⟨rfl, rfl, fun _ ↦ .refl _, fun _ ↦ .refl _⟩
  | succ levels ih =>
    exact ⟨rfl, rfl, fun hview ↦ statementStep_alike ih hview,
      fun hview ↦ expressionStep_alike ih hview⟩

theorem emission_apart {view : View} (hreads : view.readsFormat = true)
    (hparts : ∀ part ∈ parts view.slots, part.Stable True) (levels : Nat) :
    Apart ((emission (options.inFormat .esm) levels).statement view)
      ((emission (options.inFormat .commonjs) levels).statement view) := by
  cases levels with
  | zero =>
    intro level s text t hrun
    cases hrun
  | succ levels =>
    refine statementStep_apart ?_ ?_ (emission_parallel True .esm .commonjs levels) hreads hparts
    · rw [emission_options, ScriptOptions.inFormat]
    · rw [emission_options, ScriptOptions.inFormat]

end Emission

/-! ## Programs -/

namespace Script

open Emission Emit

/-- The texts of the statements of a program, one for each of them. -/
def statementTexts (e : Emission) (program : ViewProgram) : Emit (List Bytes) := do
  program.primitives.forM e.useRuntime
  program.body.mapM (moduleStatement e)

/-- The block of imports in a format, and the statements behind it. -/
def assembled (format : ModuleFormat) (imports : ImportTable) (texts : List Bytes) : Script where
  text :=
    let header := imports.generate format
    if header.isEmpty then texts.flatten else header ++ bytes "\n" ++ texts.flatten
  imports := imports

theorem ofProgram_eq (options : ScriptOptions) (program : ViewProgram) :
    ofProgram options program =
      (statementTexts (emission options options.maxDepth.toNat) program 0 {}).map
        fun result ↦ assembled options.format result.2.imports result.1 := by
  have htexts (e : Emission) : programText e program =
      statementTexts e program >>= fun texts ↦ pure texts.flatten := by
    simp [programText, statementTexts]
  rw [ofProgram, htexts]
  cases hrun : statementTexts (emission options options.maxDepth.toNat) program 0 {} with
  | error failure =>
    rw [bind_of_error hrun]
    rfl
  | ok result =>
    rw [bind_of_ok hrun]
    rfl

theorem moduleStatement_alike {p : Prop} {e e' : Emission} (h : Parallel p e e') {view : View}
    (hview : view.Stable p) : Alike p (moduleStatement e view) (moduleStatement e' view) := by
  unfold moduleStatement
  split
  · exact .refl _
  · exact (h.statement hview).bind fun _ _ htext ↦ h.line htext

/-- The statements of a program in two formats, side by side. -/
theorem statementTexts_rows {options : ScriptOptions} {program : ViewProgram}
    (hsound : ∀ view ∈ program.body, ∀ part ∈ view.subviews, part.Sound)
    (format format' : ModuleFormat) (levels level : Nat) (s : EmitState) :
    (∃ failure,
      statementTexts (emission (options.inFormat format) levels) program level s =
        .error failure ∧
      statementTexts (emission (options.inFormat format') levels) program level s =
        .error failure) ∨
    ∃ (rows : List (Bytes × Bytes)) (final : EmitState),
      statementTexts (emission (options.inFormat format) levels) program level s =
        .ok (rows.map Prod.fst, final) ∧
      statementTexts (emission (options.inFormat format') levels) program level s =
        .ok (rows.map Prod.snd, final) ∧
      List.Forall₂ (fun view row ↦ view.FormatFree → row.1 = row.2) program.body rows := by
  have hruntime : (emission (options.inFormat format) levels).useRuntime =
      (emission (options.inFormat format') levels).useRuntime := by
    funext name
    exact ((emission_parallel True format format' levels).useRuntime name).eq
  unfold statementTexts
  rw [hruntime]
  cases hprimitives : program.primitives.forM
      (emission (options.inFormat format') levels).useRuntime level s with
  | error failure => exact .inl ⟨failure, bind_of_error hprimitives, bind_of_error hprimitives⟩
  | ok result =>
    rw [bind_of_ok hprimitives, bind_of_ok hprimitives]
    apply Alike.exists_rows
    intro view hview
    apply moduleStatement_alike (emission_parallel view.FormatFree format format' levels)
    exact fun part hpart ↦ ⟨hsound view hview part hpart, fun hfree ↦ hfree part hpart⟩

end Script

end SignalView
