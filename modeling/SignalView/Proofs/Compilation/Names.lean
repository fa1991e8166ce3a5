import SignalView.Proofs.Compilation.Outcome
import SignalView.Proofs.Script.Imports
import SignalView.Proofs.Script.Statements

/-!
# Names that the output adds

Views are written with temporaries and with helpers of the runtime, whose names are not chosen with
regard to the program. Temporaries are numbered throughout, so that no two are the same; one of them
captures a name of the program only when that name has the form of a temporary. Helpers and
primitives are imported under their own names. No name is bound twice at the top of the output,
unless the program has another use for one of these.
-/

namespace SignalView

/-! ## Numbers -/

section Digits

variable {c : Char} (h : c.isDigit = true)
include h

theorem toNat_of_isDigit : 48 ≤ c.toNat ∧ c.toNat ≤ 57 := by
  simp only [Char.isDigit, Bool.and_eq_true, decide_eq_true_eq] at h
  exact ⟨UInt32.le_iff_toNat_le.mp h.1, UInt32.le_iff_toNat_le.mp h.2⟩

theorem toNat_byte_of_isDigit : (byte c).toNat = c.toNat := by
  have hrange := toNat_of_isDigit h
  rw [byte, UInt8.toNat_ofNat']
  omega

theorem isDigit_byte : Byte.isDigit (byte c) = true := by
  simp only [Byte.isDigit, Bool.and_eq_true, decide_eq_true_eq, UInt8.le_iff_toNat_le,
    toNat_byte_of_isDigit h]
  exact toNat_of_isDigit h

end Digits

namespace Bytes

theorem isDigit_of_mem_ofNat {n : Nat} {b : UInt8} (h : b ∈ ofNat n) : Byte.isDigit b = true := by
  obtain ⟨c, hc, rfl⟩ := List.mem_map.mp h
  exact isDigit_byte (Nat.isDigit_of_mem_toDigits (by decide) (by decide) hc)

theorem ofNat_injective : ofNat.Injective := by
  have hchars (n : Nat) : (ofNat n).map (fun b ↦ Char.ofNat b.toNat) = Nat.toDigits 10 n := by
    rw [ofNat, List.map_map]
    refine (List.map_congr_left fun c hc ↦ ?_).trans (List.map_id _)
    have hdigit := Nat.isDigit_of_mem_toDigits (by decide) (by decide) hc
    simp only [Function.comp_apply, toNat_byte_of_isDigit hdigit, Char.ofNat_toNat, id]
  have hvalue (n : Nat) : Nat.ofDigitChars 10 (Nat.toDigits 10 n) 0 = n :=
    Nat.ofDigitChars_toDigits (by decide) (by decide)
  intro m n heq
  rw [← hvalue m, ← hchars, heq, hchars, hvalue]

end Bytes

/-! ## Temporaries -/

namespace EmitState

/-- The name of the temporary with a label and a number. -/
def temporaryName (label : String) (number : Nat) : Bytes :=
  bytes "_" ++ bytes label ++ Bytes.ofNat number

/-- The digits of a temporary's name are those of its number. -/
theorem filter_temporaryName {label : String} (hlabel : label ∈ labels) (number : Nat) :
    (temporaryName label number).filter Byte.isDigit = Bytes.ofNat number := by
  have hdigits : (Bytes.ofNat number).filter Byte.isDigit = Bytes.ofNat number :=
    List.filter_eq_self.mpr fun _ ↦ Bytes.isDigit_of_mem_ofNat
  have hlabels : ∀ label ∈ labels, (bytes "_" ++ bytes label).filter Byte.isDigit = [] := by
    decide
  rw [temporaryName, List.filter_append, hlabels label hlabel, hdigits, List.nil_append]

/-- Temporaries, the latest first, each of which has the number of those before it. -/
inductive Numbered : List Bytes → Prop
  | nil : Numbered []
  | cons {earlier : List Bytes} {label : String} (hlabel : label ∈ labels)
      (h : Numbered earlier) : Numbered (temporaryName label earlier.length :: earlier)

variable {temporaries : List Bytes} {name : Bytes}

theorem Numbered.exists_label (h : Numbered temporaries) (hname : name ∈ temporaries) :
    ∃ label ∈ labels, ∃ number < temporaries.length, name = temporaryName label number := by
  induction h with
  | nil => cases hname
  | @cons earlier label hlabel _ ih =>
    rw [List.length_cons]
    obtain rfl | hname := List.mem_cons.mp hname
    · exact ⟨label, hlabel, earlier.length, Nat.lt_succ_self _, rfl⟩
    · obtain ⟨label, hlabel, number, hlt, rfl⟩ := ih hname
      exact ⟨label, hlabel, number, by omega, rfl⟩

/-- No temporary is issued twice. -/
theorem Numbered.nodup (h : Numbered temporaries) : temporaries.Nodup := by
  induction h with
  | nil => exact .nil
  | @cons earlier label hlabel hearlier ih =>
    refine List.nodup_cons.mpr ⟨fun hmem ↦ ?_, ih⟩
    obtain ⟨other, hother, number, hlt, hname⟩ := hearlier.exists_label hmem
    have hdigits : Bytes.ofNat earlier.length = Bytes.ofNat number := by
      rw [← filter_temporaryName hlabel, hname, filter_temporaryName hother]
    exact Nat.ne_of_gt hlt (Bytes.ofNat_injective hdigits)

end EmitState

/-! ## Imports -/

/-- What the imports of a program bind. -/
def ViewProgram.imported (program : ViewProgram) : List ImportedName :=
  program.body.flatMap fun
    | .plain _ _ (.imports clause) => clause.bindings
    | _ => []

theorem ViewProgram.bindings_subset {program : ViewProgram} {line column : Nat}
    {clause : ImportClause} (h : .plain line column (.imports clause) ∈ program.body) :
    clause.bindings ⊆ program.imported :=
  fun _ hb ↦ List.mem_flatMap.mpr ⟨_, h, hb⟩

namespace EmitState

/-- The runtime's exports that a program may be given: helpers and primitives. -/
def runtimeNames : List Bytes := helpers ++ Primitive.exports

/-- An export of the runtime under its own name. -/
def ownName (runtimeModule name : Bytes) : ImportedName :=
  ImportBinding.under runtimeModule { imported := name, localName := name }

/-- Temporaries are numbered, and what is imported comes from the program or is an export of the
runtime under its own name. -/
structure Hygienic (runtimeModule : Bytes) (imported : List ImportedName) (s : EmitState) :
    Prop where
  numbered : Numbered s.temporaries
  sorted : s.imports.Sorted
  known : ∀ b ∈ s.imports.bindings,
    b ∈ imported ∨ ∃ name ∈ runtimeNames, b = ownName runtimeModule name

variable {runtimeModule : Bytes} {imported : List ImportedName} {s : EmitState}

theorem hygienic_start : Hygienic runtimeModule imported {} :=
  ⟨.nil, ImportTable.sorted_empty, by simp [ImportTable.bindings]⟩

theorem Hygienic.gains (h : Hygienic runtimeModule imported s) {new : List ImportedName}
    {imports : ImportTable} (hgains : s.imports.Gains new imports)
    (hnew : ∀ b ∈ new, b ∈ imported ∨ ∃ name ∈ runtimeNames, b = ownName runtimeModule name) :
    Hygienic runtimeModule imported { s with imports := imports } where
  numbered := h.numbered
  sorted := hgains.sorted h.sorted
  known b hb := (hgains.mem b hb).elim (h.known b) (hnew b)

theorem Hygienic.runtime (h : Hygienic runtimeModule imported s) {name : Bytes}
    (hname : name ∈ runtimeNames) :
    Hygienic runtimeModule imported
      { s with imports := s.imports.addNamed runtimeModule name [] false } := by
  refine h.gains (ImportTable.addNamed_gains _ _ _ _) fun b hb ↦ .inr ⟨name, hname, ?_⟩
  exact List.mem_singleton.mp hb

/-- All that writing a program does is hygienic. -/
theorem hygienic_lastsIn {program : ViewProgram}
    (hprimitives : ∀ name ∈ program.primitives, name ∈ Primitive.exports) :
    LastsIn runtimeModule program (Hygienic runtimeModule program.imported) where
  lasting := {
    helper := fun h _ hname ↦ h.runtime (List.mem_append_left _ hname)
    temporary := fun h _ hlabel ↦ ⟨.cons hlabel h.numbered, h.sorted, h.known⟩ }
  primitive h name hname := h.runtime (List.mem_append_right _ (hprimitives name hname))
  clause h _ _ _ hclause := h.gains (ImportTable.add_gains _) fun _ hb ↦
    .inl (ViewProgram.bindings_subset hclause hb)

/-- No name is imported as two things, when the program imports none as two things and has no other
use for the names of the runtime. -/
theorem Hygienic.nodup_names (h : Hygienic runtimeModule imported s)
    (himported : ∀ b ∈ imported, ∀ b' ∈ imported, b.name = b'.name → b = b')
    (hruntime : ∀ b ∈ imported, b.name ∈ runtimeNames → b = ownName runtimeModule b.name) :
    (s.imports.bindings.map (·.name)).Nodup := by
  refine List.Nodup.map_on (fun b hb b' hb' heq ↦ ?_) h.sorted.nodup_bindings
  obtain hb | ⟨name, hname, rfl⟩ := h.known b hb <;>
    obtain hb' | ⟨name', hname', rfl⟩ := h.known b' hb'
  · exact himported b hb b' hb' heq
  · obtain rfl : b.name = name' := heq
    exact hruntime b hb hname'
  · obtain rfl : name = b'.name := heq
    exact (hruntime b' hb' hname).symm
  · obtain rfl : name = name' := heq
    rfl

end EmitState

/-! ## The output -/

open EmitState

namespace Compilation

variable {options : Options} {source : Bytes} {tokens : List Token} {root : Node}

/-- The statements of a program stand in their places, and its primitives are exports of the
runtime. -/
theorem ReadAs.lowered (h : ReadAs options source tokens root) {program : ViewProgram}
    {state : LoweringState}
    (hlowered : ViewProgram.ofNode options.lowering root = (.ok program, state)) :
    (∀ view ∈ program.body, view.Placed True 0 .statement) ∧
      ∀ name ∈ program.primitives, name ∈ Primitive.exports := by
  have hitems : ∀ item ∈ root.children, item.Placed True 0 .statement := fun item hitem ↦
    ⟨Program.parse_fits h.isStream h.parsed item hitem, .inl trivial⟩
  obtain ⟨state', -, ⟨program', hrun, -, hbody⟩ | ⟨failure, hrun, -⟩⟩ :=
    ViewProgram.ofNode_cases options.lowering options.lowering hitems (Nat.zero_le _) rfl
      (Int.le_refl _)
  · obtain ⟨hprogram, -⟩ := Prod.mk.inj (hlowered.symm.trans hrun)
    obtain rfl := Except.ok.inj hprogram
    exact hbody
  · cases hlowered.symm.trans hrun

/-- A property that lasts while a program is written holds of all that has been gathered. -/
theorem ReadAs.lasts (h : ReadAs options source tokens root) {program : ViewProgram}
    {state : LoweringState}
    (hlowered : ViewProgram.ofNode options.lowering root = (.ok program, state))
    {code : Bytes} {final : EmitState}
    (hwritten : Script.programText (emission options.script options.script.maxDepth.toNat) program
      0 {} = .ok (code, final))
    {I : EmitState → Prop} (hI : LastsIn options.runtimeModule program I) (hstart : I {}) :
    I final := by
  have hlasts : LastsIn options.script.runtimeModule program I := hI
  have hsame : options.script = { options.script with maxDepth := options.script.maxDepth } := rfl
  have hwrites := Script.programText_writes hlasts hsame (h.lowered hlowered).1 (Nat.zero_le _)
    (Nat.le_refl options.script.maxDepth.toNat)
  obtain ⟨code', final', hfinal, hrun, -⟩ | ⟨failure, hrun, -⟩ := hwrites 0 hstart
  · obtain ⟨-, rfl⟩ := Prod.mk.inj (Except.ok.inj (hwritten.symm.trans hrun))
    exact hfinal
  · cases hwritten.symm.trans hrun

/-- What writing a lowered tree comes to: the program, its code and what was gathered on the way. -/
def written? (options : Options) (root : Node) : Option (ViewProgram × Bytes × EmitState) := do
  let program ← (ViewProgram.ofNode options.lowering root).1.toOption
  let written ← (Script.programText (emission options.script options.script.maxDepth.toNat)
    program 0 {}).toOption
  return (program, written)

theorem exists_of_written? {program : ViewProgram} {code : Bytes} {final : EmitState}
    (h : written? options root = some (program, code, final)) :
    ∃ state, ViewProgram.ofNode options.lowering root = (.ok program, state) ∧
      Script.programText (emission options.script options.script.maxDepth.toNat) program 0 {} =
        .ok (code, final) := by
  unfold written? at h
  cases hlowered : ViewProgram.ofNode options.lowering root with
  | mk result state =>
    cases result with
    | error failure => simp [hlowered, Except.toOption] at h
    | ok lowered =>
      cases hwritten : Script.programText
          (emission options.script options.script.maxDepth.toNat) lowered 0 {} with
      | error failure => simp [hlowered, hwritten, Except.toOption] at h
      | ok result =>
        obtain ⟨rfl, rfl⟩ : lowered = program ∧ result = (code, final) := by
          simpa [hlowered, hwritten, Except.toOption] using h
        exact ⟨state, rfl, hwritten⟩

/-- Whether a statement declares a single variable, under a name with a property. -/
def declaresOne (property : Bytes → Bool) : View → Bool
  | .plain _ _ (.variableDeclaration _ [declarator] _) => declarator.target.name?.any property
  | _ => false

end Compilation

end SignalView
