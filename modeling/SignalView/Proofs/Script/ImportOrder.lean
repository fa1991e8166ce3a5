import Mathlib.Data.List.Induction
import SignalView.Proofs.Script.Imports

/-!
# The order of imports

Names, namespaces and effects are added to a table in any order and any number of times: the table
is settled by what has been added at all. For each module it has the namespaces and the values that
were added, and those of the types that were not added as values as well. Only the defaults of a
module, of which it keeps one, depend on the order.
-/

namespace SignalView

/-! ## Additions -/

/-- An addition to a table, other than of a default. -/
inductive ImportCall where
  | named (source imported localName : Bytes) (isType : Bool)
  | star (source name : Bytes)
  | sideEffect (source : Bytes)

/-- A name that is imported as itself needs no local name. -/
def ImportBinding.ofNames (imported localName : Bytes) : ImportBinding :=
  { imported, localName := if localName.isEmpty then imported else localName }

namespace ImportCall

def source : ImportCall → Bytes
  | named source _ _ _ | star source _ | sideEffect source => source

def isSideEffect : ImportCall → Bool
  | named _ _ _ _ | star _ _ => false
  | sideEffect _ => true

/-- What is added as types, or else as values. -/
def bindings (asType : Bool) : ImportCall → List ImportBinding
  | named _ imported localName isType =>
    if isType = asType then [.ofNames imported localName] else []
  | star _ _ | sideEffect _ => []

def namespaces : ImportCall → List Bytes
  | star _ name => [name]
  | named _ _ _ _ | sideEffect _ => []

/-- What becomes of the imports of the module. -/
def change (m : ModuleImports) : ImportCall → ModuleImports
  | named _ imported localName isType => m.addNamed (.ofNames imported localName) isType
  | star _ name => { m with namespaces := insertSorted Bytes.before name m.namespaces }
  | sideEffect _ => m

variable (m : ModuleImports) (source imported localName : Bytes) (isType asType : Bool)

@[simp]
theorem bindings_named : bindings asType (named source imported localName isType) =
    if isType = asType then [.ofNames imported localName] else [] := rfl

@[simp]
theorem bindings_star : bindings asType (star source localName) = [] := rfl

@[simp]
theorem bindings_sideEffect : bindings asType (sideEffect source) = [] := rfl

@[simp]
theorem namespaces_named : namespaces (named source imported localName isType) = [] := rfl

@[simp]
theorem namespaces_star : namespaces (star source localName) = [localName] := rfl

@[simp]
theorem namespaces_sideEffect : namespaces (sideEffect source) = [] := rfl

@[simp]
theorem change_star : (star source localName).change m =
    { m with namespaces := insertSorted Bytes.before localName m.namespaces } := rfl

@[simp]
theorem change_sideEffect : (sideEffect source).change m = m := rfl

@[simp]
theorem change_source (call : ImportCall) : (call.change m).source = m.source := by
  cases call with
  | named source _ _ _ => exact (ModuleImports.addNamed_adds source _ _).source_eq m
  | star _ _ => rfl
  | sideEffect _ => rfl

/-- Only a side effect adds nothing. -/
theorem isSideEffect_iff (call : ImportCall) : call.isSideEffect = true ↔
    call.namespaces = [] ∧ call.bindings false = [] ∧ call.bindings true = [] := by
  cases call with
  | named _ _ _ isType => cases isType <;> simp [isSideEffect]
  | star _ _ => simp [isSideEffect]
  | sideEffect _ => simp [isSideEffect]

end ImportCall

namespace ModuleImports

variable {m : ModuleImports} {b c : ImportBinding} {isType : Bool}

@[simp]
theorem addNamed_defaultName : (m.addNamed b isType).defaultName = m.defaultName := by
  unfold addNamed
  grind

@[simp]
theorem addNamed_typeDefault : (m.addNamed b isType).typeDefault = m.typeDefault := by
  unfold addNamed
  grind

@[simp]
theorem addNamed_namespaces : (m.addNamed b isType).namespaces = m.namespaces := by
  unfold addNamed
  grind

theorem mem_values_addNamed :
    c ∈ (m.addNamed b isType).values ↔ c ∈ m.values ∨ isType = false ∧ c = b := by
  unfold addNamed
  cases isType with
  | false => simp [mem_insertSorted, or_comm]
  | true => by_cases hvalue : b ∈ m.values <;> simp [hvalue]

theorem mem_types_addNamed : c ∈ (m.addNamed b isType).types ↔
    if isType then c ∈ m.types ∨ c = b ∧ b ∉ m.values else c ∈ m.types ∧ c ≠ b := by
  unfold addNamed
  cases isType with
  | false => simp
  | true => by_cases hvalue : b ∈ m.values <;> simp [hvalue, mem_insertSorted, or_comm]

end ModuleImports

variable {calls calls' : List ImportCall}

/-! ## One module -/

/-- The imports of a module are what some calls have added. -/
structure ModuleImports.Gathers (m : ModuleImports) (calls : List ImportCall) : Prop where
  sorted : m.Sorted
  defaultName : m.defaultName = []
  typeDefault : m.typeDefault = []
  namespaces (name : Bytes) : name ∈ m.namespaces ↔ name ∈ calls.flatMap (·.namespaces)
  values (b : ImportBinding) : b ∈ m.values ↔ b ∈ calls.flatMap (·.bindings false)
  /-- A value takes the place of a type. -/
  types (b : ImportBinding) : b ∈ m.types ↔
    b ∈ calls.flatMap (·.bindings true) ∧ b ∉ calls.flatMap (·.bindings false)

namespace ModuleImports.Gathers

variable {m m' : ModuleImports}

theorem empty (source : Bytes) : Gathers { source := source } [] where
  sorted := sorted_empty source
  defaultName := rfl
  typeDefault := rfl
  namespaces := by simp
  values := by simp
  types := by simp

theorem change (h : m.Gathers calls) (call : ImportCall) :
    (call.change m).Gathers (calls ++ [call]) := by
  cases call with
  | named source imported localName isType =>
    refine ⟨?_, ?_, ?_, fun name ↦ ?_, fun b ↦ ?_, fun b ↦ ?_⟩
    · exact (addNamed_adds source _ _).sorted h.sorted
    · exact addNamed_defaultName.trans h.defaultName
    · exact addNamed_typeDefault.trans h.typeDefault
    · simp [ImportCall.change, h.namespaces]
    · rw [ImportCall.change, mem_values_addNamed, h.values]
      cases isType <;> simp
    · rw [ImportCall.change, mem_types_addNamed, h.types, h.values]
      cases isType with
      | false => simp [and_assoc]
      | true => grind [ImportCall.bindings_named]
  | star source name =>
    refine ⟨?_, h.defaultName, h.typeDefault, fun other ↦ ?_, fun b ↦ ?_, fun b ↦ ?_⟩
    · exact (addNamespace_adds source name).sorted h.sorted
    · simp [mem_insertSorted, h.namespaces, or_comm]
    · simpa using h.values b
    · simpa using h.types b
  | sideEffect source =>
    refine ⟨h.sorted, h.defaultName, h.typeDefault, fun other ↦ ?_, fun b ↦ ?_, fun b ↦ ?_⟩
    · simpa using h.namespaces other
    · simpa using h.values b
    · simpa using h.types b

/-- The imports of a module are settled by what has been added at all. -/
theorem eq (h : m.Gathers calls) (h' : m'.Gathers calls') (hsource : m.source = m'.source)
    (hcalls : ∀ call, call ∈ calls ↔ call ∈ calls') : m = m' := by
  have hadded {α : Type} (f : ImportCall → List α) (a : α) :
      a ∈ calls.flatMap f ↔ a ∈ calls'.flatMap f := by
    simp only [List.mem_flatMap, hcalls]
  have hnamespaces : m.namespaces = m'.namespaces :=
    Bytes.before_strictlyOrders.eq_of_mem_iff h.sorted.namespaces h'.sorted.namespaces
      fun name ↦ by rw [h.namespaces, h'.namespaces, hadded]
  have hvalues : m.values = m'.values :=
    ImportBinding.before_strictlyOrders.eq_of_mem_iff h.sorted.values h'.sorted.values
      fun b ↦ by rw [h.values, h'.values, hadded]
  have htypes : m.types = m'.types :=
    ImportBinding.before_strictlyOrders.eq_of_mem_iff h.sorted.types h'.sorted.types
      fun b ↦ by rw [h.types, h'.types, hadded, hadded]
  have hdefault : m.defaultName = m'.defaultName := h.defaultName.trans h'.defaultName.symm
  have htypeDefault : m.typeDefault = m'.typeDefault := h.typeDefault.trans h'.typeDefault.symm
  cases m
  cases m'
  congr

theorem isSideEffectOnly_iff (h : m.Gathers calls) :
    m.isSideEffectOnly = true ↔ ∀ call ∈ calls, call.isSideEffect = true := by
  simp only [isSideEffectOnly, h.defaultName, h.typeDefault, Bool.and_eq_true, List.isEmpty_iff,
    List.eq_nil_iff_forall_not_mem, h.namespaces, h.values, h.types, ImportCall.isSideEffect_iff,
    List.mem_flatMap]
  grind

end ModuleImports.Gathers

/-! ## Tables -/

namespace ImportTable

variable {table : ImportTable}

def perform (table : ImportTable) : ImportCall → ImportTable
  | .named source imported localName isType => table.addNamed source imported localName isType
  | .star source name => table.addNamespace source name
  | .sideEffect source => table.addSideEffect source

/-- A fresh table after some calls. -/
def ofCalls (calls : List ImportCall) : ImportTable := calls.foldl perform {}

theorem perform_eq_update (table : ImportTable) (call : ImportCall) :
    table.perform call = table.update call.source (call.change ·) := by
  cases call <;> rfl

theorem Sorted.perform (h : table.Sorted) (call : ImportCall) : (table.perform call).Sorted := by
  cases call with
  | named source imported localName isType => exact (addNamed_gains _ _ _ _).sorted h
  | star source name => exact (update_gains (ModuleImports.addNamespace_adds _ _)).sorted h
  | sideEffect source =>
    have hnothing : ModuleImports.Adds id source [] := ⟨fun _ ↦ rfl, id, fun _ _ hb ↦ .inl hb⟩
    exact (update_gains hnothing).sorted h

/-- The calls that are about a module. -/
def callsFor (calls : List ImportCall) (source : Bytes) : List ImportCall :=
  calls.filter (·.source == source)

theorem callsFor_concat (calls : List ImportCall) (call : ImportCall) (source : Bytes) :
    callsFor (calls ++ [call]) source =
      callsFor calls source ++ if call.source = source then [call] else [] := by
  rw [callsFor, callsFor, List.filter_append, List.filter_singleton, Bool.cond_eq_ite]
  simp only [beq_iff_eq]

/-- The modules of a table are those that some calls are about, with what the calls have added. -/
structure Gathers (table : ImportTable) (calls : List ImportCall) : Prop where
  sources : table.modules.Pairwise (Bytes.before ·.source ·.source = true)
  mem_sources (source : Bytes) : (∃ m ∈ table.modules, m.source = source) ↔
    ∃ call ∈ calls, call.source = source
  modules : ∀ m ∈ table.modules, m.Gathers (callsFor calls m.source)

theorem find?_isSome_iff {source : Bytes} :
    (table.find? source).isSome ↔ ∃ m ∈ table.modules, m.source = source := by
  simp [find?]

namespace Gathers

theorem empty : Gathers {} [] := ⟨.nil, by simp, by simp⟩

theorem sorted (h : table.Gathers calls) : table.Sorted :=
  ⟨h.sources, fun m hm ↦ (h.modules m hm).sorted⟩

/-- What a table has for a module before the next call. -/
theorem find?_getD (h : table.Gathers calls) (source : Bytes) :
    ((table.find? source).getD { source := source }).Gathers (callsFor calls source) := by
  cases hfind : table.find? source with
  | none =>
    have hnone : callsFor calls source = [] := by
      refine List.filter_eq_nil_iff.mpr fun call hcall heq ↦ ?_
      obtain ⟨m, hm, hsource⟩ := (h.mem_sources source).mpr ⟨call, hcall, eq_of_beq heq⟩
      exact List.find?_eq_none.mp hfind m hm (beq_iff_eq.mpr hsource)
    rw [hnone]
    exact .empty source
  | some m =>
    obtain rfl : m.source = source := by simpa using List.find?_some hfind
    exact h.modules m (List.mem_of_find?_eq_some hfind)

theorem perform (h : table.Gathers calls) (call : ImportCall) :
    (table.perform call).Gathers (calls ++ [call]) := by
  have hsource (m : ModuleImports) : (call.change m).source = m.source := call.change_source m
  have hfind (source : Bytes) : (table.perform call).find? source =
      if call.source = source then
        some (call.change ((table.find? call.source).getD { source := call.source }))
      else table.find? source := by
    rw [perform_eq_update, find?_update hsource h.sorted]
  have hsorted := h.sorted.perform call
  refine ⟨hsorted.sources, fun source ↦ ?_, fun m hm ↦ ?_⟩
  · rw [← find?_isSome_iff, hfind]
    by_cases hcall : call.source = source
    · simp [hcall]
    · simp [hcall, find?_isSome_iff, h.mem_sources]
  · rw [mem_modules_iff hsorted, hfind] at hm
    by_cases hcall : call.source = m.source
    · rw [if_pos hcall, Option.some_inj] at hm
      rw [callsFor_concat, if_pos hcall, ← hcall, ← hm]
      exact (h.find?_getD call.source).change call
    · rw [if_neg hcall] at hm
      rw [callsFor_concat, if_neg hcall, List.append_nil]
      exact h.modules m (List.mem_of_find?_eq_some hm)

end Gathers

theorem ofCalls_gathers (calls : List ImportCall) : (ofCalls calls).Gathers calls := by
  induction calls using List.reverseRecOn with
  | nil => exact .empty
  | append_singleton calls call ih =>
    rw [ofCalls, List.foldl_concat]
    exact ih.perform call

/-- A table is settled by what has been added at all. -/
theorem Gathers.eq {table' : ImportTable} (h : table.Gathers calls) (h' : table'.Gathers calls')
    (hcalls : ∀ call, call ∈ calls ↔ call ∈ calls') : table = table' := by
  have hshared {t t' : ImportTable} {calls calls' : List ImportCall} (h : t.Gathers calls)
      (h' : t'.Gathers calls') (hcalls : ∀ call, call ∈ calls ↔ call ∈ calls')
      {m : ModuleImports} (hm : m ∈ t.modules) : m ∈ t'.modules := by
    obtain ⟨call, hcall, hsource⟩ := (h.mem_sources m.source).mp ⟨m, hm, rfl⟩
    obtain ⟨m', hm', heq⟩ :=
      (h'.mem_sources m.source).mpr ⟨call, (hcalls call).mp hcall, hsource⟩
    have hfor (call : ImportCall) :
        call ∈ callsFor calls m.source ↔ call ∈ callsFor calls' m'.source := by
      rw [callsFor, callsFor, List.mem_filter, List.mem_filter, hcalls, heq]
    rwa [(h.modules m hm).eq (h'.modules m' hm') heq.symm hfor]
  refine h.sorted.eq_of_perm h'.sorted ?_
  refine (List.perm_ext_iff_of_nodup ?_ ?_).mpr fun m ↦ ⟨?_, ?_⟩
  · exact h.sorted.sources_ne.imp fun hne ↦ ne_of_apply_ne (·.source) hne
  · exact h'.sorted.sources_ne.imp fun hne ↦ ne_of_apply_ne (·.source) hne
  · exact hshared h h' hcalls
  · exact hshared h' h fun call ↦ (hcalls call).symm

/-- What an import block writes for some calls: the modules that are imported for their effects
alone, and the calls' with all that is imported from them. -/
structure Divides (calls : List ImportCall) (effects : List Bytes) (others : List ModuleImports) :
    Prop where
  effects_sorted : effects.Pairwise (Bytes.before · · = true)
  others_sorted : others.Pairwise (Bytes.before ·.source ·.source = true)
  mem_effects (source : Bytes) : source ∈ effects ↔
    callsFor calls source ≠ [] ∧ ∀ call ∈ callsFor calls source, call.isSideEffect = true
  mem_others (source : Bytes) : source ∈ others.map (·.source) ↔
    ∃ call ∈ callsFor calls source, call.isSideEffect = false
  gathers (m : ModuleImports) (hm : m ∈ others) : m.Gathers (callsFor calls m.source)

theorem callsFor_ne_nil {source : Bytes} :
    callsFor calls source ≠ [] ↔ ∃ call ∈ calls, call.source = source := by
  simp [callsFor]

theorem Gathers.divides (h : table.Gathers calls) :
    Divides calls ((table.modules.filter (·.isSideEffectOnly)).map (·.source))
      (table.modules.filter (!·.isSideEffectOnly)) where
  effects_sorted := List.pairwise_map.mpr (h.sources.filter _)
  others_sorted := h.sources.filter _
  mem_effects source := by
    rw [callsFor_ne_nil, ← h.mem_sources]
    constructor
    · intro hmem
      obtain ⟨m, hm, rfl⟩ := List.mem_map.mp hmem
      obtain ⟨hm, heffect⟩ := List.mem_filter.mp hm
      exact ⟨⟨m, hm, rfl⟩, (h.modules m hm).isSideEffectOnly_iff.mp heffect⟩
    · rintro ⟨⟨m, hm, rfl⟩, heffect⟩
      refine List.mem_map.mpr ⟨m, List.mem_filter.mpr ⟨hm, ?_⟩, rfl⟩
      exact (h.modules m hm).isSideEffectOnly_iff.mpr heffect
  mem_others source := by
    constructor
    · intro hmem
      obtain ⟨m, hm, rfl⟩ := List.mem_map.mp hmem
      obtain ⟨hm, hothers⟩ := List.mem_filter.mp hm
      by_contra hnone
      rw [(h.modules m hm).isSideEffectOnly_iff.mpr (by simpa using hnone)] at hothers
      cases hothers
    · rintro ⟨call, hcall, heffect⟩
      obtain ⟨m, hm, rfl⟩ := (h.mem_sources source).mpr
        (callsFor_ne_nil.mp (List.ne_nil_of_mem hcall))
      refine List.mem_map.mpr ⟨m, List.mem_filter.mpr ⟨hm, ?_⟩, rfl⟩
      rw [Bool.not_eq_true', Bool.eq_false_iff, Ne, (h.modules m hm).isSideEffectOnly_iff]
      intro hall
      rw [hall call hcall] at heffect
      cases heffect
  gathers m hm := h.modules m (List.mem_filter.mp hm).1

/-- The order of additions does not matter, and neither does how often they are made. -/
theorem ofCalls_reordered (h : ∀ call, call ∈ calls ↔ call ∈ calls') :
    ofCalls calls = ofCalls calls' ∧
    ∃ effects modules, Divides calls effects modules ∧ ∀ format,
      (ofCalls calls).generate format =
        effects.flatMap (sideEffectText format) ++ modules.flatMap (moduleText format) ∧
      (ofCalls calls').generate format = (ofCalls calls).generate format := by
  have heq := (ofCalls_gathers calls).eq (ofCalls_gathers calls') h
  refine ⟨heq, _, _, (ofCalls_gathers calls).divides, fun format ↦ ⟨?_, heq ▸ rfl⟩⟩
  rw [generate, List.flatMap_map]

/-- A type that is a value as well is a value, whichever comes first. -/
theorem ofCalls_type_and_value :
    ofCalls [.named (bytes "m") (bytes "a") [] true, .named (bytes "m") (bytes "a") [] false,
        .sideEffect (bytes "n")] =
      ofCalls [.sideEffect (bytes "n"), .named (bytes "m") (bytes "a") [] false,
        .named (bytes "m") (bytes "a") [] true, .sideEffect (bytes "n")] ∧
    (ofCalls [.named (bytes "m") (bytes "a") [] true, .named (bytes "m") (bytes "a") [] false,
        .sideEffect (bytes "n")]).generate .esm =
      bytes "import 'n';\nimport \x7b a \x7d from 'm';\n" := by
  refine ⟨(ofCalls_reordered fun call ↦ ?_).1, by decide⟩
  simp only [List.mem_cons, List.not_mem_nil, or_false]
  tauto

end ImportTable

end SignalView
