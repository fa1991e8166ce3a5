import SignalView.Proofs.Script.ImportText

/-!
# What merged imports hold

All imports of a module are merged into one entry, which has one place for the default of the
values and one for the default of the types. So a default takes the place of the one before it.
Everything else that some clause gives is held in the end, and the statements of the entry bind
just what it holds. A namespace counts among the values, also behind the word `type`.
-/

namespace SignalView

/-! ## What is imported -/

namespace ImportRole

/-- The export that is imported, none for the module itself. A name in quotes stands for what the
quotes hold. -/
def exported : ImportRole → Option Bytes
  | .default | .typeDefault => some (bytes "default")
  | .namespace => none
  | .named imported =>
    if imported.head? == some Quoted.singleQuote then some (Quoted.unescape imported.tail.dropLast)
    else some imported

def isDefault : ImportRole → Bool
  | .default | .typeDefault => true
  | .namespace | .named _ => false

end ImportRole

namespace ImportedName

/-- The module, the export and the name that the export is bound to. -/
def target (b : ImportedName) : Bytes × Option Bytes × Bytes := (b.source, b.role.exported, b.name)

/-- The place of a default is taken by another one of the same module and the same kind. -/
def Replaces (d b : ImportedName) : Prop :=
  b.role.isDefault = true ∧ d.role = b.role ∧ d.source = b.source

theorem not_replaces {d b : ImportedName} (h : b.role.isDefault = false) : ¬d.Replaces b := by
  rintro ⟨hdefault, -⟩
  rw [h] at hdefault
  cases hdefault

theorem not_replaces_of_role {d b : ImportedName} (h : d.role.isDefault = false) :
    ¬d.Replaces b := by
  rintro ⟨hdefault, hrole, -⟩
  rw [← hrole, h] at hdefault
  cases hdefault

theorem not_replaces_of_source {d b : ImportedName} (h : d.source ≠ b.source) : ¬d.Replaces b :=
  fun hreplaces ↦ h hreplaces.2.2

theorem mem_unlessEmpty {b c : ImportedName} : b ∈ c.unlessEmpty ↔ c.name ≠ [] ∧ b = c := by
  unfold unlessEmpty
  split
  · next hempty => simp [List.isEmpty_iff.mp hempty]
  · next hname => simpa using fun _ ↦ mt List.isEmpty_iff.mpr hname

end ImportedName

/-- What an element of an import list binds. -/
def ImportSpecifier.under (source : Bytes) (s : ImportSpecifier) : ImportedName :=
  ImportBinding.under source
    ⟨s.imported, if s.localName.isEmpty then s.imported else s.localName⟩

namespace ImportClause

variable {clause : ImportClause} {b : ImportedName}

/-- What the default of a clause binds, a value or a type. -/
def defaultBindings (clause : ImportClause) : List ImportedName :=
  ImportedName.unlessEmpty
    ⟨clause.source, if clause.typeOnly then .typeDefault else .default, clause.defaultName⟩

def namespaceBindings (clause : ImportClause) : List ImportedName :=
  ImportedName.unlessEmpty ⟨clause.source, .namespace, clause.namespaceName⟩

/-- What a clause binds as values. -/
def valueBindings (clause : ImportClause) : List ImportedName :=
  if clause.typeOnly then []
  else { clause with specifiers := clause.specifiers.filter (!·.isType) }.bindings

/-- What of a clause is taken for values: a namespace is never taken for a type. -/
def takenAsValues (clause : ImportClause) : List ImportedName :=
  clause.namespaceBindings ++ clause.valueBindings

/-- A module is run for a clause that binds a value of it, or nothing at all. -/
def Runs (clause : ImportClause) : Prop :=
  clause.typeOnly = false ∧ (clause.isSideEffect = true ∨ clause.valueBindings ≠ [])

theorem mem_bindings : b ∈ clause.bindings ↔
    b ∈ clause.defaultBindings ∨ b ∈ clause.namespaceBindings ∨
      b ∈ clause.specifiers.map (·.under clause.source) := by
  rw [bindings, List.mem_append, List.mem_append, or_assoc]
  rfl

theorem mem_valueBindings : b ∈ clause.valueBindings ↔
    clause.typeOnly = false ∧ (b ∈ clause.defaultBindings ∨ b ∈ clause.namespaceBindings ∨
      b ∈ (clause.specifiers.filter (!·.isType)).map (·.under clause.source)) := by
  unfold valueBindings
  split
  · next htype => simp [htype]
  · next htype =>
    rw [mem_bindings, and_iff_right (by simpa using htype)]
    rfl

theorem mem_takenAsValues : b ∈ clause.takenAsValues ↔
    b ∈ clause.namespaceBindings ∨ b ∈ clause.valueBindings :=
  List.mem_append

theorem valueBindings_subset (h : b ∈ clause.valueBindings) : b ∈ clause.bindings := by
  obtain ⟨-, h⟩ := mem_valueBindings.mp h
  refine mem_bindings.mpr (h.imp_right (.imp_right fun hb ↦ ?_))
  exact List.map_subset _ List.filter_sublist.subset hb

theorem source_of_mem_bindings (h : b ∈ clause.bindings) : b.source = clause.source := by
  obtain hb | hb | hb := mem_bindings.mp h
  · rw [ImportedName.eq_of_mem_unlessEmpty hb]
  · rw [ImportedName.eq_of_mem_unlessEmpty hb]
  · obtain ⟨s, -, rfl⟩ := List.mem_map.mp hb
    rfl

theorem takenAsValues_subset (h : b ∈ clause.takenAsValues) : b ∈ clause.bindings := by
  obtain hb | hb := mem_takenAsValues.mp h
  · exact mem_bindings.mpr (.inr (.inl hb))
  · exact valueBindings_subset hb

/-- Only the default of a clause takes the place of another name. -/
theorem mem_defaultBindings_of_replaces {d : ImportedName} (h : d ∈ clause.bindings)
    (hreplaces : d.Replaces b) : d ∈ clause.defaultBindings := by
  obtain hd | hd | hd := mem_bindings.mp h
  · exact hd
  · rw [ImportedName.eq_of_mem_unlessEmpty hd] at hreplaces
    exact absurd hreplaces (ImportedName.not_replaces_of_role rfl)
  · obtain ⟨s, -, rfl⟩ := List.mem_map.mp hd
    exact absurd hreplaces (ImportedName.not_replaces_of_role rfl)

theorem isSideEffect_iff : clause.isSideEffect = true ↔ clause.bindings = [] := by
  simp only [isSideEffect, bindings, ImportedName.unlessEmpty, Bool.and_eq_true,
    List.append_eq_nil_iff, List.map_eq_nil_iff, List.isEmpty_iff, ite_eq_left_iff,
    List.cons_ne_nil, imp_false, not_not]

end ImportClause

/-- A name that some clause gives and behind which none takes its place. -/
def Lasts (given : ImportClause → List ImportedName) (clauses : List ImportClause)
    (b : ImportedName) : Prop :=
  ∃ front clause behind, clauses = front ++ clause :: behind ∧ b ∈ given clause ∧
    ∀ later ∈ behind, ∀ d ∈ given later, ¬d.Replaces b

/-! ## Names that last -/

section Lasts

variable {given : ImportClause → List ImportedName} {clause : ImportClause}
  {clauses : List ImportClause} {b : ImportedName}

theorem lasts_cons : Lasts given (clause :: clauses) b ↔
    Lasts given clauses b ∨
      b ∈ given clause ∧ ∀ later ∈ clauses, ∀ d ∈ given later, ¬d.Replaces b := by
  constructor
  · rintro ⟨front, other, behind, hclauses, hb, hbehind⟩
    cases front with
    | nil =>
      obtain ⟨rfl, rfl⟩ := List.cons.inj hclauses
      exact .inr ⟨hb, hbehind⟩
    | cons first front =>
      obtain ⟨rfl, rfl⟩ := List.cons.inj hclauses
      exact .inl ⟨front, other, behind, rfl, hb, hbehind⟩
  · rintro (⟨front, other, behind, rfl, hb, hbehind⟩ | ⟨hb, hbehind⟩)
    · exact ⟨clause :: front, other, behind, rfl, hb, hbehind⟩
    · exact ⟨[], clause, clauses, rfl, hb, hbehind⟩

theorem Lasts.mem (h : Lasts given clauses b) : b ∈ clauses.flatMap given := by
  obtain ⟨front, clause, behind, rfl, hb, -⟩ := h
  exact List.mem_flatMap.mpr ⟨clause, by simp, hb⟩

/-- What is no default lasts. -/
theorem lasts_iff_mem (h : b.role.isDefault = false) :
    Lasts given clauses b ↔ b ∈ clauses.flatMap given := by
  refine ⟨Lasts.mem, fun hmem ↦ ?_⟩
  obtain ⟨clause, hclause, hb⟩ := List.mem_flatMap.mp hmem
  obtain ⟨front, behind, hclauses⟩ := List.append_of_mem hclause
  exact ⟨front, clause, behind, hclauses, hb, fun _ _ _ _ ↦ ImportedName.not_replaces h⟩

end Lasts

/-! ## One module -/

namespace ModuleImports

variable {m : ModuleImports} {clause : ImportClause} {clauses : List ImportClause}
  {b : ImportedName}

/-- What the imports of a module bind as values. -/
def valueBindings (m : ModuleImports) : List ImportedName :=
  ImportedName.unlessEmpty ⟨m.source, .default, m.defaultName⟩ ++
  m.values.map (ImportBinding.under m.source) ++
  m.namespaces.map (⟨m.source, .namespace, ·⟩)

/-- A part of the imports of a module that holds what some part of the clauses gives, but for
defaults that were replaced. -/
structure Collects (held : ModuleImports → List ImportedName)
    (given : ImportClause → List ImportedName) : Prop where
  empty (source : Bytes) : held { source := source } = []
  source_of_held {m : ModuleImports} {b : ImportedName} (h : b ∈ held m) : b.source = m.source
  source_of_given {clause : ImportClause} {b : ImportedName} (h : b ∈ given clause) :
    b.source = clause.source
  mem_add {m : ModuleImports} {clause : ImportClause} (h : clause.source = m.source)
    {b : ImportedName} : b ∈ held (m.add clause) ↔
      b ∈ given clause ∨ b ∈ held m ∧ ∀ d ∈ given clause, ¬d.Replaces b

section Collects

variable {held : ModuleImports → List ImportedName} {given : ImportClause → List ImportedName}
  (h : Collects held given)
include h

/-- What is held at the end of a run over the clauses of the module. -/
theorem Collects.mem_foldl (hb : b.source = m.source) :
    b ∈ held ((clauses.filter (·.source == m.source)).foldl add m) ↔
      Lasts given clauses b ∨
        b ∈ held m ∧ ∀ clause ∈ clauses, ∀ d ∈ given clause, ¬d.Replaces b := by
  induction clauses generalizing m with
  | nil => simp [Lasts]
  | cons clause clauses ih =>
    rw [lasts_cons, List.forall_mem_cons]
    by_cases hsource : clause.source = m.source
    · have hadd := ih (m := m.add clause) (hb.trans (m.add_source clause).symm)
      rw [add_source] at hadd
      rw [List.filter_cons_of_pos (by simpa using hsource), List.foldl_cons, hadd,
        h.mem_add hsource]
      tauto
    · have hgiven : b ∉ given clause := fun hmem ↦
        hsource ((h.source_of_given hmem).symm.trans hb)
      have hreplaces : ∀ d ∈ given clause, ¬d.Replaces b := fun d hd ↦
        ImportedName.not_replaces_of_source fun heq ↦
          hsource ((h.source_of_given hd).symm.trans (heq.trans hb))
      rw [List.filter_cons_of_neg (by simpa using hsource), ih hb]
      tauto

theorem Collects.add_eq_nil (hsource : clause.source = m.source) :
    held (m.add clause) = [] ↔ held m = [] ∧ given clause = [] := by
  simp only [List.eq_nil_iff_forall_not_mem, h.mem_add hsource]
  constructor
  · intro hnone
    have hgiven : ∀ b, b ∉ given clause := fun b hb ↦ hnone b (.inl hb)
    exact ⟨fun b hb ↦ hnone b (.inr ⟨hb, fun d hd ↦ absurd hd (hgiven d)⟩), hgiven⟩
  · rintro ⟨hheld, hgiven⟩ b (hb | ⟨hb, -⟩)
    · exact hgiven b hb
    · exact hheld b hb

/-- Something is held at the end if it was held before or given by some clause, replaced or not. -/
theorem Collects.foldl_eq_nil :
    held ((clauses.filter (·.source == m.source)).foldl add m) = [] ↔
      held m = [] ∧ ∀ clause ∈ clauses, clause.source = m.source → given clause = [] := by
  induction clauses generalizing m with
  | nil => simp
  | cons clause clauses ih =>
    rw [List.forall_mem_cons]
    by_cases hsource : clause.source = m.source
    · have hadd := ih (m := m.add clause)
      rw [add_source] at hadd
      rw [List.filter_cons_of_pos (by simpa using hsource), List.foldl_cons, hadd,
        h.add_eq_nil hsource]
      tauto
    · rw [List.filter_cons_of_neg (by simpa using hsource), ih]
      tauto

end Collects

/-! ### Adding a clause -/

theorem mem_bindings_addDefault (h : clause.source = m.source) :
    b ∈ (m.addDefault clause).bindings ↔
      b ∈ clause.defaultBindings ∨
        b ∈ m.bindings ∧ ∀ d ∈ clause.defaultBindings, ¬d.Replaces b := by
  unfold addDefault ImportClause.defaultBindings
  rw [h]
  split
  · next hempty => simp [ImportedName.mem_unlessEmpty, List.isEmpty_iff.mp hempty]
  · next hname =>
    have hname : clause.defaultName ≠ [] := fun hnil ↦ hname (by rw [hnil]; rfl)
    obtain ⟨source, role, name⟩ := b
    split <;> cases role <;>
      simp [*, bindings, ImportedName.mem_unlessEmpty, ImportBinding.under, ImportedName.Replaces,
        ImportRole.isDefault]
    all_goals exact fun _ hsource _ hne ↦ absurd hsource.symm hne

theorem mem_valueBindings_addDefault (h : clause.source = m.source) :
    b ∈ (m.addDefault clause).valueBindings ↔
      clause.typeOnly = false ∧ b ∈ clause.defaultBindings ∨
        b ∈ m.valueBindings ∧
          (clause.typeOnly = false → ∀ d ∈ clause.defaultBindings, ¬d.Replaces b) := by
  unfold addDefault ImportClause.defaultBindings
  rw [h]
  split
  · next hempty => simp [ImportedName.mem_unlessEmpty, List.isEmpty_iff.mp hempty]
  · next hname =>
    have hname : clause.defaultName ≠ [] := fun hnil ↦ hname (by rw [hnil]; rfl)
    obtain ⟨source, role, name⟩ := b
    split <;> cases role <;>
      simp [*, valueBindings, ImportedName.mem_unlessEmpty, ImportBinding.under,
        ImportedName.Replaces, ImportRole.isDefault]
    all_goals exact fun _ hsource _ hne ↦ absurd hsource.symm hne

theorem mem_valueBindings_addNamespace (h : clause.source = m.source) :
    b ∈ (m.addNamespace clause).valueBindings ↔
      b ∈ clause.namespaceBindings ∨ b ∈ m.valueBindings := by
  unfold addNamespace ImportClause.namespaceBindings ImportedName.unlessEmpty
  rw [h]
  split
  · simp
  · simp only [valueBindings, List.mem_append, List.mem_map, mem_insertSorted, List.mem_singleton]
    grind

theorem mem_bindings : b ∈ m.bindings ↔
    b ∈ m.valueBindings ∨ b ∈ ImportedName.unlessEmpty ⟨m.source, .typeDefault, m.typeDefault⟩ ∨
      b ∈ m.types.map (ImportBinding.under m.source) := by
  rw [bindings, List.mem_append, List.mem_append, or_assoc]
  rfl

theorem mem_bindings_addNamespace (h : clause.source = m.source) :
    b ∈ (m.addNamespace clause).bindings ↔
      b ∈ clause.namespaceBindings ∨ b ∈ m.bindings := by
  rw [mem_bindings, mem_bindings, mem_valueBindings_addNamespace h, or_assoc]
  unfold addNamespace
  split <;> rfl

theorem mem_valueBindings_addNamed {binding : ImportBinding} {isType : Bool} :
    b ∈ (m.addNamed binding isType).valueBindings ↔
      isType = false ∧ b = binding.under m.source ∨ b ∈ m.valueBindings := by
  cases isType
  · simp only [addNamed, valueBindings, List.mem_append, List.mem_map, mem_insertSorted,
      Bool.false_eq_true, if_false, true_and]
    grind
  · simp only [addNamed, if_true, Bool.true_eq_false, false_and, false_or]
    split <;> rfl

theorem mem_bindings_addNamed {binding : ImportBinding} {isType : Bool} :
    b ∈ (m.addNamed binding isType).bindings ↔
      b = binding.under m.source ∨ b ∈ m.bindings := by
  unfold addNamed
  split
  · split
    · next hvalue =>
      have hvalue : binding ∈ m.values := by simpa using hvalue
      simp only [bindings, List.mem_append, List.mem_map]
      grind
    · simp only [bindings, List.mem_append, List.mem_map, mem_insertSorted]
      grind
  · simp only [bindings, List.mem_append, List.mem_map, mem_insertSorted, List.mem_filter]
    grind

theorem mem_bindings_addSpecifiers {specifiers : List ImportSpecifier} {typeOnly : Bool} :
    b ∈ (m.addSpecifiers typeOnly specifiers).bindings ↔
      b ∈ specifiers.map (·.under m.source) ∨ b ∈ m.bindings := by
  induction specifiers generalizing m with
  | nil => simp [addSpecifiers]
  | cons s specifiers ih =>
    have hsource := (addNamed_adds m.source
      ⟨s.imported, if s.localName.isEmpty then s.imported else s.localName⟩
      (typeOnly || s.isType)).source_eq m
    refine ih.trans ?_
    rw [hsource, mem_bindings_addNamed, List.map_cons, List.mem_cons, or_left_comm, ← or_assoc]
    rfl

theorem mem_valueBindings_addSpecifiers {specifiers : List ImportSpecifier} {typeOnly : Bool} :
    b ∈ (m.addSpecifiers typeOnly specifiers).valueBindings ↔
      typeOnly = false ∧ b ∈ (specifiers.filter (!·.isType)).map (·.under m.source) ∨
        b ∈ m.valueBindings := by
  induction specifiers generalizing m with
  | nil => simp [addSpecifiers]
  | cons s specifiers ih =>
    have hsource := (addNamed_adds m.source
      ⟨s.imported, if s.localName.isEmpty then s.imported else s.localName⟩
      (typeOnly || s.isType)).source_eq m
    refine ih.trans ?_
    have hstep : b = ImportBinding.under m.source
        ⟨s.imported, if s.localName.isEmpty then s.imported else s.localName⟩ ↔
          b = s.under m.source := .rfl
    rw [hsource, mem_valueBindings_addNamed, Bool.or_eq_false_iff, hstep, List.filter_cons]
    cases s.isType
    · simp only [Bool.not_false, if_true, List.map_cons, List.mem_cons]
      tauto
    · simp only [Bool.not_true, Bool.false_eq_true, Bool.true_eq_false, if_false]
      tauto

/-- All that clauses bind is collected. -/
theorem bindings_collects : Collects bindings ImportClause.bindings where
  empty _ := rfl
  source_of_held := source_of_mem_bindings
  source_of_given := ImportClause.source_of_mem_bindings
  mem_add {m clause} h {b} := by
    have hreplaces : (∀ d ∈ clause.bindings, ¬d.Replaces b) ↔
        ∀ d ∈ clause.defaultBindings, ¬d.Replaces b :=
      ⟨fun hnone d hd ↦ hnone d (ImportClause.mem_bindings.mpr (.inl hd)), fun hnone d hd hdb ↦
        hnone d (ImportClause.mem_defaultBindings_of_replaces hd hdb) hdb⟩
    rw [add, mem_bindings_addSpecifiers, mem_bindings_addNamespace (by simpa using h),
      mem_bindings_addDefault h, addNamespace_source, addDefault_source, ← h, hreplaces,
      ImportClause.mem_bindings]
    tauto

/-- The values, with all namespaces among them. -/
theorem valueBindings_collects : Collects valueBindings ImportClause.takenAsValues where
  empty _ := rfl
  source_of_held hb := source_of_mem_bindings (mem_bindings.mpr (.inl hb))
  source_of_given hb := ImportClause.source_of_mem_bindings (ImportClause.takenAsValues_subset hb)
  mem_add {m clause} h {b} := by
    have hreplaces : (∀ d ∈ clause.takenAsValues, ¬d.Replaces b) ↔
        (clause.typeOnly = false → ∀ d ∈ clause.defaultBindings, ¬d.Replaces b) := by
      constructor
      · intro hnone htype d hd
        exact hnone d (ImportClause.mem_takenAsValues.mpr (.inr
          (ImportClause.mem_valueBindings.mpr ⟨htype, .inl hd⟩)))
      · intro hnone d hd hdb
        have hdefault := ImportClause.mem_defaultBindings_of_replaces
          (ImportClause.takenAsValues_subset hd) hdb
        obtain hspace | hvalue := ImportClause.mem_takenAsValues.mp hd
        · rw [ImportedName.eq_of_mem_unlessEmpty hspace] at hdb
          exact ImportedName.not_replaces_of_role rfl hdb
        · exact hnone (ImportClause.mem_valueBindings.mp hvalue).1 d hdefault hdb
    rw [add, mem_valueBindings_addSpecifiers, mem_valueBindings_addNamespace (by simpa using h),
      mem_valueBindings_addDefault h, addNamespace_source, addDefault_source, ← h, hreplaces,
      ImportClause.mem_takenAsValues, ImportClause.mem_valueBindings]
    tauto

/-! ### The statements of a module -/

theorem isSideEffectOnly_iff : m.isSideEffectOnly = true ↔ m.bindings = [] := by
  simp only [isSideEffectOnly, bindings, ImportedName.unlessEmpty, Bool.and_eq_true,
    List.append_eq_nil_iff, List.map_eq_nil_iff, List.isEmpty_iff, ite_eq_left_iff,
    List.cons_ne_nil, imp_false, not_not]
  tauto

theorem map_specifier_under {bindings : List ImportBinding} (source : Bytes)
    (h : ∀ b ∈ bindings, b.WellNamed) :
    (bindings.map (·.specifier)).map (·.under source) = bindings.map (·.under source) := by
  rw [List.map_map]
  refine List.map_congr_left fun b hb ↦ ?_
  have hname : b.specifier.localName.isEmpty = false := (h b hb).isEmpty_eq
  rw [Function.comp_apply, ImportSpecifier.under, hname]
  rfl

theorem valueStatements_bindings (h : ∀ b ∈ m.values, b.WellNamed) :
    m.valueStatements.flatMap (·.bindings) =
      ImportedName.unlessEmpty ⟨m.source, .default, m.defaultName⟩ ++
        m.values.map (·.under m.source) := by
  unfold valueStatements
  split
  · next hnone =>
    obtain ⟨hdefault, hvalues⟩ := Bool.and_eq_true_iff.mp hnone
    rw [List.isEmpty_iff.mp hdefault, List.isEmpty_iff.mp hvalues]
    rfl
  · rw [List.flatMap_singleton, ← map_specifier_under m.source h]
    exact congrArg (· ++ _) (List.append_nil _)

theorem namespaceStatements_bindings (h : ∀ name ∈ m.namespaces, IsBindingName name) :
    m.namespaceStatements.flatMap (·.bindings) = m.namespaces.map (⟨m.source, .namespace, ·⟩) := by
  rw [namespaceStatements, List.flatMap_map, List.map_eq_flatMap]
  refine List.flatMap_congr fun name hname ↦ ?_
  simp [ImportClause.bindings, ImportedName.unlessEmpty, (h name hname).isEmpty_eq]

theorem typeDefaultStatements_bindings : m.typeDefaultStatements.flatMap (·.bindings) =
    ImportedName.unlessEmpty ⟨m.source, .typeDefault, m.typeDefault⟩ := by
  unfold typeDefaultStatements
  split
  · next hnone =>
    rw [ImportedName.unlessEmpty, if_pos hnone]
    rfl
  · rw [List.flatMap_singleton, ImportClause.bindings]
    exact (List.append_nil _).trans (List.append_nil _)

theorem typeStatements_bindings (h : ∀ b ∈ m.types, b.WellNamed) :
    m.typeStatements.flatMap (·.bindings) = m.types.map (·.under m.source) := by
  unfold typeStatements
  split
  · next hnone =>
    rw [List.isEmpty_iff.mp hnone]
    rfl
  · rw [List.flatMap_singleton, ← map_specifier_under m.source h]
    rfl

/-- The statements of a module bind the same names in the same order. -/
theorem statements_bindings (h : m.WellNamed) :
    m.statements.flatMap (·.bindings) = m.bindings := by
  unfold statements
  split
  · next hnone =>
    rw [isSideEffectOnly_iff.mp hnone]
    rfl
  · rw [List.flatMap_append, List.flatMap_append, List.flatMap_append,
      valueStatements_bindings h.values, namespaceStatements_bindings h.namespaces,
      typeDefaultStatements_bindings, typeStatements_bindings h.types]
    rfl

theorem typeOnly_of_mem (h : clause ∈ m.typeDefaultStatements ++ m.typeStatements) :
    clause.typeOnly = true := by
  simp only [typeDefaultStatements, typeStatements, List.mem_append, List.mem_ite_nil_left,
    List.mem_singleton] at h
  obtain ⟨-, rfl⟩ | ⟨-, rfl⟩ := h <;> rfl

/-- The statements of the types bind no value, and all others nothing else. -/
theorem statements_valueBindings (h : m.WellNamed) :
    m.statements.flatMap (·.valueBindings) = m.valueBindings := by
  unfold statements
  split
  · next hnone =>
    have hbindings := isSideEffectOnly_iff.mp hnone
    rw [bindings, List.append_assoc] at hbindings
    exact (List.append_eq_nil_iff.mp hbindings).1.symm
  · have hvalues : m.valueStatements.flatMap (·.valueBindings) =
        m.valueStatements.flatMap (·.bindings) := by
      refine List.flatMap_congr fun clause hclause ↦ ?_
      simp only [valueStatements, List.mem_ite_nil_left, List.mem_singleton] at hclause
      obtain ⟨-, rfl⟩ := hclause
      have hlist : (m.values.map (·.specifier)).filter (!·.isType) = m.values.map (·.specifier) :=
        List.filter_eq_self.mpr (List.forall_mem_map.mpr fun _ _ ↦ rfl)
      rw [ImportClause.valueBindings, if_neg Bool.false_ne_true, hlist]
    have hnamespaces : m.namespaceStatements.flatMap (·.valueBindings) =
        m.namespaceStatements.flatMap (·.bindings) := by
      refine List.flatMap_congr fun clause hclause ↦ ?_
      obtain ⟨name, -, rfl⟩ := List.mem_map.mp hclause
      rfl
    have htypes : (m.typeDefaultStatements ++ m.typeStatements).flatMap (·.valueBindings) = [] :=
      List.flatMap_eq_nil_iff.mpr fun clause hclause ↦ if_pos (typeOnly_of_mem hclause)
    rw [List.append_assoc, List.flatMap_append, List.flatMap_append, hvalues, hnamespaces, htypes,
      valueStatements_bindings h.values, namespaceStatements_bindings h.namespaces,
      List.append_nil]
    rfl

/-- A statement that is not one of types is written for the values, or for the effects alone. -/
theorem exists_statement_iff (h : m.WellNamed) :
    (∃ statement ∈ m.statements, statement.typeOnly = false) ↔
      m.isSideEffectOnly = true ∨ m.valueBindings ≠ [] := by
  constructor
  · rintro ⟨statement, hstatement, htype⟩
    refine or_iff_not_imp_left.mpr fun hnames hnil ↦ ?_
    rw [valueBindings, List.append_eq_nil_iff, List.append_eq_nil_iff, List.map_eq_nil_iff,
      List.map_eq_nil_iff] at hnil
    obtain ⟨⟨hdefault, hvalues⟩, hnamespaces⟩ := hnil
    have hdefault : m.defaultName = [] := by
      simpa [ImportedName.unlessEmpty] using hdefault
    rw [statements, if_neg hnames, valueStatements, namespaceStatements, hdefault, hvalues,
      hnamespaces, List.append_assoc] at hstatement
    rw [typeOnly_of_mem hstatement] at htype
    cases htype
  · rintro (hnone | hvalues)
    · rw [statements, if_pos hnone]
      exact ⟨_, List.mem_singleton_self _, rfl⟩
    · rw [← statements_valueBindings h] at hvalues
      obtain ⟨b, hb⟩ := List.exists_mem_of_ne_nil _ hvalues
      obtain ⟨statement, hstatement, hb⟩ := List.mem_flatMap.mp hb
      exact ⟨statement, hstatement, (ImportClause.mem_valueBindings.mp hb).1⟩

end ModuleImports

end SignalView
