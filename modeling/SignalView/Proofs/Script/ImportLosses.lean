import SignalView.Proofs.Script.MergedImports

/-!
# Imports that are lost

Three things are lost when imports are merged: a default in whose place a later one comes, the word
`type` in front of a namespace, and an import for the effects of a module from which only types are
imported besides. Nothing else is lost: the block of a table keeps the imports of the clauses that
made the table just when none of the three occurs.
-/

namespace SignalView

/-- Some clauses are kept by others: each name is bound to the same export, what is bound only as
a type is not bound as a value, and each module that is run is imported otherwise than for
types. -/
structure KeptBy (clauses block : List ImportClause) : Prop where
  bound : ∀ b ∈ clauses.flatMap (·.bindings), ∃ c ∈ block.flatMap (·.bindings), c.target = b.target
  types : ∀ b ∈ clauses.flatMap (·.bindings),
    (∀ v ∈ clauses.flatMap (·.valueBindings), v.name ≠ b.name) →
      ∀ v ∈ block.flatMap (·.valueBindings), v.name ≠ b.name
  runs : ∀ clause ∈ clauses, clause.Runs →
    ∃ statement ∈ block, statement.source = clause.source ∧ statement.typeOnly = false

/-- Nothing is lost when some clauses are merged. -/
structure Mergeable (clauses : List ImportClause) : Prop where
  /-- The name of a default is imported for good, if not by this default then otherwise. -/
  defaults : ∀ b ∈ clauses.flatMap (·.bindings), b.role.isDefault = true →
    ∃ c, c.target = b.target ∧ Lasts ImportClause.bindings clauses c
  /-- The name of a namespace that is a type is bound as a value as well. -/
  namespaces : ∀ clause ∈ clauses, clause.typeOnly = true → clause.namespaceName ≠ [] →
    ∃ v ∈ clauses.flatMap (·.valueBindings), v.name = clause.namespaceName
  /-- A module that is imported for its effects gives no name besides, or some value. -/
  effects : ∀ clause ∈ clauses, clause.isSideEffect = true → clause.typeOnly = false →
    (∀ other ∈ clauses, other.source = clause.source → other.isSideEffect = true) ∨
      ∃ other ∈ clauses, other.source = clause.source ∧ other.takenAsValues ≠ []

/-! ## Tables -/

namespace ImportTable

variable {table : ImportTable} {clauses : List ImportClause} {m : ModuleImports} {b : ImportedName}
  {source other : Bytes}

/-- The imports from one module that some clauses make. -/
def gathered (clauses : List ImportClause) (source : Bytes) : ModuleImports :=
  (clauses.filter (·.source == source)).foldl ModuleImports.add { source := source }

theorem gathered_source : (gathered clauses source).source = source :=
  List.foldlRecOn _ _ (motive := fun m : ModuleImports ↦ m.source = source) rfl
    fun m hm clause _ ↦ (m.add_source clause).trans hm

theorem find?_foldl_add (h : table.Sorted) : (clauses.foldl add table).find? source =
    if ∃ clause ∈ clauses, clause.source = source then
      some ((clauses.filter (·.source == source)).foldl ModuleImports.add
        ((table.find? source).getD { source := source }))
    else table.find? source := by
  induction clauses generalizing table with
  | nil => simp
  | cons clause clauses ih =>
    rw [List.foldl_cons, ih ((add_gains clause).sorted h), add_eq_update,
      find?_update (fun m ↦ m.add_source clause) h]
    by_cases hsource : clause.source = source
    · subst hsource
      have hsome : ∃ other ∈ clause :: clauses, other.source = clause.source :=
        ⟨clause, List.mem_cons_self, rfl⟩
      rw [if_pos rfl, if_pos hsome, Option.getD_some, List.filter_cons_of_pos (by simp),
        List.foldl_cons]
      split
      · rfl
      · next hnone =>
        have hothers : clauses.filter (·.source == clause.source) = [] :=
          List.filter_eq_nil_iff.mpr fun other hother heq ↦
            hnone ⟨other, hother, eq_of_beq heq⟩
        rw [hothers, List.foldl_nil]
    · rw [if_neg hsource, List.filter_cons_of_neg (by simpa using hsource)]
      simp only [List.exists_mem_cons_iff, hsource, false_or]

theorem mem_modules_ofClauses : m ∈ (ofClauses clauses).modules ↔
    (∃ clause ∈ clauses, clause.source = m.source) ∧ gathered clauses m.source = m := by
  rw [mem_modules_iff sorted_ofClauses, ofClauses, find?_foldl_add sorted_empty]
  split
  · next hsome =>
    rw [and_iff_right hsome, Option.some_inj]
    rfl
  · next hnone =>
    exact iff_of_false nofun fun h ↦ hnone h.1

/-- What the statements of a table bind. -/
theorem mem_statements {held : ModuleImports → List ImportedName}
    {given read : ImportClause → List ImportedName} (h : ModuleImports.Collects held given)
    (hnames : ∀ clause ∈ clauses, clause.WellNamed)
    (hread : ∀ m : ModuleImports, m.WellNamed → m.statements.flatMap read = held m) :
    b ∈ (ofClauses clauses).statements.flatMap read ↔ Lasts given clauses b := by
  have hmodules : b ∈ (ofClauses clauses).statements.flatMap read ↔
      ∃ m ∈ (ofClauses clauses).modules, b ∈ held m := by
    rw [statements, List.flatMap_assoc, List.mem_flatMap]
    refine exists_congr fun m ↦ ?_
    rw [mem_filter_append_filter]
    refine and_congr_right fun hm ↦ ?_
    rw [hread m (wellNamed_ofClauses hnames m hm)]
  have hgathered : b ∈ held (gathered clauses b.source) ↔ Lasts given clauses b := by
    rw [gathered, h.mem_foldl rfl, h.empty]
    simp
  rw [hmodules, ← hgathered]
  constructor
  · rintro ⟨m, hm, hb⟩
    rwa [h.source_of_held hb, (mem_modules_ofClauses.mp hm).2]
  · intro hb
    refine ⟨_, mem_modules_ofClauses.mpr ⟨?_, ?_⟩, hb⟩
    · obtain ⟨clause, hclause, hgiven⟩ := List.mem_flatMap.mp (hgathered.mp hb).mem
      exact ⟨clause, hclause, (h.source_of_given hgiven).symm.trans (h.source_of_held hb)⟩
    · rw [← h.source_of_held hb]

/-- A module is imported by a statement other than for types when the clauses take nothing from it,
or some value. -/
theorem exists_statement_iff (hnames : ∀ clause ∈ clauses, clause.WellNamed)
    (hsource : ∃ clause ∈ clauses, clause.source = source) :
    (∃ statement ∈ (ofClauses clauses).statements,
        statement.source = source ∧ statement.typeOnly = false) ↔
      (∀ clause ∈ clauses, clause.source = source → clause.isSideEffect = true) ∨
        ∃ clause ∈ clauses, clause.source = source ∧ clause.takenAsValues ≠ [] := by
  have hgathered : gathered clauses source ∈ (ofClauses clauses).modules := by
    rw [mem_modules_ofClauses, gathered_source]
    exact ⟨hsource, rfl⟩
  have hm := wellNamed_ofClauses hnames _ hgathered
  have heffects : (gathered clauses source).isSideEffectOnly = true ↔
      ∀ clause ∈ clauses, clause.source = source → clause.isSideEffect = true := by
    rw [ModuleImports.isSideEffectOnly_iff, gathered, ModuleImports.bindings_collects.foldl_eq_nil,
      and_iff_right (ModuleImports.bindings_empty _)]
    simp only [ImportClause.isSideEffect_iff]
  have hvalues : (gathered clauses source).valueBindings ≠ [] ↔
      ∃ clause ∈ clauses, clause.source = source ∧ clause.takenAsValues ≠ [] := by
    rw [Ne, gathered, ModuleImports.valueBindings_collects.foldl_eq_nil,
      and_iff_right (ModuleImports.valueBindings_collects.empty _)]
    simp only [not_forall, exists_prop]
  rw [← heffects, ← hvalues, ← ModuleImports.exists_statement_iff hm]
  constructor
  · rintro ⟨statement, hstatement, rfl, htype⟩
    obtain ⟨m, hmem, hstatement⟩ := List.mem_flatMap.mp hstatement
    rw [ModuleImports.source_of_mem_statements hstatement,
      (mem_modules_ofClauses.mp (mem_filter_append_filter.mp hmem)).2]
    exact ⟨statement, hstatement, htype⟩
  · rintro ⟨statement, hstatement, htype⟩
    refine ⟨statement, List.mem_flatMap.mpr ⟨_, mem_filter_append_filter.mpr hgathered, hstatement⟩,
      ?_, htype⟩
    exact (ModuleImports.source_of_mem_statements hstatement).trans gathered_source

/-- The block of a table keeps the imports of the clauses that made it just when they can be merged
without loss. -/
theorem keptBy_statements_iff (hnames : ∀ clause ∈ clauses, clause.WellNamed) :
    (ofClauses clauses).generate .esm = (ofClauses clauses).statements.flatMap (·.text) ∧
      (KeptBy clauses (ofClauses clauses).statements ↔ Mergeable clauses) := by
  refine ⟨generate_esm_eq (wellNamed_ofClauses hnames), ?_⟩
  have hbound (b : ImportedName) : b ∈ (ofClauses clauses).statements.flatMap (·.bindings) ↔
      Lasts ImportClause.bindings clauses b :=
    mem_statements ModuleImports.bindings_collects hnames fun _ ↦ ModuleImports.statements_bindings
  have hvalue (b : ImportedName) : b ∈ (ofClauses clauses).statements.flatMap (·.valueBindings) ↔
      Lasts ImportClause.takenAsValues clauses b :=
    mem_statements ModuleImports.valueBindings_collects hnames
      fun _ ↦ ModuleImports.statements_valueBindings
  constructor
  · intro h
    refine ⟨fun b hb _ ↦ ?_, fun clause hclause _ hname ↦ ?_, fun clause hclause heffect htype ↦ ?_⟩
    · obtain ⟨c, hc, htarget⟩ := h.bound b hb
      exact ⟨c, htarget, (hbound c).mp hc⟩
    · by_contra hnone
      simp only [not_exists, not_and] at hnone
      have hspace : ⟨clause.source, .namespace, clause.namespaceName⟩ ∈ clause.namespaceBindings :=
        ImportedName.mem_unlessEmpty.mpr ⟨hname, rfl⟩
      refine h.types _ (List.mem_flatMap.mpr ⟨clause, hclause, ?_⟩) hnone
        ⟨clause.source, .namespace, clause.namespaceName⟩ ((hvalue _).mpr ?_) rfl
      · exact ImportClause.mem_bindings.mpr (.inr (.inl hspace))
      · refine (lasts_iff_mem rfl).mpr (List.mem_flatMap.mpr ⟨clause, hclause, ?_⟩)
        exact ImportClause.mem_takenAsValues.mpr (.inl hspace)
    · exact (exists_statement_iff hnames ⟨clause, hclause, rfl⟩).mp
        (h.runs clause hclause ⟨htype, .inl heffect⟩)
  · intro h
    refine ⟨fun b hb ↦ ?_, fun b _ hnone v hv heq ↦ ?_, fun clause hclause hruns ↦ ?_⟩
    · cases hdefault : b.role.isDefault
      · exact ⟨b, (hbound b).mpr ((lasts_iff_mem hdefault).mpr hb), rfl⟩
      · obtain ⟨c, htarget, hlasts⟩ := h.defaults b hb hdefault
        exact ⟨c, (hbound c).mpr hlasts, htarget⟩
    · obtain ⟨clause, hclause, hv⟩ := List.mem_flatMap.mp ((hvalue v).mp hv).mem
      have hvalues : v ∉ clause.valueBindings := fun hv ↦
        hnone v (List.mem_flatMap.mpr ⟨clause, hclause, hv⟩) heq
      have hspace := (ImportClause.mem_takenAsValues.mp hv).resolve_right hvalues
      obtain ⟨hname, rfl⟩ := ImportedName.mem_unlessEmpty.mp hspace
      cases htype : clause.typeOnly
      · exact hvalues (ImportClause.mem_valueBindings.mpr ⟨htype, .inr (.inl hspace)⟩)
      · obtain ⟨w, hw, hsame⟩ := h.namespaces clause hclause htype hname
        exact hnone w hw (hsame.trans heq)
    · obtain ⟨htype, heffect | hvalues⟩ := hruns
      · exact (exists_statement_iff hnames ⟨clause, hclause, rfl⟩).mpr
          (h.effects clause hclause heffect htype)
      · refine (exists_statement_iff hnames ⟨clause, hclause, rfl⟩).mpr
          (.inr ⟨clause, hclause, rfl, fun hnil ↦ hvalues ?_⟩)
        exact (List.append_eq_nil_iff.mp hnil).2

/-- The first of two defaults of one module is lost. -/
theorem not_keptBy_statements_defaults :
    (ofClauses [{ source := bytes "m", defaultName := bytes "A" },
        { source := bytes "m", defaultName := bytes "B" }]).generate .esm =
      bytes "import B from 'm';\n" ∧
    ¬KeptBy [{ source := bytes "m", defaultName := bytes "A" },
        { source := bytes "m", defaultName := bytes "B" }]
      (ofClauses [{ source := bytes "m", defaultName := bytes "A" },
        { source := bytes "m", defaultName := bytes "B" }]).statements := by
  have hA : IsBindingName (bytes "A") := ⟨.identifier, rfl, .name ⟨rfl, .part rfl .nil⟩ rfl⟩
  have hB : IsBindingName (bytes "B") := ⟨.identifier, rfl, .name ⟨rfl, .part rfl .nil⟩ rfl⟩
  have hnames : ∀ clause ∈ [({ source := bytes "m", defaultName := bytes "A" } : ImportClause),
      { source := bytes "m", defaultName := bytes "B" }], clause.WellNamed := by
    simp only [List.forall_mem_cons, List.not_mem_nil, false_imp_iff, implies_true, and_true]
    exact ⟨⟨.inr hA, .inl rfl, by simp⟩, ⟨.inr hB, .inl rfl, by simp⟩⟩
  refine ⟨by decide, fun hkept ↦ ?_⟩
  obtain ⟨c, htarget, hlasts⟩ := ((keptBy_statements_iff hnames).2.mp hkept).defaults
    ⟨bytes "m", .default, bytes "A"⟩ (by decide) rfl
  have hname : c.name = bytes "A" := congrArg (·.2.2) htarget
  obtain hlast | ⟨hfirst, hbehind⟩ := lasts_cons.mp hlasts
  · obtain rfl : c = ⟨bytes "m", .default, bytes "B"⟩ := List.mem_singleton.mp hlast.mem
    exact absurd hname (by decide)
  · obtain rfl : c = ⟨bytes "m", .default, bytes "A"⟩ := List.mem_singleton.mp hfirst
    exact hbehind _ (List.mem_singleton_self _) ⟨bytes "m", .default, bytes "B"⟩
      (List.mem_singleton_self _) ⟨rfl, rfl, rfl⟩

end ImportTable

end SignalView
