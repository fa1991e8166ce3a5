import SignalView.Proofs.Text.Sorted
import SignalView.Script.ImportTable

/-!
# What an import table binds

A table is sorted: the modules by their source, and the names of each of them in their lists. Adding
to it keeps it so, which is why nothing is ever bound twice in the same way. Two entries of a name
can then only come from importing it as two different things.
-/

namespace SignalView

theorem ImportBinding.before_strictlyOrders : StrictlyOrders ImportBinding.before where
  irrefl a := by simp [before, Bytes.before_strictlyOrders.irrefl]
  trans {a b c} hab hbc := by
    simp only [before, Bool.or_eq_true, Bool.and_eq_true, beq_iff_eq] at hab hbc ⊢
    rcases hab with hab | ⟨hab, hab'⟩ <;> rcases hbc with hbc | ⟨hbc, hbc'⟩
    · exact .inl (Bytes.before_strictlyOrders.trans hab hbc)
    · exact .inl (hbc ▸ hab)
    · exact .inl (hab ▸ hbc)
    · exact .inr ⟨hab.trans hbc, Bytes.before_strictlyOrders.trans hab' hbc'⟩
  total {a b} hne hab := by
    simp only [before, Bool.or_eq_false_iff, Bool.or_eq_true, Bool.and_eq_true, beq_iff_eq]
      at hab ⊢
    by_cases heq : a.imported = b.imported
    · have hlocal : a.localName ≠ b.localName := fun hlocal ↦ hne (by
        cases a; cases b; simp_all)
      refine .inr ⟨heq.symm, Bytes.before_strictlyOrders.total hlocal ?_⟩
      simpa [heq] using hab.2
    · exact .inl (Bytes.before_strictlyOrders.total heq hab.1)

/-! ## Bindings -/

/-- What a module gives under a name: its default, itself, or one of its exports. -/
inductive ImportRole where
  | default | typeDefault | namespace | named (imported : Bytes)
  deriving DecidableEq, Repr

/-- A name and what it is imported as. -/
structure ImportedName where
  source : Bytes
  role : ImportRole
  name : Bytes
  deriving DecidableEq, Repr

/-- A list that has no element when the name is empty. -/
def ImportedName.unlessEmpty (b : ImportedName) : List ImportedName :=
  if b.name.isEmpty then [] else [b]

theorem ImportedName.eq_of_mem_unlessEmpty {b c : ImportedName} (h : b ∈ c.unlessEmpty) :
    b = c := by
  unfold unlessEmpty at h
  split at h
  · cases h
  · exact List.mem_singleton.mp h

theorem ImportedName.nodup_unlessEmpty (b : ImportedName) : b.unlessEmpty.Nodup := by
  unfold unlessEmpty
  split <;> simp

/-- A named export of a module and its local name. -/
def ImportBinding.under (source : Bytes) (b : ImportBinding) : ImportedName :=
  ⟨source, .named b.imported, b.localName⟩

theorem ImportBinding.under_injective (source : Bytes) : (under source).Injective := by
  rintro ⟨_, _⟩ ⟨_, _⟩ heq
  simpa [under] using heq

/-- What a clause binds. -/
def ImportClause.bindings (clause : ImportClause) : List ImportedName :=
  ImportedName.unlessEmpty
    ⟨clause.source, if clause.typeOnly then .typeDefault else .default, clause.defaultName⟩ ++
  ImportedName.unlessEmpty ⟨clause.source, .namespace, clause.namespaceName⟩ ++
  clause.specifiers.map fun s ↦ ImportBinding.under clause.source
    { imported := s.imported
      localName := if s.localName.isEmpty then s.imported else s.localName }

namespace ModuleImports

/-- What the imports of a module bind, in the order in which they are written. -/
def bindings (m : ModuleImports) : List ImportedName :=
  ImportedName.unlessEmpty ⟨m.source, .default, m.defaultName⟩ ++
  m.values.map (ImportBinding.under m.source) ++
  m.namespaces.map (⟨m.source, .namespace, ·⟩) ++
  ImportedName.unlessEmpty ⟨m.source, .typeDefault, m.typeDefault⟩ ++
  m.types.map (ImportBinding.under m.source)

/-- The lists are sorted, and no binding is both a value and a type. -/
structure Sorted (m : ModuleImports) : Prop where
  namespaces : m.namespaces.Pairwise (Bytes.before · · = true)
  values : m.values.Pairwise (ImportBinding.before · · = true)
  types : m.types.Pairwise (ImportBinding.before · · = true)
  apart : ∀ b ∈ m.values, b ∉ m.types

theorem sorted_empty (source : Bytes) : Sorted { source := source } :=
  ⟨.nil, .nil, .nil, by simp⟩

@[simp]
theorem bindings_empty (source : Bytes) : bindings { source := source } = [] := rfl

variable {m : ModuleImports} {b : ImportedName}

theorem source_of_mem_bindings (h : b ∈ m.bindings) : b.source = m.source := by
  simp only [bindings, List.mem_append, List.mem_map] at h
  rcases h with (((h | ⟨_, -, rfl⟩) | ⟨_, -, rfl⟩) | h) | ⟨_, -, rfl⟩
  · rw [ImportedName.eq_of_mem_unlessEmpty h]
  · rfl
  · rfl
  · rw [ImportedName.eq_of_mem_unlessEmpty h]
  · rfl

theorem Sorted.nodup_bindings (h : m.Sorted) : m.bindings.Nodup := by
  have hnamed := ImportBinding.under_injective m.source
  have hvalues := (ImportBinding.before_strictlyOrders.nodup h.values).map hnamed
  have htypes := (ImportBinding.before_strictlyOrders.nodup h.types).map hnamed
  have hspace : Function.Injective (ImportedName.mk m.source .namespace) :=
    fun _ _ heq ↦ by simpa using heq
  have hspaces := (Bytes.before_strictlyOrders.nodup h.namespaces).map hspace
  have hapart : ∀ v ∈ m.values, ∀ t ∈ m.types, v.under m.source ≠ t.under m.source :=
    fun v hv t ht heq ↦ h.apart v hv (hnamed heq ▸ ht)
  simp only [bindings, List.nodup_append, ImportedName.nodup_unlessEmpty, hvalues, hspaces, htypes,
    List.mem_append, List.mem_map, true_and]
  grind [ImportBinding.under, ImportedName.eq_of_mem_unlessEmpty]

/-- A change of a module's imports that binds nothing but some new names. -/
structure Adds (change : ModuleImports → ModuleImports) (source : Bytes)
    (new : List ImportedName) : Prop where
  source_eq (m : ModuleImports) : (change m).source = m.source
  sorted {m : ModuleImports} (h : m.Sorted) : (change m).Sorted
  mem {m : ModuleImports} (hm : m.source = source) {b : ImportedName}
    (hb : b ∈ (change m).bindings) : b ∈ m.bindings ∨ b ∈ new

theorem addNamed_adds (source : Bytes) (b : ImportBinding) (isType : Bool) :
    Adds (·.addNamed b isType) source [b.under source] where
  source_eq m := by
    unfold addNamed
    split
    · split <;> rfl
    · rfl
  sorted {m} h := by
    unfold addNamed
    split
    · split
      · exact h
      · next hnew =>
        refine ⟨h.namespaces, h.values, ?_, fun v hv ht ↦ ?_⟩
        · exact ImportBinding.before_strictlyOrders.sorted_insertSorted h.types
        · obtain rfl | ht := mem_insertSorted.mp ht
          · exact hnew (by simpa using hv)
          · exact h.apart v hv ht
    · refine ⟨h.namespaces, ?_, h.types.filter _, fun v hv ht ↦ ?_⟩
      · exact ImportBinding.before_strictlyOrders.sorted_insertSorted h.values
      · obtain ⟨ht, hne⟩ := List.mem_filter.mp ht
        obtain rfl | hv := mem_insertSorted.mp hv
        · simp at hne
        · exact h.apart v hv ht
  mem {m} hm c hc := by
    unfold addNamed at hc
    split at hc
    · split at hc
      · exact .inl hc
      · simp only [bindings, List.mem_append, List.mem_map, mem_insertSorted] at hc ⊢
        grind
    · simp only [bindings, List.mem_append, List.mem_map, mem_insertSorted, List.mem_filter] at hc ⊢
      grind

theorem addDefault_adds (source name : Bytes) :
    Adds (fun m ↦ { m with defaultName := name }) source
      (ImportedName.unlessEmpty ⟨source, .default, name⟩) where
  source_eq _ := rfl
  sorted h := ⟨h.namespaces, h.values, h.types, h.apart⟩
  mem hm _ hb := by
    simp only [bindings, List.mem_append] at hb ⊢
    grind

theorem addTypeDefault_adds (source name : Bytes) :
    Adds (fun m ↦ { m with typeDefault := name }) source
      (ImportedName.unlessEmpty ⟨source, .typeDefault, name⟩) where
  source_eq _ := rfl
  sorted h := ⟨h.namespaces, h.values, h.types, h.apart⟩
  mem hm _ hb := by
    simp only [bindings, List.mem_append] at hb ⊢
    grind

theorem addNamespace_adds (source name : Bytes) :
    Adds (fun m ↦ { m with namespaces := insertSorted Bytes.before name m.namespaces }) source
      [⟨source, .namespace, name⟩] where
  source_eq _ := rfl
  sorted h :=
    ⟨Bytes.before_strictlyOrders.sorted_insertSorted h.namespaces, h.values, h.types, h.apart⟩
  mem hm _ hb := by
    simp only [bindings, List.mem_append, List.mem_map, mem_insertSorted] at hb ⊢
    grind

/-- Adds the default import of a clause. -/
def addDefault (m : ModuleImports) (clause : ImportClause) : ModuleImports :=
  if clause.defaultName.isEmpty then m
  else if clause.typeOnly then { m with typeDefault := clause.defaultName }
  else { m with defaultName := clause.defaultName }

/-- Adds the namespace of a clause. -/
def addNamespace (m : ModuleImports) (clause : ImportClause) : ModuleImports :=
  if clause.namespaceName.isEmpty then m
  else { m with namespaces := insertSorted Bytes.before clause.namespaceName m.namespaces }

/-- Adds the names of an import list. -/
def addSpecifiers (m : ModuleImports) (typeOnly : Bool) (specifiers : List ImportSpecifier) :
    ModuleImports :=
  specifiers.foldl (fun m s ↦
    m.addNamed ⟨s.imported, if s.localName.isEmpty then s.imported else s.localName⟩
      (typeOnly || s.isType)) m

/-- Adds all that a clause binds. -/
def add (m : ModuleImports) (clause : ImportClause) : ModuleImports :=
  ((m.addDefault clause).addNamespace clause).addSpecifiers clause.typeOnly clause.specifiers

@[simp]
theorem addDefault_source (m : ModuleImports) (clause : ImportClause) :
    (m.addDefault clause).source = m.source := by
  unfold addDefault
  split
  · rfl
  · split <;> rfl

@[simp]
theorem addNamespace_source (m : ModuleImports) (clause : ImportClause) :
    (m.addNamespace clause).source = m.source := by
  unfold addNamespace
  split <;> rfl

@[simp]
theorem addSpecifiers_source (m : ModuleImports) (typeOnly : Bool)
    (specifiers : List ImportSpecifier) :
    (m.addSpecifiers typeOnly specifiers).source = m.source := by
  induction specifiers generalizing m with
  | nil => rfl
  | cons s specifiers ih => exact (ih _).trans ((addNamed_adds m.source _ _).source_eq m)

@[simp]
theorem add_source (m : ModuleImports) (clause : ImportClause) :
    (m.add clause).source = m.source := by
  simp [add]

end ModuleImports

/-! ## Tables -/

namespace ImportTable

/-- What the imports of a table bind, in the order in which they are written. -/
def bindings (table : ImportTable) : List ImportedName := table.modules.flatMap (·.bindings)

/-- The modules are sorted by their source, and what is imported from each of them is sorted. -/
structure Sorted (table : ImportTable) : Prop where
  sources : table.modules.Pairwise (Bytes.before ·.source ·.source = true)
  modules : ∀ m ∈ table.modules, m.Sorted

theorem sorted_empty : Sorted {} := ⟨.nil, by simp⟩

variable {table : ImportTable}

/-- A sorted table binds nothing twice in the same way. -/
theorem Sorted.nodup_bindings (h : table.Sorted) : table.bindings.Nodup := by
  refine List.nodup_flatMap.mpr ⟨fun m hm ↦ (h.modules m hm).nodup_bindings, ?_⟩
  refine h.sources.imp fun {m m'} hbefore b hb hb' ↦ ?_
  have hsource := (ModuleImports.source_of_mem_bindings hb).symm.trans
    (ModuleImports.source_of_mem_bindings hb')
  rw [hsource, Bytes.before_strictlyOrders.irrefl] at hbefore
  cases hbefore

/-- No module is listed twice. -/
theorem Sorted.sources_ne (h : table.Sorted) : table.modules.Pairwise (·.source ≠ ·.source) := by
  refine h.sources.imp fun hbefore heq ↦ ?_
  rw [heq, Bytes.before_strictlyOrders.irrefl] at hbefore
  cases hbefore

/-- A sorted table is settled by the modules in it. -/
theorem Sorted.eq_of_perm {other : ImportTable} (h : table.Sorted) (hother : other.Sorted)
    (hperm : table.modules.Perm other.modules) : table = other := by
  refine congrArg ImportTable.mk
    (List.Perm.eq_of_pairwise (fun a b _ _ hab hba ↦ ?_) h.sources hother.sources hperm)
  rw [Bytes.before_strictlyOrders.asymm hab] at hba
  cases hba

section Update

variable {source : Bytes} {change : ModuleImports → ModuleImports} {modules : List ModuleImports}
  {m : ModuleImports}

theorem mem_updateIn (h : m ∈ updateIn source change modules) :
    m ∈ modules ∨ ∃ m', (m' ∈ modules ∨ m' = { source := source }) ∧ m'.source = source ∧
      m = change m' := by
  induction modules with
  | nil => exact .inr ⟨_, .inr rfl, rfl, by simpa [updateIn] using h⟩
  | cons first rest ih => grind [updateIn]

theorem sources_updateIn (hchange : ∀ m, (change m).source = m.source)
    (h : modules.Pairwise (Bytes.before ·.source ·.source = true)) :
    (updateIn source change modules).Pairwise (Bytes.before ·.source ·.source = true) := by
  induction modules with
  | nil => simp [updateIn]
  | cons first rest ih =>
    obtain ⟨hfirst, hrest⟩ := List.pairwise_cons.mp h
    unfold updateIn
    split
    · exact .cons (fun m hm ↦ hchange first ▸ hfirst m hm) hrest
    · next hne =>
      split
      · next hbefore =>
        refine .cons ?_ h
        simp only [hchange, List.mem_cons, forall_eq_or_imp]
        exact ⟨hbefore, fun m hm ↦ Bytes.before_strictlyOrders.trans hbefore (hfirst m hm)⟩
      · next hbefore =>
        refine .cons (fun m hm ↦ ?_) (ih hrest)
        obtain hm | ⟨m', -, hsource, rfl⟩ := mem_updateIn hm
        · exact hfirst m hm
        · rw [hchange, hsource]
          refine Bytes.before_strictlyOrders.total ?_ (by simpa using hbefore)
          exact fun heq ↦ hne (by simp [heq])

theorem find?_updateIn {other : Bytes} (hchange : ∀ m, (change m).source = m.source)
    (h : modules.Pairwise (Bytes.before ·.source ·.source = true)) :
    (updateIn source change modules).find? (·.source == other) =
      if source = other then
        some (change ((modules.find? (·.source == source)).getD { source := source }))
      else modules.find? (·.source == other) := by
  induction modules with
  | nil =>
    rw [updateIn, List.find?_singleton, hchange, List.find?_nil, List.find?_nil]
    simp only [beq_iff_eq, Option.getD_none]
  | cons m modules ih =>
    obtain ⟨hm, hmodules⟩ := List.pairwise_cons.mp h
    have hcons (m : ModuleImports) (modules : List ModuleImports) (other : Bytes) :
        (m :: modules).find? (·.source == other) =
          if m.source = other then some m else modules.find? (·.source == other) := by
      rw [List.find?_cons]
      by_cases hother : m.source = other
      · simp [hother]
      · simp [beq_false_of_ne hother, hother]
    rw [updateIn, hcons, hcons]
    by_cases hsource : m.source = source
    · subst hsource
      rw [if_pos (beq_self_eq_true _), hcons, hchange, if_pos rfl]
      split <;> rfl
    · rw [if_neg (by simpa using hsource), if_neg hsource]
      split
      · next hbefore =>
        have hnew : modules.find? (·.source == source) = none := by
          refine List.find?_eq_none.mpr fun n hn heq ↦ ?_
          have hlater := hm n hn
          rw [eq_of_beq heq, Bytes.before_strictlyOrders.asymm hbefore] at hlater
          cases hlater
        rw [hcons, hchange, hnew, hcons]
        rfl
      · rw [hcons, ih hmodules]
        split
        · next hother =>
          rw [if_neg fun heq ↦ hsource (hother.trans heq.symm)]
        · rfl

theorem find?_update {other : Bytes} (hchange : ∀ m, (change m).source = m.source)
    (h : table.Sorted) :
    (table.update source change).find? other =
      if source = other then
        some (change ((table.find? source).getD { source := source }))
      else table.find? other :=
  find?_updateIn hchange h.sources

theorem mem_modules_iff (h : table.Sorted) :
    m ∈ table.modules ↔ table.find? m.source = some m := by
  refine ⟨fun hm ↦ ?_, List.mem_of_find?_eq_some⟩
  obtain ⟨n, hn⟩ : ∃ n, table.find? m.source = some n :=
    Option.isSome_iff_exists.mp (List.find?_isSome.mpr ⟨m, hm, beq_self_eq_true _⟩)
  have hsource := List.find?_some hn
  have hnodup : (table.modules.map (·.source)).Nodup := List.pairwise_map.mpr h.sources_ne
  rw [hn, List.inj_on_of_nodup_map hnodup (List.mem_of_find?_eq_some hn) hm (eq_of_beq hsource)]

end Update

/-- A table is followed by one that is sorted if it is, and binds nothing but some new names. -/
structure Gains (table : ImportTable) (new : List ImportedName) (table' : ImportTable) : Prop where
  sorted : table.Sorted → table'.Sorted
  mem : ∀ b ∈ table'.bindings, b ∈ table.bindings ∨ b ∈ new

variable {table' table'' : ImportTable} {new new' : List ImportedName}

theorem Gains.refl : table.Gains new table := ⟨id, fun _ hb ↦ .inl hb⟩

theorem Gains.trans (h : table.Gains new table') (h' : table'.Gains new' table'') :
    table.Gains (new ++ new') table'' where
  sorted := h'.sorted ∘ h.sorted
  mem b hb := by
    rw [List.mem_append, ← or_assoc]
    exact (h'.mem b hb).imp_left (h.mem b)

theorem Gains.ite {c : Prop} [Decidable c] {other : ImportTable} (h : c → table.Gains new table')
    (hother : ¬c → table.Gains new other) : table.Gains new (if c then table' else other) := by
  split
  · next hc => exact h hc
  · next hc => exact hother hc

theorem update_gains {source : Bytes} {change : ModuleImports → ModuleImports}
    (h : ModuleImports.Adds change source new) : table.Gains new (table.update source change) where
  sorted hsorted := by
    refine ⟨sources_updateIn h.source_eq hsorted.sources, fun m hm ↦ ?_⟩
    obtain hm | ⟨m', hm' | rfl, -, rfl⟩ := mem_updateIn hm
    · exact hsorted.modules m hm
    · exact h.sorted (hsorted.modules m' hm')
    · exact h.sorted (ModuleImports.sorted_empty source)
  mem b hb := by
    simp only [bindings, List.mem_flatMap] at hb ⊢
    obtain ⟨m, hm, hb⟩ := hb
    obtain hm | ⟨m', hm', hsource, rfl⟩ := mem_updateIn hm
    · exact .inl ⟨m, hm, hb⟩
    · refine (h.mem hsource hb).imp_left fun hb ↦ ?_
      obtain hm' | rfl := hm'
      · exact ⟨m', hm', hb⟩
      · simp at hb

theorem addNamed_gains (source imported localName : Bytes) (isType : Bool) :
    table.Gains [ImportBinding.under source
      { imported := imported, localName := if localName.isEmpty then imported else localName }]
      (table.addNamed source imported localName isType) :=
  update_gains (ModuleImports.addNamed_adds _ _ _)

theorem foldl_addNamed_gains (source : Bytes) (typeOnly : Bool)
    (specifiers : List ImportSpecifier) :
    table.Gains
      (specifiers.map fun s ↦ ImportBinding.under source
        { imported := s.imported
          localName := if s.localName.isEmpty then s.imported else s.localName })
      (specifiers.foldl (fun table s ↦
        table.addNamed source s.imported s.localName (typeOnly || s.isType)) table) := by
  induction specifiers generalizing table with
  | nil => exact .refl
  | cons s specifiers ih => exact (addNamed_gains _ _ _ _).trans ih

/-- What a change adds to the imports of a module is added to the table. -/
theorem mem_bindings_updateIn {source : Bytes} {change : ModuleImports → ModuleImports}
    {b new : ImportedName} {modules : List ModuleImports}
    (hchange : ∀ m, m.source = source → (b ∈ (change m).bindings ↔ b ∈ m.bindings ∨ b = new)) :
    b ∈ (updateIn source change modules).flatMap (·.bindings) ↔
      b ∈ modules.flatMap (·.bindings) ∨ b = new := by
  induction modules with
  | nil => simpa [updateIn] using hchange { source := source } rfl
  | cons m modules ih =>
    rw [updateIn]
    split
    · next hsource =>
      simp only [List.flatMap_cons, List.mem_append, hchange m (eq_of_beq hsource), or_right_comm]
    · split
      · simp only [List.flatMap_cons, List.mem_append, hchange { source := source } rfl,
          ModuleImports.bindings_empty, List.not_mem_nil, false_or, or_comm]
      · simp only [List.flatMap_cons, List.mem_append, ih, or_assoc]

/-- A value that is imported under its own name is bound beside what was bound before. -/
theorem mem_bindings_addNamed {source imported : Bytes} {b : ImportedName} :
    b ∈ (table.addNamed source imported [] false).bindings ↔
      b ∈ table.bindings ∨ b = ImportBinding.under source ⟨imported, imported⟩ := by
  refine mem_bindings_updateIn fun m hm ↦ ?_
  subst hm
  simp only [List.isEmpty_nil, if_true, ModuleImports.addNamed, ModuleImports.bindings,
    List.mem_append, List.mem_map, mem_insertSorted, List.mem_filter, Bool.false_eq_true, if_false]
  grind

/-- What is imported from one module stays as it is when another one is changed. -/
theorem mem_bindings_update {source : Bytes} {change : ModuleImports → ModuleImports}
    (hchange : ∀ m, (change m).source = m.source) {b : ImportedName} (hb : b.source ≠ source) :
    b ∈ (table.update source change).bindings ↔ b ∈ table.bindings := by
  have hmodule {m : ModuleImports} (hm : m.source = source) : b ∉ m.bindings ∧
      b ∉ (change m).bindings := by
    refine ⟨fun h ↦ hb ?_, fun h ↦ hb ?_⟩
    · exact (ModuleImports.source_of_mem_bindings h).trans hm
    · exact (ModuleImports.source_of_mem_bindings h).trans ((hchange m).trans hm)
  unfold update bindings
  generalize table.modules = modules
  induction modules with
  | nil => simp [updateIn, hmodule]
  | cons m modules ih =>
    rw [updateIn]
    split
    · next hsource => simp [hmodule (eq_of_beq hsource)]
    · split
      · simp [hmodule]
      · simp only [List.flatMap_cons, List.mem_append, ih]

/-! ### Clauses -/

/-- Two changes of one module are one change. -/
theorem update_update {source : Bytes} {change change' : ModuleImports → ModuleImports}
    (hchange : ∀ m, (change m).source = m.source) :
    (table.update source change).update source change' = table.update source (change' ∘ change) := by
  have hmodules (modules : List ModuleImports) :
      updateIn source change' (updateIn source change modules) =
        updateIn source (change' ∘ change) modules := by
    induction modules with
    | nil => simp [updateIn, hchange]
    | cons m modules ih =>
      simp only [updateIn]
      split
      · next hsource => simp [updateIn, hchange, hsource]
      · next hsource =>
        split
        · simp [updateIn, hchange]
        · next hbefore => simp [updateIn, hsource, hbefore, ih]
  exact congrArg ImportTable.mk (hmodules table.modules)

theorem foldl_addNamed_update {source : Bytes} {change : ModuleImports → ModuleImports}
    (hchange : ∀ m, (change m).source = m.source) (specifiers : List ImportSpecifier)
    (typeOnly : Bool) :
    specifiers.foldl (fun table s ↦
        table.addNamed source s.imported s.localName (typeOnly || s.isType))
        (table.update source change) =
      table.update source fun m ↦ (change m).addSpecifiers typeOnly specifiers := by
  induction specifiers generalizing change with
  | nil => rfl
  | cons s specifiers ih =>
    rw [List.foldl_cons, addNamed, update_update hchange, ih]
    · rfl
    · exact fun m ↦ (ModuleImports.addNamed_adds source _ _).source_eq _ |>.trans (hchange m)

theorem addNamespace_update {clause : ImportClause} {change : ModuleImports → ModuleImports}
    (hchange : ∀ m, (change m).source = m.source) :
    (if clause.namespaceName.isEmpty then table.update clause.source change
      else (table.update clause.source change).addNamespace clause.source clause.namespaceName) =
    table.update clause.source fun m ↦ (change m).addNamespace clause := by
  unfold ModuleImports.addNamespace
  split
  · rfl
  · exact update_update hchange

theorem addDefault_eq_update {clause : ImportClause} (h : ¬clause.defaultName.isEmpty = true) :
    (if clause.typeOnly then table.addTypeDefault clause.source clause.defaultName
      else table.addDefault clause.source clause.defaultName) =
    table.update clause.source (·.addDefault clause) := by
  simp only [ModuleImports.addDefault, h, Bool.false_eq_true, if_false]
  split <;> rfl

/-- A clause changes the imports of its own module alone. -/
theorem add_eq_update (clause : ImportClause) :
    table.add clause = table.update clause.source (·.add clause) := by
  have hnothing (m : ModuleImports) (hdefault : clause.defaultName.isEmpty = true) :
      m.addDefault clause = m := by
    rw [ModuleImports.addDefault, if_pos hdefault]
  by_cases hdefault : clause.defaultName.isEmpty = true
  · by_cases hname : clause.namespaceName.isEmpty = true
    · cases hspecifiers : clause.specifiers with
      | nil =>
        simp only [add, ImportClause.isSideEffect, hdefault, hname, hspecifiers, List.isEmpty_nil,
          Bool.and_self, if_true, addSideEffect]
        refine congrArg (table.update _) (funext fun m ↦ ?_)
        simp [ModuleImports.add, ModuleImports.addNamespace, ModuleImports.addSpecifiers, hnothing,
          hdefault, hname, hspecifiers]
      | cons s rest =>
        simp only [add, ImportClause.isSideEffect, hdefault, hname, hspecifiers, List.isEmpty_cons,
          Bool.and_false, Bool.false_eq_true, if_false, if_true, List.foldl_cons]
        rw [addNamed, foldl_addNamed_update (ModuleImports.addNamed_adds clause.source _ _).source_eq]
        simp [ModuleImports.add, ModuleImports.addNamespace, ModuleImports.addSpecifiers, hnothing,
          hdefault, hname, hspecifiers]
    · simp only [add, ImportClause.isSideEffect, hdefault, hname, Bool.and_false, Bool.false_and,
        Bool.false_eq_true, if_false, if_true]
      rw [addNamespace, foldl_addNamed_update]
      · simp [ModuleImports.add, ModuleImports.addNamespace, hnothing, hdefault, hname]
      · exact fun _ ↦ rfl
  · simp only [add, ImportClause.isSideEffect, hdefault, Bool.false_and, Bool.false_eq_true,
      if_false]
    rw [addDefault_eq_update hdefault, addNamespace_update, foldl_addNamed_update]
    · rfl
    all_goals simp

/-- A clause leaves alone what is imported from other modules. -/
theorem mem_bindings_add {clause : ImportClause} {b : ImportedName} (hb : b.source ≠ clause.source) :
    b ∈ (table.add clause).bindings ↔ b ∈ table.bindings := by
  rw [add_eq_update]
  exact mem_bindings_update (fun m ↦ m.add_source clause) hb

/-- A clause adds what it binds. -/
theorem add_gains (clause : ImportClause) : table.Gains clause.bindings (table.add clause) := by
  unfold add
  split
  · exact update_gains ⟨fun _ ↦ rfl, id, fun _ _ hb ↦ .inl hb⟩
  · have hdefault : table.Gains
        (ImportedName.unlessEmpty
          ⟨clause.source, if clause.typeOnly then .typeDefault else .default, clause.defaultName⟩)
        (if clause.defaultName.isEmpty then table
          else if clause.typeOnly then table.addTypeDefault clause.source clause.defaultName
          else table.addDefault clause.source clause.defaultName) := by
      refine .ite (fun _ ↦ .refl) fun _ ↦ .ite (fun htype ↦ ?_) fun htype ↦ ?_
      · rw [if_pos htype]
        exact update_gains (ModuleImports.addTypeDefault_adds _ _)
      · rw [if_neg htype]
        exact update_gains (ModuleImports.addDefault_adds _ _)
    refine (hdefault.trans ?_).trans (foldl_addNamed_gains _ _ _)
    refine .ite (fun _ ↦ .refl) fun hname ↦ ?_
    rw [ImportedName.unlessEmpty, if_neg hname]
    exact update_gains (ModuleImports.addNamespace_adds _ _)

end ImportTable

end SignalView
