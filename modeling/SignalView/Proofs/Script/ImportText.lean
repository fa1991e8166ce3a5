import Mathlib.Data.List.Perm.Basic
import SignalView.Proofs.Grammar.Imports
import SignalView.Proofs.Script.Imports

/-!
# The statements of an import table

The imports of a module are written as up to four kinds of statements: the default with the values,
one statement for each namespace, the default of the types, and the types. Each statement is the
text of a clause. Adding these clauses to an empty table gives the table again, since all of its
lists are sorted and no type is a value as well.
-/

namespace SignalView

/-! ## Names -/

theorem Sign.Written.isName {sign : Sign} (h : sign.Written) : Literal.IsName sign.value := by
  cases h with
  | name hname _ => exact hname
  | word w => exact Lexes.isName_spelling w

theorem IsBindingName.isName {name : Bytes} (h : IsBindingName name) : Literal.IsName name := by
  obtain ⟨kind, -, hwritten⟩ := h
  exact hwritten.isName

theorem IsBindingName.isEmpty_eq {name : Bytes} (h : IsBindingName name) : name.isEmpty = false :=
  List.isEmpty_eq_false_iff.mpr (Literal.ne_nil_of_startsName h.isName.starts)

theorem IsExportName.isEmpty_eq {name : Bytes} (h : IsExportName name) : name.isEmpty = false := by
  obtain ⟨kind, hwritten⟩ | ⟨value, rfl⟩ := h
  · exact List.isEmpty_eq_false_iff.mpr (Literal.ne_nil_of_startsName hwritten.isName.starts)
  · rfl

theorem IsImportPair.isEmpty_eq {imported localName : Bytes} (h : IsImportPair imported localName) :
    localName.isEmpty = false := by
  obtain rfl | hbinding := h.bound
  · exact h.exported.isEmpty_eq
  · exact hbinding.isEmpty_eq

abbrev ImportBinding.WellNamed (b : ImportBinding) : Prop := IsImportPair b.imported b.localName

def ImportBinding.specifier (b : ImportBinding) : ImportSpecifier :=
  { imported := b.imported, localName := b.localName }

/-! ## Texts -/

/-- A clause as a statement of its own; whether single names of its list are types is left out. -/
def ImportClause.text (clause : ImportClause) : Bytes :=
  let origin := Quoted.quoted clause.source ++ bytes ";\n"
  if clause.isSideEffect then bytes "import " ++ origin
  else
    let names := (if clause.defaultName.isEmpty then [] else [clause.defaultName]) ++
      (if clause.namespaceName.isEmpty then [] else [bytes "* as " ++ clause.namespaceName]) ++
      if clause.specifiers.isEmpty then []
      else [ModuleImports.inBraces (ModuleImports.bindingsText (bytes " as ")
        (clause.specifiers.map fun s ↦ ⟨s.imported, s.localName⟩))]
    bytes (if clause.typeOnly then "import type " else "import ") ++
      Bytes.join (bytes ", ") names ++ (bytes " from " ++ origin)

namespace ModuleImports

/-- The names of a module's imports are written as names. -/
structure WellNamed (m : ModuleImports) : Prop where
  defaultName : m.defaultName = [] ∨ IsBindingName m.defaultName
  namespaces : ∀ name ∈ m.namespaces, IsBindingName name
  values : ∀ b ∈ m.values, b.WellNamed
  types : ∀ b ∈ m.types, b.WellNamed
  typeDefault : m.typeDefault = [] ∨ IsBindingName m.typeDefault

/-- The statement of the default and the values. -/
def valueStatements (m : ModuleImports) : List ImportClause :=
  if m.defaultName.isEmpty && m.values.isEmpty then []
  else [{
    source := m.source, defaultName := m.defaultName
    specifiers := m.values.map (·.specifier) }]

def namespaceStatements (m : ModuleImports) : List ImportClause :=
  m.namespaces.map fun name ↦ { source := m.source, namespaceName := name }

def typeDefaultStatements (m : ModuleImports) : List ImportClause :=
  if m.typeDefault.isEmpty then []
  else [{ source := m.source, defaultName := m.typeDefault, typeOnly := true }]

def typeStatements (m : ModuleImports) : List ImportClause :=
  if m.types.isEmpty then []
  else [{ source := m.source, specifiers := m.types.map (·.specifier), typeOnly := true }]

/-- The statements for a module. -/
def statements (m : ModuleImports) : List ImportClause :=
  if m.isSideEffectOnly then [{ source := m.source }]
  else
    m.valueStatements ++ m.namespaceStatements ++ m.typeDefaultStatements ++ m.typeStatements

variable {m : ModuleImports} {clause : ImportClause}

theorem map_specifier (bindings : List ImportBinding) :
    (bindings.map (·.specifier)).map (fun s ↦ (⟨s.imported, s.localName⟩ : ImportBinding)) =
      bindings := by
  rw [List.map_map]
  exact List.map_id bindings

/-- What follows the names of a statement. -/
def origin (m : ModuleImports) : Bytes := bytes " from " ++ Quoted.quoted m.source ++ bytes ";\n"

/-- The names of the statement of the default and the values. -/
def valueNames (m : ModuleImports) : List Bytes :=
  (if m.defaultName.isEmpty then [] else [m.defaultName]) ++
    if m.values.isEmpty then [] else [inBraces (bindingsText (bytes " as ") m.values)]

theorem valueStatements_text : m.valueStatements.flatMap (·.text) =
    if m.valueNames.isEmpty then []
    else bytes "import " ++ Bytes.join (bytes ", ") m.valueNames ++ m.origin := by
  have hlist := map_specifier m.values
  cases hdefault : m.defaultName.isEmpty <;> cases hvalues : m.values.isEmpty
  case true.true => simp only [valueStatements, valueNames, hdefault, hvalues]; rfl
  all_goals
    simp only [valueStatements, valueNames, hdefault, hvalues, ImportClause.text, hlist,
      ImportClause.isSideEffect, List.isEmpty_map, origin, Bool.and_false,
      Bool.and_true, Bool.false_eq_true, List.append_assoc, List.isEmpty_nil,
      List.isEmpty_cons, List.flatMap_cons, List.flatMap_nil, List.append_nil, List.nil_append,
      List.cons_append, if_true, if_false]

theorem namespaceStatements_text (h : ∀ name ∈ m.namespaces, IsBindingName name) :
    m.namespaceStatements.flatMap (·.text) =
      m.namespaces.flatMap fun name ↦ bytes "import * as " ++ name ++ m.origin := by
  rw [namespaceStatements, List.flatMap_map]
  refine List.flatMap_congr fun name hname ↦ ?_
  have hstar : bytes "import * as " = bytes "import " ++ bytes "* as " := rfl
  simp [ImportClause.text, ImportClause.isSideEffect, (h name hname).isEmpty_eq, Bytes.join,
    hstar, origin]

theorem typeImports_eq :
    m.typeImports m.origin = (m.typeDefaultStatements ++ m.typeStatements).flatMap (·.text) := by
  rw [typeImports, List.flatMap_append]
  have hlist := map_specifier m.types
  refine congrArg₂ _ ?_ ?_
  · cases hdefault : m.typeDefault.isEmpty
    case true => simp only [typeDefaultStatements, hdefault]; rfl
    simp only [typeDefaultStatements, hdefault, ImportClause.text, ImportClause.isSideEffect,
      Bool.false_and, Bool.false_eq_true, List.isEmpty_nil, List.append_nil, List.flatMap_cons,
      List.flatMap_nil, if_true, if_false, origin, List.append_assoc, Bytes.join,
      List.intercalate_singleton]
  · cases htypes : m.types.isEmpty
    case true => simp only [typeStatements, htypes]; rfl
    simp only [typeStatements, htypes, ImportClause.text, ImportClause.isSideEffect, hlist,
      List.isEmpty_map, Bool.and_false, Bool.false_eq_true, List.isEmpty_nil, List.nil_append,
      List.flatMap_cons, List.flatMap_nil, List.append_nil, if_true, if_false, origin,
      List.append_assoc, Bytes.join, List.intercalate_singleton]

/-- The text for a module that binds names is that of its statements. -/
theorem esmText_eq (h : ∀ name ∈ m.namespaces, IsBindingName name)
    (hnames : m.isSideEffectOnly = false) : m.esmText = m.statements.flatMap (·.text) := by
  rw [statements, hnames, if_neg Bool.false_ne_true, List.append_assoc, List.flatMap_append,
    List.flatMap_append, valueStatements_text, namespaceStatements_text h, ← typeImports_eq]
  rfl

/-! ## Reading the statements back -/

section Specifiers

variable {bindings : List ImportBinding}

/-- The values of a sorted list are added one behind the other. -/
theorem addSpecifiers_values (htypes : m.types = [])
    (hsorted : (m.values ++ bindings).Pairwise (ImportBinding.before · · = true))
    (hnames : ∀ b ∈ bindings, b.localName.isEmpty = false) :
    m.addSpecifiers false (bindings.map (·.specifier)) =
      { m with values := m.values ++ bindings } := by
  induction bindings generalizing m with
  | nil => simp [addSpecifiers]
  | cons b bindings ih =>
    obtain ⟨hb, hnames⟩ := List.forall_mem_cons.mp hnames
    have hvalues : insertSorted ImportBinding.before b m.values = m.values ++ [b] := by
      refine ImportBinding.before_strictlyOrders.insertSorted_concat fun c hc ↦ ?_
      exact (List.pairwise_append.mp hsorted).2.2 c hc b List.mem_cons_self
    have hadd : m.addNamed b false = { m with values := m.values ++ [b] } := by
      simp only [addNamed, htypes, hvalues, Bool.false_eq_true, if_false, List.filter_nil]
    have hstep : m.addSpecifiers false ((b :: bindings).map (·.specifier)) =
        (m.addNamed b false).addSpecifiers false (bindings.map (·.specifier)) := by
      simp only [addSpecifiers, List.map_cons, List.foldl_cons, ImportBinding.specifier, hb,
        Bool.false_eq_true, if_false, Bool.or_false]
    rw [hstep, hadd, ih (by exact htypes) (by simpa using hsorted) hnames, List.append_assoc]
    rfl

/-- The types of a sorted list are added one behind the other, when they are no values. -/
theorem addSpecifiers_types
    (hsorted : (m.types ++ bindings).Pairwise (ImportBinding.before · · = true))
    (hnames : ∀ b ∈ bindings, b.localName.isEmpty = false) (hapart : ∀ b ∈ bindings, b ∉ m.values) :
    m.addSpecifiers true (bindings.map (·.specifier)) =
      { m with types := m.types ++ bindings } := by
  induction bindings generalizing m with
  | nil => simp [addSpecifiers]
  | cons b bindings ih =>
    obtain ⟨hb, hnames⟩ := List.forall_mem_cons.mp hnames
    obtain ⟨hnew, hapart⟩ := List.forall_mem_cons.mp hapart
    have htypes : insertSorted ImportBinding.before b m.types = m.types ++ [b] := by
      refine ImportBinding.before_strictlyOrders.insertSorted_concat fun c hc ↦ ?_
      exact (List.pairwise_append.mp hsorted).2.2 c hc b List.mem_cons_self
    have hadd : m.addNamed b true = { m with types := m.types ++ [b] } := by
      have hcontains : m.values.contains b = false := by simpa using hnew
      simp only [addNamed, hcontains, htypes, if_true, Bool.false_eq_true, if_false]
    have hstep : m.addSpecifiers true ((b :: bindings).map (·.specifier)) =
        (m.addNamed b true).addSpecifiers true (bindings.map (·.specifier)) := by
      simp only [addSpecifiers, List.map_cons, List.foldl_cons, ImportBinding.specifier, hb,
        Bool.false_eq_true, if_false, Bool.true_or]
    rw [hstep, hadd, ih (m := { m with types := m.types ++ [b] }) (by simpa using hsorted) hnames
      hapart, List.append_assoc]
    rfl

end Specifiers

theorem addDefault_of_nil (h : clause.defaultName = []) : m.addDefault clause = m := by
  rw [addDefault, h]
  rfl

theorem addNamespace_of_nil (h : clause.namespaceName = []) : m.addNamespace clause = m := by
  rw [addNamespace, h]
  rfl

/-- The statement of the default and the values, read in front of all others. -/
theorem foldl_valueStatements (h : m.Sorted) (hnames : m.WellNamed) :
    m.valueStatements.foldl add { source := m.source } =
      { source := m.source, defaultName := m.defaultName, values := m.values } := by
  have hvalues : addSpecifiers { source := m.source, defaultName := m.defaultName } false
      (m.values.map (·.specifier)) =
        { source := m.source, defaultName := m.defaultName, values := m.values } :=
    addSpecifiers_values rfl (by exact h.values) fun b hb ↦ (hnames.values b hb).isEmpty_eq
  unfold valueStatements
  split
  · next hnone =>
    obtain ⟨hdefault, hvalues⟩ := Bool.and_eq_true_iff.mp hnone
    rw [List.isEmpty_iff.mp hdefault, List.isEmpty_iff.mp hvalues]
    rfl
  · rw [List.foldl_cons, List.foldl_nil, add, addNamespace_of_nil rfl, ← hvalues, addDefault]
    cases hdefault : m.defaultName <;> rfl

/-- The statements of the namespaces. -/
theorem foldl_namespaceStatements {source : Bytes} {namespaces : List Bytes}
    (hsorted : (m.namespaces ++ namespaces).Pairwise (Bytes.before · · = true))
    (hnames : ∀ name ∈ namespaces, IsBindingName name) :
    (namespaces.map fun name ↦
        ({ source := source, namespaceName := name } : ImportClause)).foldl add m =
      { m with namespaces := m.namespaces ++ namespaces } := by
  induction namespaces generalizing m with
  | nil => simp
  | cons name namespaces ih =>
    obtain ⟨hname, hnames⟩ := List.forall_mem_cons.mp hnames
    have hspaces : insertSorted Bytes.before name m.namespaces = m.namespaces ++ [name] := by
      refine Bytes.before_strictlyOrders.insertSorted_concat fun other hother ↦ ?_
      exact (List.pairwise_append.mp hsorted).2.2 other hother name List.mem_cons_self
    have hadd : m.add { source := source, namespaceName := name } =
        { m with namespaces := m.namespaces ++ [name] } := by
      rw [add, addDefault_of_nil rfl, addNamespace, hname.isEmpty_eq, if_neg Bool.false_ne_true,
        hspaces]
      rfl
    rw [List.map_cons, List.foldl_cons, hadd, ih (m := { m with namespaces := _ })
      (by simpa using hsorted) hnames, List.append_assoc]
    rfl

/-- Adding the statements of a module gives its imports again. -/
theorem foldl_statements (h : m.Sorted) (hnames : m.WellNamed) :
    m.statements.foldl add { source := m.source } = m := by
  unfold statements
  split
  · next hnone =>
    simp only [isSideEffectOnly, Bool.and_eq_true, List.isEmpty_iff] at hnone
    obtain ⟨⟨⟨⟨hdefault, hnamespaces⟩, hvalues⟩, htypes⟩, htypeDefault⟩ := hnone
    cases m
    subst hdefault hnamespaces hvalues htypes htypeDefault
    rfl
  · have hspaces : m.namespaceStatements.foldl add
          { source := m.source, defaultName := m.defaultName, values := m.values } =
        { m with types := [], typeDefault := [] } :=
      foldl_namespaceStatements (by exact h.namespaces) hnames.namespaces
    have htypeDefault :
        m.typeDefaultStatements.foldl add { m with types := [], typeDefault := [] } =
          { m with types := [] } := by
      unfold typeDefaultStatements
      split
      · next hnone => rw [List.isEmpty_iff.mp hnone]; rfl
      · next hsome =>
        rw [List.foldl_cons, List.foldl_nil, add, addNamespace_of_nil rfl, addDefault, if_neg hsome]
        rfl
    have htypes : m.typeStatements.foldl add { m with types := [] } = m := by
      unfold typeStatements
      split
      · next hnone => rw [← List.isEmpty_iff.mp hnone]; rfl
      · rw [List.foldl_cons, List.foldl_nil, add, addNamespace_of_nil rfl, addDefault_of_nil rfl]
        exact addSpecifiers_types (m := { m with types := [] }) (by exact h.types)
          (fun b hb ↦ (hnames.types b hb).isEmpty_eq) fun b hb hvalue ↦ h.apart b hvalue hb
    rw [List.foldl_append, List.foldl_append, List.foldl_append, foldl_valueStatements h hnames,
      hspaces, htypeDefault, htypes]

/-! ## Names that are kept -/

theorem wellNamed_empty (source : Bytes) : WellNamed { source := source } :=
  ⟨.inl rfl, by simp, by simp, by simp, .inl rfl⟩

theorem WellNamed.addDefault (h : m.WellNamed)
    (hname : clause.defaultName = [] ∨ IsBindingName clause.defaultName) :
    (m.addDefault clause).WellNamed := by
  unfold ModuleImports.addDefault
  split
  · exact h
  · split
    · exact ⟨h.defaultName, h.namespaces, h.values, h.types, hname⟩
    · exact ⟨hname, h.namespaces, h.values, h.types, h.typeDefault⟩

theorem WellNamed.addNamespace (h : m.WellNamed)
    (hname : clause.namespaceName = [] ∨ IsBindingName clause.namespaceName) :
    (m.addNamespace clause).WellNamed := by
  unfold ModuleImports.addNamespace
  split
  · exact h
  · next hsome =>
    refine ⟨h.defaultName, fun name hmem ↦ ?_, h.values, h.types, h.typeDefault⟩
    obtain rfl | hmem := mem_insertSorted.mp hmem
    · exact hname.resolve_left fun hnil ↦ hsome (by rw [hnil]; rfl)
    · exact h.namespaces name hmem

theorem WellNamed.addNamed {b : ImportBinding} (h : m.WellNamed) (hb : b.WellNamed)
    (isType : Bool) : (m.addNamed b isType).WellNamed := by
  have hinsert {bindings : List ImportBinding} (hbindings : ∀ c ∈ bindings, c.WellNamed) :
      ∀ c ∈ insertSorted ImportBinding.before b bindings, c.WellNamed := by
    intro c hc
    obtain rfl | hc := mem_insertSorted.mp hc
    · exact hb
    · exact hbindings c hc
  unfold ModuleImports.addNamed
  split
  · split
    · exact h
    · exact ⟨h.defaultName, h.namespaces, h.values, hinsert h.types, h.typeDefault⟩
  · exact ⟨h.defaultName, h.namespaces, hinsert h.values,
      fun c hc ↦ h.types c (List.mem_filter.mp hc).1, h.typeDefault⟩

theorem WellNamed.addSpecifiers {specifiers : List ImportSpecifier} (h : m.WellNamed)
    (hspecifiers : ∀ s ∈ specifiers, s.WellNamed) (typeOnly : Bool) :
    (m.addSpecifiers typeOnly specifiers).WellNamed := by
  induction specifiers generalizing m with
  | nil => exact h
  | cons s specifiers ih =>
    obtain ⟨hs, hspecifiers⟩ := List.forall_mem_cons.mp hspecifiers
    refine ih (h.addNamed ?_ _) hspecifiers
    rwa [hs.isEmpty_eq, if_neg Bool.false_ne_true]

theorem WellNamed.add (h : m.WellNamed) (hclause : clause.WellNamed) : (m.add clause).WellNamed :=
  ((h.addDefault hclause.defaultName).addNamespace hclause.namespaceName).addSpecifiers
    hclause.specifiers _

/-- What is imported by some of the statements is imported from the module. -/
theorem source_of_mem_statements (h : clause ∈ m.statements) : clause.source = m.source := by
  unfold statements at h
  split at h
  · rw [List.mem_singleton.mp h]
  · simp only [valueStatements, namespaceStatements, typeDefaultStatements, typeStatements,
      List.mem_append, List.mem_ite_nil_left, List.mem_singleton, List.mem_map] at h
    rcases h with ((⟨-, rfl⟩ | ⟨_, -, rfl⟩) | ⟨-, rfl⟩) | ⟨-, rfl⟩ <;> rfl

theorem statements_ne_nil : m.statements ≠ [] := by
  unfold statements
  split
  · simp
  · next hnames =>
    intro hnil
    simp only [List.append_eq_nil_iff, valueStatements, namespaceStatements, typeDefaultStatements,
      typeStatements, ite_eq_left_iff, List.cons_ne_nil, imp_false, not_not, List.map_eq_nil_iff,
      Bool.and_eq_true, List.isEmpty_iff] at hnil
    exact hnames (by simp [isSideEffectOnly, hnil])

end ModuleImports

namespace ImportTable

/-- The table that some clauses make, one after the other. -/
def ofClauses (clauses : List ImportClause) : ImportTable := clauses.foldl add {}

/-- The statements of the block: the modules that are imported for their effects come first. -/
def statements (table : ImportTable) : List ImportClause :=
  (table.modules.filter (·.isSideEffectOnly) ++
    table.modules.filter (!·.isSideEffectOnly)).flatMap (·.statements)

def WellNamed (table : ImportTable) : Prop := ∀ m ∈ table.modules, m.WellNamed

variable {table : ImportTable} {clauses : List ImportClause}

theorem WellNamed.add {clause : ImportClause} (h : table.WellNamed) (hclause : clause.WellNamed) :
    (table.add clause).WellNamed := by
  intro m hm
  rw [add_eq_update] at hm
  obtain hm | ⟨m', hm' | rfl, -, rfl⟩ := mem_updateIn hm
  · exact h m hm
  · exact (h m' hm').add hclause
  · exact (ModuleImports.wellNamed_empty _).add hclause

theorem wellNamed_ofClauses (h : ∀ clause ∈ clauses, clause.WellNamed) :
    (ofClauses clauses).WellNamed := by
  refine List.foldlRecOn clauses add (motive := WellNamed) (by simp [WellNamed]) ?_
  exact fun table htable clause hclause ↦ htable.add (h clause hclause)

theorem sorted_ofClauses : (ofClauses clauses).Sorted := by
  refine List.foldlRecOn clauses add (motive := Sorted) sorted_empty ?_
  exact fun table htable clause _ ↦ (add_gains clause).sorted htable

/-- The import block is the text of its statements. -/
theorem generate_esm_eq (h : table.WellNamed) :
    table.generate .esm = table.statements.flatMap (·.text) := by
  have heffects (m : ModuleImports) (hm : m ∈ table.modules.filter (·.isSideEffectOnly)) :
      sideEffectText .esm m.source = m.statements.flatMap (·.text) := by
    rw [ModuleImports.statements, (List.mem_filter.mp hm).2, if_pos rfl]
    simp only [List.flatMap_cons, List.flatMap_nil, List.append_nil, ImportClause.text]
    exact List.append_assoc ..
  have hnames (m : ModuleImports) (hm : m ∈ table.modules.filter (!·.isSideEffectOnly)) :
      moduleText .esm m = m.statements.flatMap (·.text) := by
    obtain ⟨hm, hnames⟩ := List.mem_filter.mp hm
    exact ModuleImports.esmText_eq (h m hm).namespaces (by simpa using hnames)
  rw [generate, List.flatMap_congr heffects, List.flatMap_congr hnames, statements,
    List.flatMap_append, List.flatMap_append, List.flatMap_assoc, List.flatMap_assoc]

/-! ## Adding the statements -/

/-- Clauses of one module change its imports alone. -/
theorem foldl_add_update {source : Bytes} {change : ModuleImports → ModuleImports}
    (hclauses : ∀ clause ∈ clauses, clause.source = source)
    (hchange : ∀ m, (change m).source = m.source) :
    clauses.foldl add (table.update source change) =
      table.update source fun m ↦ clauses.foldl ModuleImports.add (change m) := by
  induction clauses generalizing change with
  | nil => rfl
  | cons clause clauses ih =>
    obtain ⟨rfl, hclauses⟩ := List.forall_mem_cons.mp hclauses
    rw [List.foldl_cons, add_eq_update, update_update hchange, ih hclauses]
    · rfl
    · exact fun m ↦ (ModuleImports.add_source _ clause).trans (hchange m)

/-- A module that is new is added to the others. -/
theorem updateIn_perm {source : Bytes} {change : ModuleImports → ModuleImports}
    {modules : List ModuleImports} (h : ∀ m ∈ modules, m.source ≠ source) :
    (updateIn source change modules).Perm (change { source := source } :: modules) := by
  induction modules with
  | nil => exact .refl _
  | cons m modules ih =>
    obtain ⟨hm, hmodules⟩ := List.forall_mem_cons.mp h
    rw [updateIn, beq_false_of_ne hm, if_neg Bool.false_ne_true]
    split
    · exact .refl _
    · exact ((ih hmodules).cons m).trans (.swap ..)

/-- The statements of a module that is new add its imports. -/
theorem foldl_add_statements {m : ModuleImports} (hm : m.Sorted) (hnames : m.WellNamed)
    (hnew : ∀ other ∈ table.modules, other.source ≠ m.source) :
    (m.statements.foldl add table).modules.Perm (m :: table.modules) := by
  obtain ⟨clause, clauses, hstatements⟩ := List.exists_cons_of_ne_nil m.statements_ne_nil
  have hsource : ∀ clause ∈ m.statements, clause.source = m.source :=
    fun _ ↦ ModuleImports.source_of_mem_statements
  have hfold : m.statements.foldl add table =
      table.update m.source fun other ↦ m.statements.foldl ModuleImports.add other := by
    rw [hstatements] at hsource ⊢
    obtain ⟨hclause, hclauses⟩ := List.forall_mem_cons.mp hsource
    rw [List.foldl_cons, add_eq_update, hclause, foldl_add_update hclauses]
    · rfl
    · exact fun other ↦ ModuleImports.add_source other clause
  have hperm : (updateIn m.source (m.statements.foldl ModuleImports.add ·) table.modules).Perm
      (m.statements.foldl ModuleImports.add { source := m.source } :: table.modules) :=
    updateIn_perm hnew
  rw [ModuleImports.foldl_statements hm hnames] at hperm
  rw [hfold]
  exact hperm

/-- Adding the statements of modules adds these modules. -/
theorem foldl_add_modules {modules : List ModuleImports}
    (hmodules : ∀ m ∈ modules, m.Sorted ∧ m.WellNamed)
    (hnew : (table.modules ++ modules).Pairwise (·.source ≠ ·.source)) :
    ((modules.flatMap (·.statements)).foldl add table).modules.Perm (table.modules ++ modules) := by
  induction modules generalizing table with
  | nil => simp
  | cons m modules ih =>
    obtain ⟨⟨hm, hnames⟩, hmodules⟩ := List.forall_mem_cons.mp hmodules
    rw [List.flatMap_cons, List.foldl_append]
    have hothers : ∀ other ∈ table.modules, other.source ≠ m.source :=
      fun other hother ↦ (List.pairwise_append.mp hnew).2.2 other hother m List.mem_cons_self
    have hadded := foldl_add_statements hm hnames hothers
    have hshifted : (table.modules ++ m :: modules).Perm (m :: table.modules ++ modules) :=
      List.perm_middle
    have hall := hadded.append_right modules
    refine (ih hmodules ?_).trans (hall.trans hshifted.symm)
    exact (hall.symm.pairwise_iff fun hne ↦ hne.symm).mp
      ((hshifted.pairwise_iff fun hne ↦ hne.symm).mp hnew)

theorem mem_filter_append_filter {m : ModuleImports} :
    m ∈ table.modules.filter (·.isSideEffectOnly) ++ table.modules.filter (!·.isSideEffectOnly) ↔
      m ∈ table.modules :=
  (List.filter_append_perm (·.isSideEffectOnly) table.modules).mem_iff

/-- The statements of a table make the table again. -/
theorem ofClauses_statements (h : table.Sorted) (hnames : table.WellNamed) :
    ofClauses table.statements = table := by
  have hperm := List.filter_append_perm (·.isSideEffectOnly) table.modules
  have hmodules : (ofClauses table.statements).modules.Perm table.modules := by
    refine (foldl_add_modules (fun m hm ↦ ?_) ?_).trans hperm
    · have hm := mem_filter_append_filter.mp hm
      exact ⟨h.modules m hm, hnames m hm⟩
    · exact (hperm.pairwise_iff fun hne ↦ hne.symm).mpr h.sources_ne
  exact sorted_ofClauses.eq_of_perm h hmodules

end ImportTable

end SignalView
