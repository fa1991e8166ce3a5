import SignalView.Proofs.Grammar.ImportForms

/-!
# Reading the import block

The import block of a table is a program of import declarations. Reading it and adding these
declarations to an empty table gives the table again, unless the default of some values is named
`from`: in front of a list this name is taken for the word.
-/

namespace SignalView

open Parse

/-- In strict mode a text is read as a program of import declarations, those of some clauses. -/
def ReadsAsImports (text : Bytes) (clauses : List ImportClause) : Prop :=
  ∃ tokens, (tokenize {} text).result = .ok tokens ∧
    ∀ options : Program.Options, 0 < options.maxDepth → ∃ range body,
      Program.parse options tokens = .ok ⟨.surface range (.program body), []⟩ ∧
        List.Forall₂ (fun node clause ↦ ∃ range, node = .plain range (.imports clause)) body clauses

/-! ## Statements -/

section

variable {context : ParseContext} {cursor : TokenCursor} {rest : List Sign} {level : Nat}

/-- The tokens of a clause are read as a statement. -/
theorem importStatement_gives {clause : ImportClause} (h : clause.Readable)
    (hfinal : context.final.kind = .eof) (hrounds : clause.specifiers.length < level)
    (hdepth : (context.depth : Int) < context.maxDepth)
    (hsigns : cursor.signs = clause.signs ++ rest) :
    (grammar (level + 1)).statement.Gives context cursor
      (fun node ↦ ∃ range, node = .plain range (.imports clause)) rest := by
  change (grammar level).statementStep.Gives context cursor _ rest
  refine Gives.nested ?_ hdepth
  have hfinal' : ({ context with depth := context.depth + 1 } : ParseContext).final.kind = .eof :=
    hfinal
  generalize ({ context with depth := context.depth + 1 } : ParseContext) = inner at hfinal' ⊢
  obtain ⟨node, behind, hrun, hnode, hbehind⟩ : (grammar level).importDeclaration.Gives inner cursor
      (fun node ↦ ∃ range, node = .plain range (.imports clause)) rest :=
    Grammar.importDeclaration_gives h hfinal' (by rwa [grammar_rounds]) hsigns
  refine ⟨node, behind, ?_, hnode, hbehind⟩
  obtain ⟨more, hclause, hmore⟩ := Grammar.signs_eq_cons_import h
  have hhead : headKind cursor.signs = .word .import_ := by rw [hsigns, hclause]; rfl
  have hahead (m : Mark) (hm : .mark m ∈ [.mark .openParen, TokenKind.mark .dot]) :
      markAhead 1 m inner cursor = .ok false cursor := by
    refine congrArg (ParseOutcome.ok · cursor) (beq_false_of_ne ?_)
    rw [peek_kind hfinal' 1, hsigns, hclause]
    rintro hkind
    exact hmore rest (hkind ▸ hm)
  rw [bind_of_ok current_eq, current_kind hfinal', hhead]
  change (do if (← markAhead 1 .openParen) || (← markAhead 1 .dot) then
      (grammar level).expressionStatement else (grammar level).importDeclaration : Parse Node) inner
        cursor = _
  rw [bind_of_ok (hahead .openParen (by simp)), bind_of_ok (hahead .dot (by simp))]
  exact hrun

/-- The tokens of some clauses are read statement by statement. -/
theorem importStatements_eq {clauses : List ImportClause}
    (h : ∀ clause ∈ clauses, clause.Readable ∧ clause.specifiers.length < level)
    (hfinal : context.final.kind = .eof) (hdepth : (context.depth : Int) < context.maxDepth)
    (options : Program.Options) {rounds : Nat} (hrounds : clauses.length ≤ rounds)
    {progress : Program.Progress}
    (hsigns : progress.cursor.signs = clauses.flatMap (·.signs)) :
    ∃ nodes cursor, Program.statements (grammar (level + 1)).statement options context rounds
        progress = .ok ⟨progress.body ++ nodes, progress.errors, cursor⟩ ∧
      List.Forall₂ (fun node clause ↦ ∃ range, node = .plain range (.imports clause)) nodes
        clauses := by
  induction clauses generalizing rounds progress with
  | nil =>
    have hempty : progress.cursor.after = [] := List.map_eq_nil_iff.mp hsigns
    refine ⟨[], progress.cursor, ?_, .nil⟩
    rw [List.append_nil]
    cases rounds with
    | zero => rfl
    | succ rounds => rw [Program.statements, if_pos (by rw [hempty]; rfl)]
  | cons clause clauses ih =>
    obtain ⟨⟨hclause, hlist⟩, hclauses⟩ := List.forall_mem_cons.mp h
    obtain ⟨rounds, rfl⟩ : ∃ r, rounds = r + 1 := ⟨rounds - 1, by simp at hrounds; omega⟩
    have hne : ¬progress.cursor.after.isEmpty = true := by
      intro hempty
      rw [TokenCursor.signs, List.isEmpty_iff.mp hempty] at hsigns
      obtain ⟨more, hmore, -⟩ := Grammar.signs_eq_cons_import hclause
      rw [List.flatMap_cons, hmore] at hsigns
      cases hsigns
    obtain ⟨node, behind, hrun, ⟨range, rfl⟩, hbehind⟩ :
        (grammar (level + 1)).statement.Gives context progress.cursor _ _ :=
      importStatement_gives hclause hfinal hlist hdepth hsigns
    obtain ⟨nodes, last, hstatements, hnodes⟩ := @ih hclauses rounds (by simpa using hrounds)
      ⟨progress.body ++ [.plain range (.imports clause)], progress.errors, behind⟩ hbehind
    refine ⟨.plain range (.imports clause) :: nodes, last, ?_, .cons ⟨range, rfl⟩ hnodes⟩
    rw [Program.statements, if_neg hne, hrun]
    dsimp only
    rw [hstatements, List.append_assoc]
    rfl

end

/-! ## Programs -/

theorem length_le_intercalate {α : Type} (separator : List α) {parts : List (List α)}
    (h : ∀ part ∈ parts, part ≠ []) : parts.length ≤ (separator.intercalate parts).length := by
  induction parts with
  | nil => simp
  | cons part parts ih =>
    obtain ⟨hpart, hparts⟩ := List.forall_mem_cons.mp h
    have hpos := List.length_pos_iff.mpr hpart
    have hrest := ih hparts
    cases parts with
    | nil =>
      rw [List.intercalate_singleton]
      exact hpos
    | cons next parts =>
      rw [List.intercalate_cons_cons, List.length_append, List.length_append, List.length_cons]
      omega

/-- A list has no more bindings than tokens. -/
theorem ImportClause.Readable.length_specifiers {clause : ImportClause} (h : clause.Readable) :
    clause.specifiers.length ≤ clause.signs.length := by
  by_cases hlist : clause.specifiers = []
  · rw [hlist]
    exact Nat.zero_le _
  · have hempty : clause.specifiers.isEmpty = false := List.isEmpty_eq_false_iff.mpr hlist
    have hnamespace : clause.namespaceName.isEmpty = true :=
      List.isEmpty_iff.mpr (h.single.resolve_right hlist)
    have heffect : clause.isSideEffect = false := by
      rw [ImportClause.isSideEffect, hempty, Bool.and_false]
    have hbindings : clause.specifiers.length ≤
        ([Mark.comma.sign].intercalate (clause.listed.map (·.signs))).length := by
      have hparts : ∀ part ∈ clause.listed.map (·.signs), part ≠ [] := by
        refine List.forall_mem_map.mpr fun b _ ↦ ?_
        unfold ImportBinding.signs
        split <;> simp
      have hcount := length_le_intercalate [Mark.comma.sign] hparts
      rwa [List.length_map, ImportClause.listed, List.length_map] at hcount
    have hinner : clause.innerSigns =
        Mark.openBrace.sign :: ([Mark.comma.sign].intercalate (clause.listed.map (·.signs)) ++
          [Mark.closeBrace.sign]) := by
      rw [ImportClause.innerSigns, if_pos hnamespace]
    have hnames : clause.innerSigns.length ≤ clause.nameSigns.length := by
      rw [ImportClause.nameSigns, ImportClause.hasNames, hempty, Bool.not_false, Bool.or_true,
        if_pos rfl]
      split
      · exact Nat.le_refl _
      · simp only [List.length_cons]
        omega
    rw [hinner, List.length_cons, List.length_append] at hnames
    rw [ImportClause.signs, heffect, if_neg Bool.false_ne_true,
      ImportClause.intercalate_parts h.single heffect, List.length_cons, List.length_append,
      List.length_append]
    omega

theorem length_le_flatMap_signs {clauses : List ImportClause}
    (h : ∀ clause ∈ clauses, clause.Readable) :
    clauses.length ≤ (clauses.flatMap (·.signs)).length := by
  induction clauses with
  | nil => exact Nat.zero_le _
  | cons clause clauses ih =>
    obtain ⟨hclause, hclauses⟩ := List.forall_mem_cons.mp h
    obtain ⟨more, hmore, -⟩ := Grammar.signs_eq_cons_import hclause
    have hrest := ih hclauses
    rw [List.flatMap_cons, List.length_append, List.length_cons, hmore, List.length_cons]
    omega

/-- The texts of some clauses are read as these clauses. -/
theorem readsAsImports_text {clauses : List ImportClause}
    (h : ∀ clause ∈ clauses, clause.Readable) :
    ReadsAsImports (clauses.flatMap (·.text)) clauses := by
  obtain ⟨last, hcuts, -⟩ : ∃ last, BlockCuts [] none 0 (clauses.flatMap (·.text))
      (clauses.flatMap (·.signs)) last 0 ∧ isDot last = false :=
    IsPiece.statements (fun clause hclause ↦ (h clause hclause).wellNamed) rfl (.nil _)
  obtain ⟨front, final, htokens, hfinal, hsigns⟩ := tokenize_of_blockCuts hcuts {}
  refine ⟨front ++ [final], htokens, fun options hdepth ↦ ?_⟩
  have hlength : front.length = (clauses.flatMap (·.signs)).length := by
    rw [← hsigns, List.length_map]
  obtain ⟨level, hlevel⟩ : ∃ l, levelsPerToken * (front.length + 1) = l + 1 :=
    ⟨levelsPerToken * (front.length + 1) - 1, by simp only [levelsPerToken]; omega⟩
  have hlists : ∀ clause ∈ clauses, clause.Readable ∧ clause.specifiers.length < level := by
    intro clause hclause
    have hpart : clause.signs.length ≤ (clauses.flatMap (·.signs)).length := by
      rw [List.flatMap_def]
      exact (List.sublist_flatten_of_mem (List.mem_map_of_mem hclause)).length_le
    have hlist := (h clause hclause).length_specifiers
    simp only [levelsPerToken] at hlevel
    exact ⟨h clause hclause, by omega⟩
  have hcount := length_le_flatMap_signs h
  obtain ⟨nodes, cursor, hstatements, hnodes⟩ :=
    @importStatements_eq { final := final, maxDepth := options.maxDepth } level clauses hlists
      hfinal (by simpa using hdepth) options (front.length + 1) (by omega)
      { cursor := { after := front } } hsigns
  simp only [Program.parse, Program.splitFinal_concat hfinal, hlevel, hstatements]
  exact ⟨_, nodes, rfl, hnodes⟩

/-- A clause is read from its own text. -/
theorem ImportClause.Readable.isRead {clause : ImportClause} (h : clause.Readable) :
    clause.IsRead := by
  obtain ⟨last, hcuts, -⟩ : ∃ last, BlockCuts [] none 0 clause.text clause.signs last 0 ∧
      isDot last = false := ImportClause.isPiece h.wellNamed rfl (.nil _)
  obtain ⟨front, final, htokens, hfinal, hsigns⟩ := tokenize_of_blockCuts hcuts {}
  obtain ⟨node, stop, hrun, ⟨range, rfl⟩, -⟩ :
      (grammar (clause.specifiers.length + 1)).importDeclaration.Gives
        { final := final, maxDepth := 0 } { after := front }
        (fun node ↦ ∃ range, node = .plain range (.imports clause)) [] := by
    refine Grammar.importDeclaration_gives h hfinal ?_ ?_
    · rw [grammar_rounds]
      exact Nat.lt_succ_self _
    · rw [List.append_nil]
      exact hsigns
  refine ⟨{}, clause.text, front ++ [final], _, _, _, stop, range, htokens, ?_, hrun⟩
  rw [Program.splitFinal_concat hfinal]
  rfl

/-! ## Tables -/

namespace ImportTable

variable {table : ImportTable} {clauses : List ImportClause}

theorem readable_of_mem_statements {m : ModuleImports} {clause : ImportClause} (h : m.WellNamed)
    (hfrom : m.defaultName ≠ bytes "from") (hclause : clause ∈ m.statements) : clause.Readable := by
  have hspecifiers {bindings : List ImportBinding} (hbindings : ∀ b ∈ bindings, b.WellNamed) :
      ∀ s ∈ bindings.map (·.specifier), s.WellNamed ∧ s.isType = false := by
    refine List.forall_mem_map.mpr fun b hb ↦ ⟨hbindings b hb, rfl⟩
  have hword : [] ≠ bytes "from" := by decide
  unfold ModuleImports.statements at hclause
  split at hclause
  · obtain rfl := List.mem_singleton.mp hclause
    exact ⟨⟨.inl rfl, .inl rfl, by simp⟩, by simp, fun _ ↦ rfl, .inl rfl, fun _ ↦ hword,
      by simp⟩
  · simp only [ModuleImports.valueStatements, ModuleImports.namespaceStatements,
      ModuleImports.typeDefaultStatements, ModuleImports.typeStatements, List.mem_append,
      List.mem_ite_nil_left, List.mem_singleton, List.mem_map] at hclause
    obtain ((⟨-, rfl⟩ | ⟨name, hname, rfl⟩) | ⟨hdefault, rfl⟩) | ⟨htypes, rfl⟩ := hclause
    · refine ⟨⟨h.defaultName, .inl rfl, ?_⟩, ?_, fun _ ↦ rfl, .inl rfl, fun _ ↦ hfrom, by simp⟩
      · exact fun s hs ↦ (hspecifiers h.values s hs).1
      · exact fun s hs ↦ (hspecifiers h.values s hs).2
    · refine ⟨⟨.inl rfl, .inr (h.namespaces name hname), by simp⟩, by simp, fun _ ↦ rfl, .inr rfl,
        fun _ ↦ hword, by simp⟩
    · have hne : m.typeDefault ≠ [] := fun hnil ↦ hdefault (by rw [hnil]; rfl)
      refine ⟨⟨h.typeDefault, .inl rfl, by simp⟩, by simp, fun heffect ↦ ?_, .inl rfl, by simp,
        fun _ ↦ .inr ⟨rfl, rfl⟩⟩
      simp [ImportClause.isSideEffect, hne] at heffect
    · refine ⟨⟨.inl rfl, .inl rfl, ?_⟩, ?_, fun heffect ↦ ?_, .inl rfl, by simp,
        fun _ ↦ .inl rfl⟩
      · exact fun s hs ↦ (hspecifiers h.types s hs).1
      · exact fun s hs ↦ (hspecifiers h.types s hs).2
      · rw [ImportClause.isSideEffect, List.isEmpty_map] at heffect
        exact absurd heffect htypes

/-- The import block is read as its statements. -/
theorem readsAsImports_generate (h : table.WellNamed)
    (hfrom : ∀ m ∈ table.modules, m.defaultName ≠ bytes "from") :
    ReadsAsImports (table.generate .esm) table.statements := by
  rw [generate_esm_eq h]
  refine readsAsImports_text fun clause hclause ↦ ?_
  obtain ⟨m, hm, hclause⟩ := List.mem_flatMap.mp hclause
  have hm := mem_filter_append_filter.mp hm
  exact readable_of_mem_statements (h m hm) (hfrom m hm) hclause

/-- The import block of a table that was made from the import declarations of sources decodes to
this table, unless the default of the values of a module is named `from`. -/
theorem generate_decodes (hread : ∀ clause ∈ clauses, clause.IsRead)
    (hfrom : ∀ m ∈ (ofClauses clauses).modules, m.defaultName ≠ bytes "from") :
    ∃ decoded, ReadsAsImports ((ofClauses clauses).generate .esm) decoded ∧
      ofClauses decoded = ofClauses clauses := by
  have hnames := wellNamed_ofClauses fun clause hclause ↦ (hread clause hclause).wellNamed
  exact ⟨(ofClauses clauses).statements, readsAsImports_generate hnames hfrom,
    ofClauses_statements sorted_ofClauses hnames⟩

/-- Names that are words of import declarations. -/
theorem generate_decodes_words :
    ∃ decoded, ReadsAsImports ((ofClauses [
        { source := bytes "m", defaultName := bytes "type"
          specifiers := [{ imported := bytes "as", localName := bytes "from" }] },
        { source := bytes "m", defaultName := bytes "from", typeOnly := true }]).generate .esm)
        decoded ∧
      ofClauses decoded = ofClauses [
        { source := bytes "m", defaultName := bytes "type"
          specifiers := [{ imported := bytes "as", localName := bytes "from" }] },
        { source := bytes "m", defaultName := bytes "from", typeOnly := true }] := by
  have htype : IsBindingName (bytes "type") := ⟨.word .type, rfl, .word .type⟩
  have hfrom : IsBindingName (bytes "from") := ⟨.word .from_, rfl, .word .from_⟩
  have hpair : IsImportPair (bytes "as") (bytes "from") :=
    ⟨.inl ⟨.word .as, .word .as⟩, .inr hfrom⟩
  refine generate_decodes ?_ (by decide)
  simp only [List.forall_mem_cons, List.not_mem_nil, false_imp_iff, implies_true, and_true]
  refine ⟨ImportClause.Readable.isRead ?_, ImportClause.Readable.isRead ?_⟩
  · exact ⟨⟨.inr htype, .inl rfl, by simpa using hpair⟩, by simp, nofun, .inl rfl,
      fun _ ↦ by decide, nofun⟩
  · exact ⟨⟨.inr hfrom, .inl rfl, by simp⟩, by simp, nofun, .inl rfl, nofun,
      fun _ ↦ .inr ⟨rfl, rfl⟩⟩

end ImportTable

end SignalView
