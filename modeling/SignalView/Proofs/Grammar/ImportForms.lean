import SignalView.Proofs.Expression.Parsed
import SignalView.Proofs.Script.ImportTokens

/-!
# Reading import statements

An import declaration is read from the tokens of a clause. The words `type`, `as` and `from` are
names as well, and which of them stand for themselves is decided by the tokens behind them: of the
clauses that are written, only a default of values that is named `from` is taken for something else.
-/

namespace SignalView

/-- A clause that can be written and read again: its list marks no single types, and its default is
not taken for the word in front of the module. -/
structure ImportClause.Readable (clause : ImportClause) : Prop where
  wellNamed : clause.WellNamed
  values : ∀ s ∈ clause.specifiers, s.isType = false
  effects : clause.isSideEffect = true → clause.typeOnly = false
  single : clause.namespaceName = [] ∨ clause.specifiers = []
  valueDefault : clause.typeOnly = false → clause.defaultName ≠ bytes "from"
  typeDefault : clause.typeOnly = true → clause.defaultName = [] ∨
    clause.namespaceName = [] ∧ clause.specifiers = []

namespace ImportClause

variable {clause : ImportClause}

/-- Whether a clause has a namespace or a list. -/
def hasNames (clause : ImportClause) : Bool :=
  !clause.namespaceName.isEmpty || !clause.specifiers.isEmpty

/-- The tokens of the namespace or of the list. -/
def innerSigns (clause : ImportClause) : List Sign :=
  if clause.namespaceName.isEmpty then
    Mark.openBrace.sign ::
      ([Mark.comma.sign].intercalate (clause.listed.map (·.signs)) ++ [Mark.closeBrace.sign])
  else [Mark.star.sign, Word.as.sign, .read clause.namespaceName]

/-- The tokens of the names of a clause. -/
def nameSigns (clause : ImportClause) : List Sign :=
  if clause.defaultName.isEmpty then clause.innerSigns
  else .read clause.defaultName ::
    if clause.hasNames then Mark.comma.sign :: clause.innerSigns else []

theorem intercalate_parts (hsingle : clause.namespaceName = [] ∨ clause.specifiers = [])
    (heffect : clause.isSideEffect = false) :
    [Mark.comma.sign].intercalate (clause.parts.map (·.2)) = clause.nameSigns := by
  have hsingle : clause.namespaceName.isEmpty = true ∨ clause.specifiers.isEmpty = true := by
    rwa [List.isEmpty_iff, List.isEmpty_iff]
  rw [isSideEffect] at heffect
  cases hdefault : clause.defaultName.isEmpty <;> cases hname : clause.namespaceName.isEmpty <;>
    cases hlist : clause.specifiers.isEmpty <;>
    simp_all [parts, nameSigns, innerSigns, hasNames]

theorem Readable.eq_of_effects (h : clause.Readable) (heffect : clause.isSideEffect = true) :
    clause = { source := clause.source } := by
  have htype := h.effects heffect
  simp only [isSideEffect, Bool.and_eq_true, List.isEmpty_iff] at heffect
  obtain ⟨⟨hdefault, hnamespace⟩, hlist⟩ := heffect
  cases clause
  subst hdefault hnamespace hlist htype
  rfl

theorem Readable.listed_eq (h : clause.Readable) :
    clause.listed.map (·.specifier) = clause.specifiers := by
  rw [listed, List.map_map]
  refine (List.map_congr_left fun s hs ↦ ?_).trans (List.map_id _)
  have htype := h.values s hs
  cases s
  cases htype
  rfl

theorem Readable.listed_wellNamed (h : clause.Readable) : ∀ b ∈ clause.listed, b.WellNamed := by
  intro b hb
  obtain ⟨s, hs, rfl⟩ := List.mem_map.mp hb
  exact h.wellNamed.specifiers s hs

end ImportClause

/-! ## Names -/

theorem IsBindingName.read {name : Bytes} (h : IsBindingName name) :
    (Sign.read name).kind.isName = true ∧ (Sign.read name).value = name := by
  obtain ⟨kind, hkind, hwritten⟩ := h
  have hread : Sign.read name = ⟨kind, name⟩ := hwritten.read_eq
  rw [hread]
  exact ⟨hkind, rfl⟩

/-- A word is read from its spelling. -/
theorem IsBindingName.eq_of_read {name : Bytes} {w : Word} (h : IsBindingName name)
    (hkind : (Sign.read name).kind = .word w) : name = bytes w.spelling := by
  obtain ⟨kind, -, hwritten⟩ := h
  have hread : Sign.read name = ⟨kind, name⟩ := hwritten.read_eq
  rw [hread] at hkind
  cases hwritten with
  | name _ _ => cases hkind
  | word w =>
    cases hkind
    rfl

theorem IsExportName.read {name : Bytes} (h : IsExportName name) :
    (∃ value, name = Quoted.quoted value ∧ Sign.read name = ⟨.string, value⟩) ∨
      (Sign.read name).kind.isMemberName = true ∧ (Sign.read name).value = name := by
  obtain ⟨kind, hwritten⟩ | ⟨value, rfl⟩ := h
  · right
    have hread : Sign.read name = ⟨kind, name⟩ := hwritten.read_eq
    rw [hread]
    exact ⟨by cases hwritten <;> rfl, rfl⟩
  · exact .inl ⟨value, rfl, Sign.read_quoted value⟩

namespace Grammar

open Parse

variable {context : ParseContext} {cursor : TokenCursor} {rest : List Sign} {name : Bytes}
  {message : String}

theorem expectName_gives (hfinal : context.final.kind = .eof) (h : IsBindingName name)
    (hsigns : cursor.signs = Sign.read name :: rest) :
    (expectName message).Gives context cursor (· = name) rest := by
  have hahead : nameAhead 0 context cursor = .ok true cursor := by
    refine congrArg (ParseOutcome.ok · cursor) ?_
    rw [peek_kind hfinal 0, hsigns]
    exact h.read.1
  obtain ⟨value, behind, hrun, rfl, hbehind⟩ : take.Gives context cursor _ _ := take_gives hsigns
  refine ⟨_, behind, ?_, h.read.2, hbehind⟩
  rw [expectName, bind_of_ok hahead, if_pos rfl, hrun]

theorem exchangedName_gives (hfinal : context.final.kind = .eof) (h : IsExportName name)
    (hsigns : cursor.signs = Sign.read name :: rest) :
    exchangedName.Gives context cursor (· = name) rest := by
  obtain ⟨value, rfl, hread⟩ | ⟨hkind, hvalue⟩ := h.read
  · rw [hread] at hsigns
    refine (current_gives hsigns).bind fun token place htoken hplace ↦ ?_
    refine (accept_gives hplace).bind fun accepted behind haccepted hbehind ↦ ?_
    rw [haccepted, if_pos rfl]
    refine ⟨_, behind, rfl, ?_, hbehind⟩
    rw [show token.value = value from congrArg Sign.value htoken]
  · have hne : headKind cursor.signs ≠ .string := by
      rw [hsigns]
      intro hstring
      rw [show (Sign.read name).kind = .string from hstring] at hkind
      cases hkind
    rw [exchangedName, Gives, bind_of_ok current_eq, bind_of_ok (accept_eq_false hfinal hne),
      if_neg Bool.false_ne_true, expectMemberName, bind_of_ok current_eq, current_kind hfinal,
      hsigns, headKind_cons, if_pos hkind]
    exact (take_gives hsigns).mono fun _ hname ↦ hname.trans hvalue

/-! ## Lists -/

/-- What follows a word `type` that is a name of a list. -/
theorem acceptTypeMark_gives (hfinal : context.final.kind = .eof)
    (h : headKind cursor.signs = .word .type →
      headKind (cursor.signs.drop 1) ∈ [.mark .comma, .mark .closeBrace, .word .as]) :
    acceptTypeMark.Gives context cursor (· = false) cursor.signs := by
  refine ⟨false, cursor, ?_, rfl, rfl⟩
  have hpeek : peek 1 context cursor = .ok (cursor.after[1]?.getD context.final) cursor := rfl
  rw [acceptTypeMark, bind_of_ok hpeek, peek_kind hfinal 1, bind_of_ok (atWord_eq _ hfinal)]
  by_cases htype : headKind cursor.signs = .word .type
  · have hnext := h htype
    simp only [List.mem_cons, List.not_mem_nil, or_false] at hnext
    rcases hnext with hnext | hnext | hnext <;> (rw [htype, hnext]; rfl)
  · rw [beq_false_of_ne htype]
    rfl

theorem exported_kind_ne (h : IsExportName name) :
    ((Sign.read name).kind != .mark .closeBrace && (Sign.read name).kind != .eof) = true := by
  obtain ⟨value, -, hread⟩ | ⟨hkind, -⟩ := h.read
  · rw [hread]
    rfl
  · cases hread : (Sign.read name).kind <;> first | rfl | (rw [hread] at hkind; cases hkind)

theorem importSpecifier_gives {b : ImportBinding} (hfinal : context.final.kind = .eof)
    (h : b.WellNamed) (hsigns : cursor.signs = b.signs ++ rest)
    (hrest : headKind rest = .mark .comma ∨ headKind rest = .mark .closeBrace) :
    importSpecifier.Gives context cursor (· = b.specifier) rest := by
  unfold ImportBinding.signs at hsigns
  split at hsigns
  · next hsame =>
    have hsame := eq_of_beq hsame
    replace hsigns : cursor.signs = Sign.read b.imported :: rest := hsigns
    have hmark : acceptTypeMark.Gives context cursor (· = false) cursor.signs := by
      refine acceptTypeMark_gives hfinal fun _ ↦ ?_
      rw [hsigns]
      rcases hrest with hrest | hrest <;> simp [hrest]
    refine hmark.bind fun isType place hisType hplace ↦ ?_
    refine (exchangedName_gives hfinal h.exported (hplace.trans hsigns)).bind
      fun imported behind himported hbehind ↦ ?_
    have has : headKind behind.signs ≠ .word .as := by
      rw [hbehind]
      rcases hrest with hrest | hrest <;> (rw [hrest]; nofun)
    refine (accept_gives_false hfinal has).bind fun accepted last haccepted hlast ↦ ?_
    rw [haccepted, if_neg Bool.false_ne_true]
    refine ⟨_, last, rfl, ?_, hlast.trans hbehind⟩
    rw [hisType, himported, ImportBinding.specifier, ← hsame]
  · next hne =>
    have hbinding := h.bound.resolve_left fun heq ↦ hne (by rw [heq, BEq.rfl])
    have hmark : acceptTypeMark.Gives context cursor (· = false) cursor.signs := by
      refine acceptTypeMark_gives hfinal fun _ ↦ ?_
      rw [hsigns]
      simp [Word.sign]
    refine hmark.bind fun isType place hisType hplace ↦ ?_
    refine (exchangedName_gives hfinal h.exported (hplace.trans hsigns)).bind
      fun imported behind himported hbehind ↦ ?_
    refine (accept_gives hbehind).bind fun accepted atLocal haccepted hatLocal ↦ ?_
    rw [haccepted, if_pos rfl]
    refine (expectName_gives hfinal hbinding hatLocal).bind fun localName last hlocal hlast ↦ ?_
    refine ⟨_, last, rfl, ?_, hlast⟩
    rw [hisType, himported, hlocal, ImportBinding.specifier]

/-- A list of bindings is read up to its closing brace. -/
theorem importList_gives {bindings : List ImportBinding} (hfinal : context.final.kind = .eof)
    (h : ∀ b ∈ bindings, b.WellNamed) {rounds : Nat} (hrounds : bindings.length < rounds)
    (done : List ImportSpecifier)
    (hsigns : cursor.signs =
      [Mark.comma.sign].intercalate (bindings.map (·.signs)) ++ Mark.closeBrace.sign :: rest) :
    (iterate (listRound (beforeMark .closeBrace) (do return (← importSpecifier, true))) rounds
      done).Gives context cursor (· = done ++ bindings.map (·.specifier))
        (Mark.closeBrace.sign :: rest) := by
  obtain ⟨rounds, rfl⟩ : ∃ r, rounds = r + 1 := ⟨rounds - 1, by omega⟩
  induction bindings generalizing rounds done cursor with
  | nil =>
    have hmore : beforeMark .closeBrace context cursor = .ok false cursor := by
      rw [beforeMark, before_eq _ hfinal, hsigns]
      rfl
    have hround : listRound (beforeMark .closeBrace) (do return (← importSpecifier, true)) done
        context cursor = .ok (done, false) cursor := by
      rw [listRound, bind_of_ok hmore]
      rfl
    refine ⟨done, cursor, ?_, by simp, hsigns⟩
    rw [iterate, bind_of_ok hround]
    rfl
  | cons b bindings ih =>
    obtain ⟨hb, hbindings⟩ := List.forall_mem_cons.mp h
    -- The round that reads a binding asks for more when a comma follows.
    have hround (more : List Sign) (hcursor : cursor.signs = b.signs ++ more)
        (hmore : headKind more = .mark .comma ∨ headKind more = .mark .closeBrace) :
        ∃ behind, behind.signs = more ∧
          listRound (beforeMark .closeBrace) (do return (← importSpecifier, true)) done context
            cursor = (do return (done ++ [b.specifier], ← acceptMark .comma) : Parse _) context
              behind := by
      have hhead : headKind cursor.signs = (Sign.read b.imported).kind := by
        rw [hcursor, ImportBinding.signs]
        split <;> rfl
      have hstart : beforeMark .closeBrace context cursor = .ok true cursor := by
        rw [beforeMark, before_eq _ hfinal, hhead]
        exact congrArg (ParseOutcome.ok · cursor) (exported_kind_ne hb.exported)
      obtain ⟨s, behind, hitem, rfl, hbehind⟩ : importSpecifier.Gives context cursor _ _ :=
        importSpecifier_gives hfinal hb hcursor hmore
      have hpair : (do return (← importSpecifier, true) : Parse _) context cursor =
          .ok (b.specifier, true) behind := bind_of_ok hitem
      refine ⟨behind, hbehind, ?_⟩
      rw [listRound, bind_of_ok hstart, if_pos rfl, bind_of_ok hpair]
      rfl
    cases bindings with
    | nil =>
      obtain ⟨behind, hbehind, hround⟩ :=
        hround (Mark.closeBrace.sign :: rest) (by simpa using hsigns) (.inr rfl)
      have hcomma : acceptMark .comma context behind = .ok false behind := by
        apply accept_eq_false hfinal
        simp [hbehind]
      rw [bind_of_ok hcomma] at hround
      refine ⟨done ++ [b.specifier], behind, ?_, rfl, hbehind⟩
      rw [iterate, bind_of_ok hround]
      rfl
    | cons next bindings =>
      obtain ⟨behind, hbehind, hround⟩ := hround
        (Mark.comma.sign :: ([Mark.comma.sign].intercalate ((next :: bindings).map (·.signs)) ++
          Mark.closeBrace.sign :: rest)) (by simpa using hsigns) (.inl rfl)
      obtain ⟨_, atNext, hcomma, rfl, hatNext⟩ : (acceptMark .comma).Gives context behind _ _ :=
        acceptMark_gives hbehind
      rw [bind_of_ok hcomma] at hround
      obtain ⟨rounds, rfl⟩ : ∃ r, rounds = r + 1 := ⟨rounds - 1, by simp at hrounds; omega⟩
      obtain ⟨found, last, hrun, rfl, hlast⟩ :=
        ih hbindings (done ++ [b.specifier]) hatNext rounds (by simpa using hrounds)
      refine ⟨done ++ [b.specifier] ++ (next :: bindings).map (·.specifier), last, ?_, by simp,
        hlast⟩
      rw [iterate, bind_of_ok hround]
      exact hrun

/-! ## The parts of a declaration -/

variable {g : Grammar}

theorem importNames_gives_namespace (hfinal : context.final.kind = .eof) (h : IsBindingName name)
    (hsigns : cursor.signs = Mark.star.sign :: Word.as.sign :: Sign.read name :: rest) :
    g.importNames.Gives context cursor (· = (name, [])) rest := by
  refine (acceptMark_gives hsigns).bind fun accepted behind haccepted hbehind ↦ ?_
  rw [haccepted, if_pos rfl]
  refine (discard_expect_gives hbehind).bind fun _ atName _ hatName ↦ ?_
  refine (expectName_gives hfinal h hatName).bind fun found last hfound hlast ↦ ?_
  exact ⟨_, last, rfl, by rw [hfound], hlast⟩

theorem importNames_gives_list {bindings : List ImportBinding} (hfinal : context.final.kind = .eof)
    (h : ∀ b ∈ bindings, b.WellNamed) (hrounds : bindings.length < g.rounds)
    (hsigns : cursor.signs = Mark.openBrace.sign ::
      ([Mark.comma.sign].intercalate (bindings.map (·.signs)) ++ Mark.closeBrace.sign :: rest)) :
    g.importNames.Gives context cursor (· = ([], bindings.map (·.specifier))) rest := by
  have hstar : headKind cursor.signs ≠ .mark .star := by rw [hsigns]; nofun
  refine (accept_gives_false hfinal hstar).bind fun isStar place hisStar hplace ↦ ?_
  rw [hisStar, if_neg Bool.false_ne_true]
  refine (acceptMark_gives (hplace.trans hsigns)).bind fun accepted behind haccepted hbehind ↦ ?_
  rw [haccepted, if_pos rfl]
  have hlist : (commaList g.rounds (beforeMark .closeBrace) importSpecifier).Gives context behind
      (· = bindings.map (·.specifier)) (Mark.closeBrace.sign :: rest) :=
    importList_gives hfinal h hrounds [] hbehind
  refine hlist.bind fun found atClose hfound hatClose ↦ ?_
  refine (expectMark_gives hatClose).bind fun _ last _ hlast ↦ ?_
  exact ⟨_, last, rfl, by rw [hfound], hlast⟩

/-- The kinds behind a word `type` with which it marks a type import. -/
def marksTypes (next behind : TokenKind) : Bool :=
  next == .mark .openBrace || next == .mark .star || (next.isName && next != .word .from_) ||
    (next == .word .from_ && behind == .word .from_)

theorem acceptTypeOnly_eq (hfinal : context.final.kind = .eof) :
    acceptTypeOnly context cursor = (do
      if headKind cursor.signs == .word .type &&
          marksTypes (headKind (cursor.signs.drop 1)) (headKind (cursor.signs.drop 2)) then
        advance
        return true
      else return false : Parse Bool) context cursor := by
  have hpeek : peek 1 context cursor = .ok (cursor.after[1]?.getD context.final) cursor := rfl
  have hbehind : wordAhead 2 .from_ context cursor =
      .ok (headKind (cursor.signs.drop 2) == .word .from_) cursor := by
    rw [← peek_kind hfinal 2]
    rfl
  rw [acceptTypeOnly, bind_of_ok hpeek, peek_kind hfinal 1, bind_of_ok hbehind,
    bind_of_ok (atWord_eq _ hfinal)]
  rfl

theorem acceptTypeOnly_gives_true (hfinal : context.final.kind = .eof)
    (hsigns : cursor.signs = Word.type.sign :: rest)
    (h : marksTypes (headKind rest) (headKind rest.tail) = true) :
    acceptTypeOnly.Gives context cursor (· = true) rest := by
  have hcondition : (headKind cursor.signs == .word .type &&
      marksTypes (headKind (cursor.signs.drop 1)) (headKind (cursor.signs.drop 2))) = true := by
    rw [hsigns, List.drop_succ_cons, List.drop_zero, List.drop_succ_cons, List.drop_one, h]
    rfl
  rw [Gives, acceptTypeOnly_eq hfinal, hcondition, if_pos rfl]
  exact (advance_gives hsigns).bind fun _ behind _ hbehind ↦ ⟨true, behind, rfl, rfl, hbehind⟩

theorem acceptTypeOnly_gives_false (hfinal : context.final.kind = .eof)
    (h : headKind cursor.signs = .word .type →
      marksTypes (headKind (cursor.signs.drop 1)) (headKind (cursor.signs.drop 2)) = false) :
    acceptTypeOnly.Gives context cursor (· = false) cursor.signs := by
  have hcondition : (headKind cursor.signs == .word .type &&
      marksTypes (headKind (cursor.signs.drop 1)) (headKind (cursor.signs.drop 2))) = false := by
    by_cases htype : headKind cursor.signs = .word .type
    · rw [h htype, Bool.and_false]
    · rw [beq_false_of_ne htype, Bool.false_and]
  refine ⟨false, cursor, ?_, rfl, rfl⟩
  rw [acceptTypeOnly_eq hfinal, hcondition, if_neg Bool.false_ne_true]
  rfl

theorem importDefault_eq (hfinal : context.final.kind = .eof) :
    importDefault context cursor = (do
      if (headKind cursor.signs).isName && !(headKind cursor.signs == .word .from_) then
        let name ← take
        return (name, ← acceptMark .comma)
      else if headKind cursor.signs == .word .from_ &&
          headKind (cursor.signs.drop 1) == .word .from_ then
        return (← take, false)
      else return ([], true) : Parse (Bytes × Bool)) context cursor := by
  have hname : nameAhead 0 context cursor = .ok (headKind cursor.signs).isName cursor :=
    congrArg (fun kind : TokenKind ↦ ParseOutcome.ok kind.isName cursor) (peek_kind hfinal 0)
  have hahead : wordAhead 1 .from_ context cursor =
      .ok (headKind (cursor.signs.drop 1) == .word .from_) cursor := by
    rw [← peek_kind hfinal 1]
    rfl
  rw [importDefault, bind_of_ok hname, bind_of_ok (atWord_eq _ hfinal)]
  split
  · rfl
  · rw [bind_of_ok (atWord_eq _ hfinal), bind_of_ok hahead]

/-- A default name, with a comma behind it when more follows. -/
theorem importDefault_gives (hfinal : context.final.kind = .eof) (h : IsBindingName name)
    (hfrom : name ≠ bytes "from") (hsigns : cursor.signs = Sign.read name :: rest)
    {more : Bool} {behind : List Sign}
    (hmore : if more then rest = Mark.comma.sign :: behind
      else headKind rest ≠ .mark .comma ∧ rest = behind) :
    importDefault.Gives context cursor (· = (name, more)) behind := by
  have hcondition : ((headKind cursor.signs).isName &&
      !(headKind cursor.signs == .word .from_)) = true := by
    have hkind : (Sign.read name).kind ≠ .word .from_ :=
      fun hkind ↦ hfrom (h.eq_of_read (w := .from_) hkind)
    rw [hsigns, headKind_cons, h.read.1, beq_false_of_ne hkind]
    rfl
  rw [Gives, importDefault_eq hfinal, hcondition, if_pos rfl]
  refine (take_gives hsigns).bind fun found place hfound hplace ↦ ?_
  rw [h.read.2] at hfound
  cases more with
  | true =>
    refine (acceptMark_gives (hplace.trans hmore)).bind fun comma last hcomma hlast ↦ ?_
    exact ⟨_, last, rfl, by rw [hfound, hcomma], hlast⟩
  | false =>
    obtain ⟨hcomma, rfl⟩ := hmore
    refine (accept_gives_false hfinal (by rwa [hplace])).bind fun comma last hcomma hlast ↦ ?_
    exact ⟨_, last, rfl, by rw [hfound, hcomma], hlast.trans hplace⟩

/-- A default that is named like the word behind it. -/
theorem importDefault_gives_from (hfinal : context.final.kind = .eof)
    (hsigns : cursor.signs = Word.from_.sign :: Word.from_.sign :: rest) :
    importDefault.Gives context cursor (· = (bytes "from", false)) (Word.from_.sign :: rest) := by
  rw [Gives, importDefault_eq hfinal, hsigns]
  exact (take_gives hsigns).bind fun found last hfound hlast ↦
    ⟨_, last, rfl, by rw [hfound]; rfl, hlast⟩

theorem importDefault_gives_nothing (hfinal : context.final.kind = .eof)
    (h : headKind cursor.signs = .mark .star ∨ headKind cursor.signs = .mark .openBrace) :
    importDefault.Gives context cursor (· = ([], true)) cursor.signs := by
  refine ⟨_, cursor, ?_, rfl, rfl⟩
  rw [importDefault_eq hfinal]
  rcases h with h | h <;> (rw [h]; rfl)

theorem importAttributes_gives (hfinal : context.final.kind = .eof)
    (h : headKind cursor.signs = .mark .semicolon) :
    importAttributes.Gives context cursor (fun _ ↦ True) cursor.signs := by
  have hspelling (text : String) : atSpelling text context cursor = .ok false cursor := by
    rw [atSpelling, bind_of_ok current_eq, current_kind hfinal, h]
    rfl
  refine ⟨(), cursor, ?_, trivial, rfl⟩
  rw [importAttributes, bind_of_ok (hspelling "with"), bind_of_ok (hspelling "assert"),
    bind_of_ok (show markAhead 1 .openBrace context cursor = .ok _ cursor from rfl),
    bind_of_ok onNewLine_eq]
  rfl

/-- The module of an import and the end of the statement. -/
theorem importOrigin_gives {start : Token} {source : Bytes} {make : Bytes → ImportClause}
    (hfinal : context.final.kind = .eof)
    (hsigns : cursor.signs =
      Word.from_.sign :: ⟨.string, source⟩ :: Mark.semicolon.sign :: rest) :
    (do
      if !(← acceptWord .from_) then fail "PSR-P003" message
      let source ← modulePath
      importAttributes
      semicolon
      node start (.imports (make source)) : Parse Node).Gives context cursor
        (fun node ↦ ∃ range, node = .plain range (.imports (make source))) rest := by
  refine (accept_gives hsigns).bind fun accepted atSource haccepted hatSource ↦ ?_
  rw [haccepted]
  have hpath : modulePath.Gives context atSource (· = source) (Mark.semicolon.sign :: rest) :=
    (expect_gives hatSource).bind fun token behind htoken hbehind ↦
      ⟨_, behind, rfl, congrArg Sign.value htoken, hbehind⟩
  refine hpath.bind fun found behind hfound hbehind ↦ ?_
  have hhead : headKind behind.signs = .mark .semicolon := by rw [hbehind]; rfl
  refine (importAttributes_gives hfinal hhead).bind fun _ place _ hplace ↦ ?_
  refine (semicolon_gives (hplace.trans hbehind)).bind fun _ last _ hlast ↦ ?_
  rw [hfound]
  exact Term.node_gives hlast fun range ↦ ⟨range, rfl⟩

/-! ## Declarations -/

section

variable {clause : ImportClause}

theorem importNames_gives (h : clause.Readable) (hfinal : context.final.kind = .eof)
    (hrounds : clause.specifiers.length < g.rounds)
    (hsigns : cursor.signs = clause.innerSigns ++ rest) :
    g.importNames.Gives context cursor (· = (clause.namespaceName, clause.specifiers)) rest := by
  unfold ImportClause.innerSigns at hsigns
  split at hsigns
  · next hempty =>
    have hlist := importNames_gives_list hfinal h.listed_wellNamed
      (by simpa [ImportClause.listed] using hrounds) (by simpa using hsigns)
    rwa [h.listed_eq, ← List.isEmpty_iff.mp hempty] at hlist
  · next hne =>
    have hne : clause.namespaceName ≠ [] := fun hnil ↦ hne (by rw [hnil]; rfl)
    have hname := importNames_gives_namespace (g := g) hfinal
      (h.wellNamed.namespaceName.resolve_left hne) hsigns
    rwa [← h.single.resolve_left hne] at hname

theorem headKind_innerSigns (clause : ImportClause) (more : List Sign) :
    headKind (clause.innerSigns ++ more) = .mark .star ∨
      headKind (clause.innerSigns ++ more) = .mark .openBrace := by
  unfold ImportClause.innerSigns
  split
  · exact .inr rfl
  · exact .inl rfl

/-- A type default that is named `from` is followed by that word. -/
theorem hasNames_of_from (h : clause.Readable) (hfrom : clause.defaultName = bytes "from") :
    clause.typeOnly = true ∧ clause.hasNames = false := by
  have htype : clause.typeOnly = true := by
    by_contra hvalue
    exact h.valueDefault (by simpa using hvalue) hfrom
  have hne : clause.defaultName ≠ [] := by rw [hfrom]; nofun
  obtain ⟨hnamespace, hlist⟩ := (h.typeDefault htype).resolve_left hne
  refine ⟨htype, ?_⟩
  rw [ImportClause.hasNames, hnamespace, hlist]
  rfl

theorem read_from : Sign.read (bytes "from") = Word.from_.sign :=
  (Sign.Written.word .from_).read_eq

/-- The default of a clause, and whether there are names behind it. -/
theorem importDefault_gives_clause (h : clause.Readable) (hfinal : context.final.kind = .eof)
    (hsigns : cursor.signs = clause.nameSigns ++ Word.from_.sign :: rest) :
    importDefault.Gives context cursor
      (· = (clause.defaultName, clause.defaultName.isEmpty || clause.hasNames))
      (if clause.defaultName.isEmpty || clause.hasNames then
        clause.innerSigns ++ Word.from_.sign :: rest else Word.from_.sign :: rest) := by
  unfold ImportClause.nameSigns at hsigns
  cases hempty : clause.defaultName.isEmpty with
  | true =>
    rw [hempty, if_pos rfl] at hsigns
    have hhead := headKind_innerSigns clause (Word.from_.sign :: rest)
    rw [← hsigns] at hhead
    have hnothing := importDefault_gives_nothing hfinal hhead
    rwa [hsigns, ← List.isEmpty_iff.mp hempty] at hnothing
  | false =>
    rw [hempty, if_neg Bool.false_ne_true] at hsigns
    have hne : clause.defaultName ≠ [] := List.isEmpty_eq_false_iff.mp hempty
    have hname := h.wellNamed.defaultName.resolve_left hne
    by_cases hfrom : clause.defaultName = bytes "from"
    · have hnames := (hasNames_of_from h hfrom).2
      rw [hnames, hfrom, read_from] at hsigns
      rw [hnames, hfrom]
      exact importDefault_gives_from hfinal hsigns
    · refine importDefault_gives hfinal hname hfrom hsigns ?_
      cases clause.hasNames with
      | true => exact List.cons_append
      | false => exact ⟨nofun, rfl⟩

theorem acceptTypeOnly_gives (h : clause.Readable) (hfinal : context.final.kind = .eof)
    (hsigns : cursor.signs = (if clause.typeOnly then [Word.type.sign] else []) ++
      (clause.nameSigns ++ Word.from_.sign :: ⟨.string, clause.source⟩ :: rest)) :
    acceptTypeOnly.Gives context cursor (· = clause.typeOnly)
      (clause.nameSigns ++ Word.from_.sign :: ⟨.string, clause.source⟩ :: rest) := by
  have hempty (more : List Sign) (hdefault : clause.defaultName = []) :
      headKind (clause.nameSigns ++ more) = .mark .star ∨
        headKind (clause.nameSigns ++ more) = .mark .openBrace := by
    rw [ImportClause.nameSigns, hdefault]
    exact headKind_innerSigns clause more
  have hsome (hdefault : clause.defaultName ≠ []) : clause.nameSigns = .read clause.defaultName ::
      if clause.hasNames then Mark.comma.sign :: clause.innerSigns else [] := by
    rw [ImportClause.nameSigns, List.isEmpty_eq_false_iff.mpr hdefault, if_neg Bool.false_ne_true]
  cases htype : clause.typeOnly with
  | true =>
    rw [htype] at hsigns
    refine acceptTypeOnly_gives_true hfinal hsigns ?_
    by_cases hdefault : clause.defaultName = []
    · rcases hempty _ hdefault with hhead | hhead <;> (rw [hhead]; rfl)
    · have hname := h.wellNamed.defaultName.resolve_left hdefault
      rw [hsome hdefault]
      by_cases hfrom : clause.defaultName = bytes "from"
      · rw [(hasNames_of_from h hfrom).2, hfrom, read_from]
        rfl
      · have hkind : (Sign.read clause.defaultName).kind ≠ .word .from_ :=
          fun hkind ↦ hfrom (hname.eq_of_read (w := .from_) hkind)
        simp [marksTypes, hname.read.1, hkind]
  | false =>
    rw [htype, if_neg Bool.false_ne_true, List.nil_append] at hsigns
    rw [← hsigns]
    refine acceptTypeOnly_gives_false hfinal fun hkind ↦ ?_
    by_cases hdefault : clause.defaultName = []
    · rw [hsigns] at hkind
      rcases hempty _ hdefault with hhead | hhead <;> (rw [hhead] at hkind; cases hkind)
    · rw [hsigns, hsome hdefault]
      cases clause.hasNames <;> rfl

/-- What does not stand behind `import` in front of names. -/
theorem headKind_names (h : clause.Readable) (more : List Sign) :
    headKind ((if clause.typeOnly then [Word.type.sign] else []) ++ (clause.nameSigns ++ more)) ∉
      [.string, .mark .openParen, .mark .dot] := by
  split
  · rw [List.cons_append, headKind_cons]
    decide
  · rw [List.nil_append, ImportClause.nameSigns]
    split
    · rcases headKind_innerSigns clause more with hhead | hhead <;> (rw [hhead]; decide)
    · next hsome =>
      have hdefault : clause.defaultName ≠ [] := fun hnil ↦ hsome (by rw [hnil]; rfl)
      have hname := (h.wellNamed.defaultName.resolve_left hdefault).read.1
      rw [List.cons_append, headKind_cons]
      intro hkind
      simp only [List.mem_cons, List.not_mem_nil, or_false] at hkind
      rcases hkind with hkind | hkind | hkind <;> (rw [hkind] at hname; cases hname)

/-- The tokens of a clause are those of no expression: neither a parenthesis nor a dot follows
`import`. -/
theorem signs_eq_cons_import (h : clause.Readable) :
    ∃ more, clause.signs = Word.import_.sign :: more ∧
      ∀ rest, headKind (more ++ rest) ∉ [.mark .openParen, .mark .dot] := by
  unfold ImportClause.signs
  dsimp only
  split
  · refine ⟨_, rfl, fun rest ↦ ?_⟩
    rw [List.cons_append, headKind_cons]
    simp
  · next heffect =>
    rw [ImportClause.intercalate_parts h.single (by simpa using heffect)]
    refine ⟨_, rfl, fun rest ↦ ?_⟩
    rw [List.append_assoc, List.append_assoc]
    exact fun hkind ↦ headKind_names h _ (List.mem_cons_of_mem _ hkind)

/-- The tokens of a clause are read as an import declaration that has this clause. -/
theorem importDeclaration_gives (h : clause.Readable) (hfinal : context.final.kind = .eof)
    (hrounds : clause.specifiers.length < g.rounds) (hsigns : cursor.signs = clause.signs ++ rest) :
    g.importDeclaration.Gives context cursor
      (fun node ↦ ∃ range, node = .plain range (.imports clause)) rest := by
  refine current_gives_token.bind fun start place _ hplace ↦ ?_
  replace hplace := hplace.trans hsigns
  unfold ImportClause.signs at hplace
  dsimp only at hplace
  split at hplace
  · next heffect =>
    refine (discard_expect_gives hplace).bind fun _ behind _ hbehind ↦ ?_
    refine (current_gives hbehind).bind fun first atSource hfirst hatSource ↦ ?_
    refine (accept_gives hatSource).bind fun accepted atEnd haccepted hatEnd ↦ ?_
    rw [haccepted, if_pos rfl]
    refine (semicolon_gives hatEnd).bind fun _ last _ hlast ↦ ?_
    have hsource : ({ source := first.value } : ImportClause) = clause := by
      rw [show first.value = clause.source from congrArg Sign.value hfirst]
      exact (h.eq_of_effects heffect).symm
    rw [hsource]
    exact Term.node_gives hlast fun range ↦ ⟨range, rfl⟩
  · next heffect =>
    have heffect : clause.isSideEffect = false := by simpa using heffect
    rw [ImportClause.intercalate_parts h.single heffect, List.cons_append, List.append_assoc,
      List.append_assoc] at hplace
    refine (discard_expect_gives hplace).bind fun _ behind _ hbehind ↦ ?_
    refine current_gives_token.bind fun _ atNames _ hatNames ↦ ?_
    replace hatNames := hatNames.trans hbehind
    have hstring : headKind atNames.signs ≠ .string := by
      rw [hatNames]
      exact fun hstring ↦ headKind_names h _ (by rw [hstring]; exact List.mem_cons_self)
    refine (accept_gives_false hfinal hstring).bind fun isString atType hisString hatType ↦ ?_
    rw [hisString, if_neg Bool.false_ne_true]
    replace hatType := hatType.trans hatNames
    refine (acceptTypeOnly_gives h hfinal hatType).bind fun typeOnly atDefault htype hatDefault ↦ ?_
    refine (importDefault_gives_clause h hfinal hatDefault).bind
      fun found atInner hfound hatInner ↦ ?_
    subst hfound htype
    dsimp only
    cases hmore : clause.defaultName.isEmpty || clause.hasNames with
    | true =>
      rw [hmore, if_pos rfl] at hatInner
      rw [if_pos rfl]
      refine (importNames_gives h hfinal hrounds hatInner).bind fun names atFrom hnames hatFrom ↦ ?_
      subst hnames
      exact importOrigin_gives hfinal hatFrom
    | false =>
      rw [hmore, if_neg Bool.false_ne_true] at hatInner
      rw [if_neg Bool.false_ne_true]
      have hnone : clause.namespaceName = [] ∧ clause.specifiers = [] := by
        simpa [ImportClause.hasNames] using (Bool.or_eq_false_iff.mp hmore).2
      have hpure : (pure ([], []) : Parse (Bytes × List ImportSpecifier)).Gives context atInner
          (· = (clause.namespaceName, clause.specifiers)) atInner.signs :=
        .pure (by rw [hnone.1, hnone.2])
      refine hpure.bind fun names atFrom hnames hatFrom ↦ ?_
      subst hnames
      exact importOrigin_gives hfinal (hatFrom.trans hatInner)

end

end Grammar

end SignalView
