import SignalView.Proofs.Grammar.Reading
import SignalView.Proofs.Token.Succession

/-!
# The names of import declarations

An import declaration that is read from the tokens of a source has names that are written as such:
each of them stands behind a word, a comma or an opening brace, and the declaration goes on behind
it. Whether a name is a word of its own is not looked at, so a name stays in question until the
token behind it is known.
-/

namespace SignalView

/-- A name that can be bound: one that is no word, or a contextual word. -/
def IsBindingName (name : Bytes) : Prop :=
  ∃ kind : TokenKind, kind.isName = true ∧ Sign.Written ⟨kind, name⟩

/-- The name of an export: a name, any word, or a string in quotes. -/
def IsExportName (name : Bytes) : Prop :=
  (∃ kind, Sign.Written ⟨kind, name⟩) ∨ ∃ value, name = Quoted.quoted value

/-- The name of an export and the name that it is bound to. -/
structure IsImportPair (imported localName : Bytes) : Prop where
  exported : IsExportName imported
  bound : localName = imported ∨ IsBindingName localName

abbrev ImportSpecifier.WellNamed (s : ImportSpecifier) : Prop :=
  IsImportPair s.imported s.localName

/-- The names of a clause are written as names. -/
structure ImportClause.WellNamed (clause : ImportClause) : Prop where
  defaultName : clause.defaultName = [] ∨ IsBindingName clause.defaultName
  namespaceName : clause.namespaceName = [] ∨ IsBindingName clause.namespaceName
  specifiers : ∀ s ∈ clause.specifiers, s.WellNamed

/-! ## Places in a source -/

namespace TokenCursor

/-- Code goes on behind the token in front. -/
def LeadsCode (cursor : TokenCursor) : Prop :=
  ∃ first older, cursor.before = first :: older ∧ first.kind.leadsCode = true

/-- Something is known as soon as there is a token ahead that is no error. -/
def Once (cursor : TokenCursor) (p : Prop) : Prop :=
  ∀ next after, cursor.after = next :: after → next.kind ≠ .error → p

theorem Once.mono {cursor : TokenCursor} {p q : Prop} (h : cursor.Once p) (hmono : p → q) :
    cursor.Once q := fun next after hafter hnext ↦ hmono (h next after hafter hnext)

end TokenCursor

/-- A place in tokens whose names are written as such. -/
structure InNamed (tokens : List Token) (context : ParseContext) (cursor : TokenCursor) : Prop where
  final_kind : context.final.kind = .eof
  written : NamesWritten tokens
  tokens_eq : cursor.before.reverse ++ cursor.after = tokens

section

variable {tokens after : List Token} {context : ParseContext} {cursor cursor' : TokenCursor}
  {token : Token}

theorem InNamed.advance (h : InNamed tokens context cursor)
    (hafter : cursor.after = token :: after) :
    InNamed tokens context ⟨token :: cursor.before, after⟩ where
  final_kind := h.final_kind
  written := h.written
  tokens_eq := by
    rw [← h.tokens_eq, hafter]
    simp

theorem TokenCursor.leadsCode_advance (hleads : token.kind.leadsCode = true) :
    TokenCursor.LeadsCode ⟨token :: cursor.before, after⟩ := ⟨token, cursor.before, rfl, hleads⟩

/-- A name behind a token that leads code is written as such once the token behind it is known. -/
theorem InNamed.written_once (h : InNamed tokens context cursor) (hleads : cursor.LeadsCode)
    (hafter : cursor.after = token :: after) (hname : token.kind.isMemberName = true) :
    TokenCursor.Once ⟨token :: cursor.before, after⟩ token.sign.Written := by
  intro next rest hnext herror
  obtain ⟨first, older, hbefore, hfirst⟩ := hleads
  have htokens : tokens = older.reverse ++ first :: token :: next :: rest := by
    rw [← h.tokens_eq, hbefore, hafter, show after = next :: rest from hnext]
    simp
  exact h.written htokens hfirst hname herror

end

namespace Grammar

open Parse

variable {tokens : List Token} {context : ParseContext} {cursor cursor' : TokenCursor}
  {name : Bytes} {message : String} {p : Prop}

/-! ## Marks and words -/

theorem accept_named {kind : TokenKind} (hin : InNamed tokens context cursor)
    (h : accept kind context cursor = .ok true cursor') (hkind : kind ≠ .eof)
    (hleads : kind.leadsCode = true) : InNamed tokens context cursor' ∧ cursor'.LeadsCode := by
  obtain ⟨-, token, after, hafter, rfl, rfl⟩ | ⟨hfalse, -⟩ := accept_eq_ok hin.final_kind h hkind
  · exact ⟨hin.advance hafter, TokenCursor.leadsCode_advance hleads⟩
  · cases hfalse

theorem accept_settles {kind : TokenKind} (hin : InNamed tokens context cursor)
    (h : accept kind context cursor = .ok true cursor') (hkind : kind ≠ .eof)
    (herror : kind ≠ .error) (honce : cursor.Once p) : p := by
  obtain ⟨-, token, after, hafter, rfl, -⟩ | ⟨hfalse, -⟩ := accept_eq_ok hin.final_kind h hkind
  · exact honce token after hafter herror
  · cases hfalse

theorem accept_false {kind : TokenKind} (hin : InNamed tokens context cursor)
    (h : accept kind context cursor = .ok false cursor') (hkind : kind ≠ .eof) :
    cursor = cursor' := by
  obtain ⟨htrue, -⟩ | ⟨-, hcursor⟩ := accept_eq_ok hin.final_kind h hkind
  · cases htrue
  · exact hcursor.symm

theorem discard_expect_eq_ok {kind : TokenKind} {done : Unit} (hfinal : context.final.kind = .eof)
    (h : (discard (expect kind message) : Parse Unit) context cursor = .ok done cursor')
    (hkind : kind ≠ .eof) :
    ∃ token after, cursor.after = token :: after ∧ token.kind = kind ∧
      cursor' = ⟨token :: cursor.before, after⟩ := by
  obtain ⟨token, middle, hexpect, h⟩ := bind_eq_ok h
  cases h
  obtain ⟨htoken, after, hafter, rfl⟩ := expect_eq_ok hfinal hexpect hkind
  exact ⟨token, after, hafter, htoken, rfl⟩

/-! ## Names -/

theorem take_eq_ok {token : Token} {after : List Token} (hafter : cursor.after = token :: after)
    (h : take context cursor = .ok name cursor') :
    name = token.value ∧ cursor' = ⟨token :: cursor.before, after⟩ := by
  rw [take_of_cons hafter] at h
  cases h
  exact ⟨rfl, rfl⟩

theorem isMemberName_of_isName {kind : TokenKind} (h : kind.isName = true) :
    kind.isMemberName = true := by
  cases kind <;> first | rfl | cases h

/-- A name is ahead. -/
theorem exists_cons_of_isName (hfinal : context.final.kind = .eof)
    (h : (cursor.after.head?.getD context.final).kind.isMemberName = true) :
    ∃ token after, cursor.after = token :: after ∧ token.kind.isMemberName = true := by
  obtain ⟨after, hafter⟩ := exists_cons hfinal rfl (by rintro heof; rw [heof] at h; cases h)
  exact ⟨_, after, hafter, h⟩

theorem take_named (hin : InNamed tokens context cursor) (hleads : cursor.LeadsCode)
    (hname : (cursor.after.head?.getD context.final).kind.isName = true)
    (h : take context cursor = .ok name cursor') :
    InNamed tokens context cursor' ∧ cursor'.Once (IsBindingName name) := by
  obtain ⟨token, after, hafter, hmember⟩ :=
    exists_cons_of_isName hin.final_kind (isMemberName_of_isName hname)
  obtain ⟨rfl, rfl⟩ := take_eq_ok hafter h
  refine ⟨hin.advance hafter, (hin.written_once hleads hafter hmember).mono fun hwritten ↦ ?_⟩
  rw [hafter] at hname
  exact ⟨token.kind, hname, hwritten⟩

theorem expectName_named (hin : InNamed tokens context cursor) (hleads : cursor.LeadsCode)
    (h : expectName message context cursor = .ok name cursor') :
    InNamed tokens context cursor' ∧ cursor'.Once (IsBindingName name) := by
  obtain ⟨isName, middle, hahead, h⟩ := bind_eq_ok h
  cases hahead
  split at h
  · next hname =>
    rw [← List.head?_eq_getElem?] at hname
    exact take_named hin hleads hname h
  · obtain ⟨token, middle, -, h⟩ := bind_eq_ok h
    cases h

theorem exchangedName_named (hin : InNamed tokens context cursor) (hleads : cursor.LeadsCode)
    (h : exchangedName context cursor = .ok name cursor') :
    InNamed tokens context cursor' ∧ cursor'.Once (IsExportName name) := by
  rw [exchangedName, bind_of_ok current_eq] at h
  obtain ⟨accepted, behind, haccept, h⟩ := bind_eq_ok h
  cases accepted with
  | true =>
    obtain ⟨-, token, after, hafter, -, rfl⟩ | ⟨hfalse, -⟩ :=
      accept_eq_ok hin.final_kind haccept nofun
    · obtain ⟨rfl, rfl⟩ := pure_eq_ok h
      exact ⟨hin.advance hafter, fun _ _ _ _ ↦ .inr ⟨_, rfl⟩⟩
    · cases hfalse
  | false =>
    obtain rfl := accept_false hin haccept nofun
    rw [if_neg Bool.false_ne_true, expectMemberName, bind_of_ok current_eq] at h
    split at h
    · next hname =>
      obtain ⟨token, after, hafter, hmember⟩ := exists_cons_of_isName hin.final_kind hname
      obtain ⟨rfl, rfl⟩ := take_eq_ok hafter h
      exact ⟨hin.advance hafter,
        (hin.written_once hleads hafter hmember).mono fun hwritten ↦ .inl ⟨_, hwritten⟩⟩
    · obtain ⟨token, middle, -, h⟩ := bind_eq_ok h
      cases h

/-- A word `type` that is passed leads code as well. -/
theorem advanceIf_named {marks result : Bool} (hin : InNamed tokens context cursor)
    (hleads : cursor.LeadsCode)
    (h : (do
      if (← atWord .type) && marks then
        advance
        return true
      else return false : Parse Bool) context cursor = .ok result cursor') :
    InNamed tokens context cursor' ∧ cursor'.LeadsCode := by
  rw [bind_of_ok (atWord_eq _ hin.final_kind)] at h
  split at h
  · next hmarks =>
    obtain ⟨done, middle, hadvance, h⟩ := bind_eq_ok h
    obtain ⟨rfl, rfl⟩ := pure_eq_ok h
    have hkind := eq_of_beq (Bool.and_eq_true_iff.mp hmarks).1
    rw [← current_kind hin.final_kind] at hkind
    obtain ⟨after, hafter⟩ := exists_cons hin.final_kind rfl (by rw [hkind]; nofun)
    rw [advance_of_cons hafter] at hadvance
    cases hadvance
    exact ⟨hin.advance hafter, TokenCursor.leadsCode_advance (by rw [hkind]; rfl)⟩
  · obtain ⟨rfl, rfl⟩ := pure_eq_ok h
    exact ⟨hin, hleads⟩

theorem acceptTypeMark_named {isType : Bool} (hin : InNamed tokens context cursor)
    (hleads : cursor.LeadsCode) (h : acceptTypeMark context cursor = .ok isType cursor') :
    InNamed tokens context cursor' ∧ cursor'.LeadsCode := by
  obtain ⟨next, middle, hpeek, h⟩ := bind_eq_ok h
  cases hpeek
  exact advanceIf_named hin hleads h

theorem acceptTypeOnly_named {typeOnly : Bool} (hin : InNamed tokens context cursor)
    (hleads : cursor.LeadsCode) (h : acceptTypeOnly context cursor = .ok typeOnly cursor') :
    InNamed tokens context cursor' ∧ cursor'.LeadsCode := by
  obtain ⟨next, middle, hpeek, h⟩ := bind_eq_ok h
  cases hpeek
  obtain ⟨behind, middle, hpeek, h⟩ := bind_eq_ok h
  cases hpeek
  exact advanceIf_named hin hleads h

/-! ## Import lists -/

theorem importSpecifier_named {s : ImportSpecifier} (hin : InNamed tokens context cursor)
    (hleads : cursor.LeadsCode) (h : importSpecifier context cursor = .ok s cursor') :
    InNamed tokens context cursor' ∧ cursor'.Once s.WellNamed := by
  obtain ⟨isType, atName, hmark, h⟩ := bind_eq_ok h
  obtain ⟨hin, hleads⟩ := acceptTypeMark_named hin hleads hmark
  obtain ⟨imported, behind, hname, h⟩ := bind_eq_ok h
  obtain ⟨hin, honce⟩ := exchangedName_named hin hleads hname
  obtain ⟨accepted, atLocal, haccept, h⟩ := bind_eq_ok h
  cases accepted with
  | true =>
    have himported := accept_settles hin haccept nofun nofun honce
    obtain ⟨hin, hleads⟩ := accept_named hin haccept nofun rfl
    obtain ⟨localName, last, hlocal, h⟩ := bind_eq_ok h
    obtain ⟨rfl, rfl⟩ := pure_eq_ok h
    obtain ⟨hin, honce⟩ := expectName_named hin hleads hlocal
    exact ⟨hin, honce.mono fun hbinding ↦ ⟨himported, .inr hbinding⟩⟩
  | false =>
    obtain rfl := accept_false hin haccept nofun
    cases h
    exact ⟨hin, honce.mono fun himported ↦ ⟨himported, .inl rfl⟩⟩

theorem importSpecifiers_named {rounds : Nat} {specifiers : List ImportSpecifier}
    (hin : InNamed tokens context cursor) (hleads : cursor.LeadsCode)
    (h : commaList rounds (beforeMark .closeBrace) importSpecifier context cursor =
      .ok specifiers cursor') :
    InNamed tokens context cursor' ∧ cursor'.Once (∀ s ∈ specifiers, s.WellNamed) := by
  rw [commaList, looseList_eq] at h
  have hround {items next : List ImportSpecifier} {more : Bool} {place behind : TokenCursor}
      (hplace : InNamed tokens context place ∧ place.LeadsCode ∧ ∀ s ∈ items, s.WellNamed)
      (hrun : listRound (beforeMark .closeBrace) (do return (← importSpecifier, true)) items context
        place = .ok (next, more) behind) :
      InNamed tokens context behind ∧ behind.Once (∀ s ∈ next, s.WellNamed) ∧
        (more = true → behind.LeadsCode ∧ ∀ s ∈ next, s.WellNamed) := by
    obtain ⟨hin, hleads, hitems⟩ := hplace
    obtain ⟨asked, middle, hasked, hrun⟩ := bind_eq_ok hrun
    obtain rfl := (before_eq_ok hasked).symm
    cases asked with
    | false =>
      cases hrun
      exact ⟨hin, fun _ _ _ _ ↦ hitems, by simp⟩
    | true =>
      obtain ⟨⟨new, needsComma⟩, last, hitem, hrun⟩ := bind_eq_ok hrun
      obtain ⟨_, _, hspecifier, hitem⟩ := bind_eq_ok hitem
      cases hitem
      obtain ⟨hin, honce⟩ := importSpecifier_named hin hleads hspecifier
      have hall (hnew : new.WellNamed) : ∀ s ∈ items ++ [new], s.WellNamed := by
        simpa [or_imp, forall_and] using And.intro hitems hnew
      obtain ⟨comma, behindComma, hcomma, hrun⟩ := bind_eq_ok hrun
      cases hrun
      cases more with
      | true =>
        have hnew := accept_settles hin hcomma (by simp) (by simp) honce
        obtain ⟨hin, hleads⟩ := accept_named hin hcomma (by simp) rfl
        exact ⟨hin, fun _ _ _ _ ↦ hall hnew, fun _ ↦ ⟨hleads, hall hnew⟩⟩
      | false =>
        obtain rfl := accept_false hin hcomma (by simp)
        exact ⟨hin, honce.mono hall, by simp⟩
  -- Up to a comma all names of the list are known, and behind the last comma all but one.
  refine iterate_eq_ok (P := fun items place ↦
      InNamed tokens context place ∧ place.LeadsCode ∧ ∀ s ∈ items, s.WellNamed)
    (Q := fun items place ↦ InNamed tokens context place ∧ place.Once (∀ s ∈ items, s.WellNamed))
    ?_ ?_ ⟨hin, hleads, by simp⟩ h
  · intro items next place behind hplace hrun
    obtain ⟨hin, -, hmore⟩ := hround hplace hrun
    exact ⟨hin, hmore rfl⟩
  · intro items next place behind hplace hrun
    obtain ⟨hin, honce, -⟩ := hround hplace hrun
    exact ⟨hin, honce⟩

/-! ## Declarations -/

variable {g : Grammar}

theorem importNames_named {namespaceName : Bytes} {specifiers : List ImportSpecifier}
    (hin : InNamed tokens context cursor)
    (h : g.importNames context cursor = .ok (namespaceName, specifiers) cursor') :
    InNamed tokens context cursor' ∧
      cursor'.Once ((namespaceName = [] ∨ IsBindingName namespaceName) ∧
        ∀ s ∈ specifiers, s.WellNamed) := by
  obtain ⟨isStar, atStar, hstar, h⟩ := bind_eq_ok h
  cases isStar with
  | true =>
    obtain ⟨hin, -⟩ := accept_named hin hstar nofun rfl
    obtain ⟨done, behind, has, h⟩ := bind_eq_ok h
    obtain ⟨token, after, hafter, hkind, rfl⟩ := discard_expect_eq_ok hin.final_kind has nofun
    obtain ⟨name, last, hname, h⟩ := bind_eq_ok h
    cases h
    obtain ⟨hin, honce⟩ := expectName_named (hin.advance hafter)
      (TokenCursor.leadsCode_advance (by rw [hkind]; rfl)) hname
    exact ⟨hin, honce.mono fun hbinding ↦ ⟨.inr hbinding, by simp⟩⟩
  | false =>
    obtain rfl := accept_false hin hstar nofun
    obtain ⟨isBrace, behind, hbrace, h⟩ := bind_eq_ok h
    cases isBrace with
    | true =>
      obtain ⟨hin, hleads⟩ := accept_named hin hbrace nofun rfl
      obtain ⟨found, atClose, hlist, h⟩ := bind_eq_ok h
      obtain ⟨hin, honce⟩ := importSpecifiers_named hin hleads hlist
      obtain ⟨done, last, hclose, h⟩ := bind_eq_ok h
      obtain ⟨token, after, hafter, hkind, rfl⟩ := discard_expect_eq_ok hin.final_kind hclose nofun
      cases h
      have hall := honce token after hafter (by rw [hkind]; nofun)
      exact ⟨hin.advance hafter, fun _ _ _ _ ↦ ⟨.inl rfl, hall⟩⟩
    | false =>
      obtain ⟨token, middle, -, h⟩ := bind_eq_ok h
      cases h

theorem importDefault_named {defaultName : Bytes} {more : Bool}
    (hin : InNamed tokens context cursor) (hleads : cursor.LeadsCode)
    (h : importDefault context cursor = .ok (defaultName, more) cursor') :
    InNamed tokens context cursor' ∧
      cursor'.Once (defaultName = [] ∨ IsBindingName defaultName) ∧
      (more = true → defaultName = [] ∨ IsBindingName defaultName) := by
  obtain ⟨isName, middle, hname, h⟩ := bind_eq_ok h
  cases hname
  rw [bind_of_ok (atWord_eq _ hin.final_kind)] at h
  split at h
  · next hahead =>
    obtain ⟨name, behind, htake, h⟩ := bind_eq_ok h
    have hname := (Bool.and_eq_true_iff.mp hahead).1
    rw [← List.head?_eq_getElem?] at hname
    obtain ⟨hin, honce⟩ := take_named hin hleads hname htake
    obtain ⟨comma, last, hcomma, h⟩ := bind_eq_ok h
    cases h
    cases more with
    | true =>
      have hbinding := accept_settles hin hcomma nofun nofun honce
      exact ⟨(accept_named hin hcomma nofun rfl).1, fun _ _ _ _ ↦ .inr hbinding,
        fun _ ↦ .inr hbinding⟩
    | false =>
      obtain rfl := accept_false hin hcomma nofun
      exact ⟨hin, honce.mono .inr, nofun⟩
  · rw [bind_of_ok (atWord_eq _ hin.final_kind)] at h
    obtain ⟨isFrom, middle, hfrom, h⟩ := bind_eq_ok h
    cases hfrom
    split at h
    · next hahead =>
      obtain ⟨name, behind, htake, h⟩ := bind_eq_ok h
      cases h
      have hkind := eq_of_beq (Bool.and_eq_true_iff.mp hahead).1
      rw [← current_kind hin.final_kind] at hkind
      obtain ⟨hin, honce⟩ := take_named hin hleads (by rw [hkind]; rfl) htake
      exact ⟨hin, honce.mono .inr, nofun⟩
    · cases h
      exact ⟨hin, fun _ _ _ _ ↦ .inl rfl, fun _ ↦ .inl rfl⟩

/-- What was in question in front of `from` is known behind it. -/
theorem importOrigin_named {start : Token} {clause : ImportClause} {range : Range}
    {make : Bytes → ImportClause} (hin : InNamed tokens context cursor) (honce : cursor.Once p)
    (h : (do
      if !(← acceptWord .from_) then fail "PSR-P003" message
      let source ← modulePath
      importAttributes
      semicolon
      node start (.imports (make source)) : Parse Node) context cursor =
        .ok (.plain range (.imports clause)) cursor') :
    p ∧ ∃ source, clause = make source := by
  obtain ⟨isFrom, behind, hfrom, h⟩ := bind_eq_ok h
  cases isFrom with
  | true =>
    obtain ⟨source, _, -, h⟩ := bind_eq_ok h
    obtain ⟨_, _, -, h⟩ := bind_eq_ok h
    obtain ⟨_, _, -, h⟩ := bind_eq_ok h
    cases h
    exact ⟨accept_settles hin hfrom nofun nofun honce, source, rfl⟩
  | false =>
    obtain ⟨_, _, hfail, -⟩ := bind_eq_ok h
    obtain ⟨_, _, -, hfail⟩ := bind_eq_ok hfail
    cases hfail

/-- An import declaration that is read from tokens whose names are written as such. -/
theorem importDeclaration_wellNamed {range : Range} {clause : ImportClause}
    (hin : InNamed tokens context cursor)
    (h : g.importDeclaration context cursor = .ok (.plain range (.imports clause)) cursor') :
    clause.WellNamed := by
  rw [importDeclaration, bind_of_ok current_eq] at h
  obtain ⟨done, behind, himport, h⟩ := bind_eq_ok h
  obtain ⟨token, after, hafter, hkind, rfl⟩ := discard_expect_eq_ok hin.final_kind himport nofun
  have hleads : TokenCursor.LeadsCode ⟨token :: cursor.before, after⟩ :=
    TokenCursor.leadsCode_advance (by rw [hkind]; rfl)
  replace hin := hin.advance hafter
  rw [bind_of_ok current_eq] at h
  obtain ⟨isString, atClause, hstring, h⟩ := bind_eq_ok h
  cases isString with
  | true =>
    obtain ⟨done, last, -, h⟩ := bind_eq_ok h
    cases h
    exact ⟨.inl rfl, .inl rfl, by simp⟩
  | false =>
    obtain rfl := accept_false hin hstring nofun
    obtain ⟨typeOnly, atDefault, htypeOnly, h⟩ := bind_eq_ok h
    obtain ⟨hin, hleads⟩ := acceptTypeOnly_named hin hleads htypeOnly
    obtain ⟨⟨defaultName, more⟩, atNames, hdefault, h⟩ := bind_eq_ok h
    obtain ⟨hin, honce, hmore⟩ := importDefault_named hin hleads hdefault
    dsimp only at h
    cases more with
    | true =>
      rw [if_pos rfl] at h
      obtain ⟨⟨namespaceName, specifiers⟩, atFrom, hnames, h⟩ := bind_eq_ok h
      obtain ⟨hin, honce⟩ := importNames_named hin hnames
      obtain ⟨hknown, source, rfl⟩ := importOrigin_named hin honce h
      exact ⟨hmore rfl, hknown.1, hknown.2⟩
    | false =>
      obtain ⟨hknown, source, rfl⟩ := importOrigin_named hin honce h
      exact ⟨hknown, .inl rfl, by simp⟩

end Grammar

/-! ## Sources -/

/-- A clause that is read somewhere in the tokens of a source. -/
def ImportClause.IsRead (clause : ImportClause) : Prop :=
  ∃ (options : LexerOptions) (source : Bytes) (tokens : List Token) (level : Nat)
    (context : ParseContext) (start stop : TokenCursor) (range : Range),
    (tokenize options source).result = .ok tokens ∧
      (start.before.reverse ++ start.after, context.final) = Program.splitFinal tokens ∧
      (grammar level).importDeclaration context start = .ok (.plain range (.imports clause)) stop

theorem ImportClause.IsRead.wellNamed {clause : ImportClause} (h : clause.IsRead) :
    clause.WellNamed := by
  obtain ⟨options, source, tokens, level, context, start, stop, range, htokens, hplace, hrun⟩ := h
  obtain ⟨front, final, rfl, hfinal, hwritten⟩ := tokenize_namesWritten htokens
  rw [Program.splitFinal_concat hfinal, Prod.mk.injEq] at hplace
  refine Grammar.importDeclaration_wellNamed ⟨?_, hwritten, hplace.1⟩ hrun
  rw [hplace.2, hfinal]

end SignalView
