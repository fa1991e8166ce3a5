import SignalView.Proofs.Expression.Lexed
import SignalView.Proofs.Expression.Statement
import SignalView.Proofs.Expression.Written

/-!
# Reading the output again

A program of one plain expression is written to a text that is read as the same expression again,
apart from the places of its parts. The exception is a name with an escape `\u` whose brace is never
closed: such a name reaches to the end of the source, and in the output it swallows the semicolon
and the line end that are written behind it. So the round trip succeeds exactly when the escapes of
all names are closed.
-/

namespace SignalView

/-! ## Tokens of a source -/

/-- The tokens of a strict run are spelled as they are written, and no word stands behind a dot. -/
theorem AllScanned.spelled {source : Bytes} {front : List Token} (h : AllScanned source front) :
    Spelled front := by
  have hscan {before after : List Token} {token : Token}
      (hfront : front = before ++ token :: after) :
      Scan.CodeToken (before.getLast?.map (·.kind)) (source.drop token.start.offset) token.kind
        token.value ∨ Scan.MarkupToken token.kind token.value := by
    obtain ⟨lexer, rfl, -, hrest, hscan⟩ := h before token after hfront
    rw [← hrest]
    exact lexer.scan_token hscan
  have hword {before after : List Token} {token : Token} {w : Word}
      (hfront : front = before ++ token :: after) (hw : token.kind = .word w) :
      token.value = bytes w.spelling ∧ isDot (before.getLast?.map (·.kind)) = false := by
    have htoken := hscan hfront
    rw [hw] at htoken
    rcases htoken with hcode | hmarkup
    · exact hcode.word_eq
    · cases hmarkup
  constructor
  · intro token hmem m hm
    obtain ⟨before, after, hfront⟩ := List.append_of_mem hmem
    have htoken := hscan hfront
    rw [hm] at htoken
    rcases htoken with hcode | hmarkup
    · exact hcode.mark_eq.2
    · generalize token.value = value at hmarkup
      cases hmarkup
      rfl
  · intro token hmem w hw
    obtain ⟨before, after, hfront⟩ := List.append_of_mem hmem
    exact (hword hfront hw).1
  · intro before dot name after hfront hdot
    cases hkind : name.kind with
    | word w =>
      have hbehind : front = before ++ [dot] ++ name :: after := by simp [hfront]
      have hnodot := (hword hbehind hkind).2
      rw [List.getLast?_concat, Option.map_some, hdot] at hnodot
      cases hnodot
    | _ => rfl

/-- Nothing follows a name that reaches to the end of the source. -/
theorem Tiles.eq_nil_of_drop_eq {source : Bytes} {front before after : List Token} {token : Token}
    (h : Tiles source front) (hkinds : ∀ other ∈ front, other.kind ≠ .eof)
    (hfront : front = before ++ token :: after) (hkind : token.kind = .identifier)
    (hrest : source.drop token.start.offset = token.value) : after = [] := by
  have hplaced := h before token after hfront
  have hspells := hplaced.spells
  rw [hkind] at hspells
  have hvalue : slice source token.start.offset token.stop = token.value := hspells
  have hstop : token.stop = source.length := by
    have hlength := congrArg List.length (hvalue.trans hrest.symm)
    have hinside := hplaced.inside
    have hordered := hplaced.ordered
    simp only [slice, List.length_take, List.length_drop] at hlength
    omega
  cases after with
  | nil => rfl
  | cons next after =>
    have hnextFront : front = before ++ [token] ++ next :: after := by simp [hfront]
    have hnext := h _ next after hnextFront
    have hbehind := hnext.behind
    have hinside := hnext.inside
    have hnonempty := hnext.nonempty (hkinds next (by simp [hfront]))
    rw [endOf_concat] at hbehind
    omega

theorem Sign.Readable.of_endsTerm_eq_false {sign : Sign} (h : sign.kind.endsTerm = false) :
    sign.Readable := by
  constructor
  · intro hkind
    rw [hkind] at h
    cases h
  · rintro (hkind | hkind) <;> rw [hkind] at h <;> cases h

/-- The first token of a text that is cut. -/
theorem Cuts.head_eq {previous last : Option TokenKind} {after text : Bytes} {signs : List Sign}
    (h : Cuts after previous text signs last) {b : UInt8} (hhead : text.head? = some b)
    (hb : b ≠ 32) : ∃ sign more length, signs = sign :: more ∧
      Scan.code previous [] (text ++ after) = ⟨.token sign.kind sign.value length, []⟩ := by
  cases h with
  | nil _ => cases hhead
  | space _ => exact absurd (Option.some.inj hhead).symm hb
  | token _ hlexes _ =>
    have hcode := hlexes.code_eq
    rw [← List.append_assoc] at hcode
    exact ⟨_, _, _, rfl, hcode⟩

namespace Term

/-- The source is read as a program of one expression, and the term is that expression. -/
def IsReadFrom (t : Term) (lexer : LexerOptions) (parser : Program.Options) (source : Bytes)
    (root : Node) : Prop :=
  ∃ tokens range range' node, (tokenize lexer source).result = .ok tokens ∧
    Program.parse parser tokens = .ok ⟨root, []⟩ ∧
    root = .surface range (.program [.plain range' (.expressionStatement node)]) ∧ t.Depicts node

/-- The tokens of a source that a term was read from. -/
structure Traced (t : Term) (source : Bytes) (front : List Token) : Prop where
  scanned : AllScanned source front
  tiles : Tiles source front
  kinds : ∀ token ∈ front, token.kind ≠ .eof
  noTags : ∀ token ∈ front, token.kind ≠ .mark .tagOpen
  endings_eq : endings (front.map Token.sign) = endings t.signs
  fits : Fits .assignment t

variable {t : Term} {source : Bytes} {front : List Token}

theorem IsReadFrom.traced {lexer : LexerOptions} {parser : Program.Options} {root : Node}
    (h : t.IsReadFrom lexer parser source root) (hstrict : lexer.mode = .strict)
    (hplain : t.HasPlainNames) : ∃ front, t.Traced source front := by
  obtain ⟨tokens, range, range', node, htokens, hparse, rfl, hdepicts⟩ := h
  obtain ⟨front, final, rfl, hfinal, hscanned, htiles, hkinds⟩ :=
    tokenize_allScanned hstrict htokens
  obtain ⟨hnoTags, hendings, hfits⟩ :=
    fits_of_parse hfinal hscanned.spelled hparse hdepicts hplain
  exact ⟨front, hscanned, htiles, hkinds, hnoTags, hendings, hfits⟩

/-- A token of a term can be read again, unless it is a name with an open escape at the end of the
source. -/
theorem Traced.readable (h : t.Traced source front) {sign : Sign} (hsign : sign ∈ t.signs) :
    sign.Readable ∨ sign.kind = .identifier ∧ Literal.OpenName sign.value ∧
      sign.value <:+ source ∧ ∃ before, front.map Token.sign = before ++ [sign] := by
  cases hends : sign.kind.endsTerm with
  | false => exact .inl (.of_endsTerm_eq_false hends)
  | true =>
    have hmem : sign ∈ endings (front.map Token.sign) := by
      rw [h.endings_eq]
      exact List.mem_filter.mpr ⟨hsign, hends⟩
    obtain ⟨token, htoken, rfl⟩ := List.mem_map.mp (List.mem_filter.mp hmem).1
    obtain ⟨before, after, hfront⟩ := List.append_of_mem htoken
    refine (h.scanned.codeToken h.noTags hfront).readable.imp_right ?_
    rintro ⟨hkind, hopen, hrest⟩
    obtain rfl := h.tiles.eq_nil_of_drop_eq h.kinds hfront hkind hrest
    have hsuffix : token.value <:+ source := hrest ▸ List.drop_suffix _ _
    exact ⟨hkind, hopen, hsuffix, before.map Token.sign, by simp [hfront]⟩

/-- The escapes of all names are closed. -/
def ClosedNames (t : Term) : Prop :=
  ∀ sign ∈ t.signs, sign.kind = .identifier → Literal.escapesClosed sign.value = true

theorem Traced.readable_of_closedNames (h : t.Traced source front) (hclosed : t.ClosedNames) :
    ∀ sign ∈ t.signs, sign.Readable := by
  intro sign hsign
  rcases h.readable hsign with hread | ⟨hkind, hopen, -⟩
  · exact hread
  · have hfalse := hopen.escapesClosed
    rw [hclosed sign hsign hkind] at hfalse
    cases hfalse

/-! ## Closed names -/

theorem not_starts_function : ¬ Starts (.word .function) := by
  intro h
  generalize hkind : TokenKind.word .function = kind at h
  revert hkind
  refine h.elim nofun nofun nofun nofun nofun nofun fun op ↦ ?_
  cases op <;> nofun

/-- A term does not start with the word of a function, behind which no name goes on. -/
theorem Fits.not_function {after : Bytes} (more : Bytes) {last : Option TokenKind}
    (h : Fits .assignment t) (hcuts : Cuts after none t.text t.signs last)
    (hmore : Avoids continues more) (hne : more ≠ []) : ¬ bytes "function" ++ more <+: t.text := by
  rintro ⟨rest, hrest⟩
  have hhead : t.text.head? = some (byte 'f') := by
    rw [← hrest]
    rfl
  obtain ⟨sign, others, length, hsigns, hcode⟩ := hcuts.head_eq hhead (by decide)
  have hfollow : Avoids continues (more ++ rest ++ after) := by
    obtain ⟨b, more, rfl⟩ := List.exists_cons_of_ne_nil hne
    exact hmore
  have hlexes : Lexes none (bytes Word.function.spelling) (more ++ rest ++ after)
      ⟨.word .function, bytes Word.function.spelling⟩ := .word .function hfollow rfl
  have hword := hlexes.code_eq
  have htext : bytes Word.function.spelling ++ (more ++ rest ++ after) = t.text ++ after := by
    rw [← hrest]
    simp only [List.append_assoc]
    rfl
  rw [htext, hcode] at hword
  obtain ⟨hkind, -, -⟩ := Lexeme.token.inj (congrArg Scanned.lexeme hword)
  obtain ⟨first, behind, hfirst, hstarts⟩ : StartsAs .assignment t := h.startsAs
  obtain ⟨rfl, -⟩ := List.cons.inj (hsigns.symm.trans hfirst)
  rw [hkind] at hstarts
  exact not_starts_function hstarts

/-- No parentheses are put around a term as a statement. -/
theorem Fits.guardStatement {after : Bytes} {last : Option TokenKind} (h : Fits .assignment t)
    (hread : ∀ sign ∈ t.signs, sign.Readable) (hcuts : Cuts after none t.text t.signs last) :
    Emission.guardStatement t.text = t.text ++ bytes ";" := by
  obtain ⟨b, hhead, hb⟩ := h.headFree nofun hread
  have hbrace : (t.text.head? == some Quoted.openBrace) = false := by
    rw [hhead]
    refine beq_false_of_ne fun heq ↦ ?_
    obtain rfl := Option.some.inj heq
    cases hb
  have hspace : (bytes "function ").isPrefixOf t.text = false := by
    rw [← Bool.not_eq_true, List.isPrefixOf_iff_prefix]
    exact h.not_function (bytes " ") hcuts (by rintro c ⟨⟩; rfl) nofun
  have hparen : (bytes "function(").isPrefixOf t.text = false := by
    rw [← Bool.not_eq_true, List.isPrefixOf_iff_prefix]
    exact h.not_function (bytes "(") hcuts (by rintro c ⟨⟩; rfl) nofun
  simp only [Emission.guardStatement, hbrace, hspace, hparen, Bool.or_false, if_neg,
    Bool.false_eq_true, not_false_eq_true]

/-- A source with the tokens of a term, perhaps with a semicolon behind them, is read as it. -/
theorem Fits.isReadFrom_of_signs (h : Fits .assignment t) {lexer : LexerOptions}
    (parser : Program.Options) {final : Token} {tail : List Sign}
    (htokens : (tokenize lexer source).result = .ok (front ++ [final]))
    (hfinal : final.kind = .eof) (htail : tail = [] ∨ tail = [Mark.semicolon.sign])
    (hsigns : front.map Token.sign = t.signs ++ tail)
    (hdepth : (t.signs.length + 1 : Int) ≤ parser.maxDepth) :
    ∃ root, t.IsReadFrom lexer parser source root := by
  obtain ⟨range, range', node, hparse, hdepicts⟩ := h.parse hfinal htail hsigns hdepth
  exact ⟨_, _, range, range', node, htokens, hparse, rfl, hdepicts⟩

/-- The statement of a term is read as the term again. -/
theorem Fits.isReadFrom (h : Fits .assignment t) (hplain : t.IsPlain)
    (hread : ∀ sign ∈ t.signs, sign.Readable) (lexer : LexerOptions) (parser : Program.Options)
    (hdepth : (t.signs.length + 1 : Int) ≤ parser.maxDepth) :
    ∃ root, t.IsReadFrom lexer parser (Emission.guardStatement t.text ++ bytes "\n") root := by
  have hbehind : Avoids t.goesOn (bytes ";" ++ [10]) := t.avoids_goesOn (byte ';') rfl [10]
  have hfirst : isDot none = false := rfl
  obtain ⟨last, hcuts, -⟩ := h.lexed hplain hread hfirst hbehind
  have hsemicolon : Cuts [10] last (bytes ";") [Mark.semicolon.sign] (some (.mark .semicolon)) :=
    cuts_solid .semicolon (by decide) (by decide)
  obtain ⟨front, final, htokens, hfinal, hsigns⟩ :=
    (hcuts.append hsemicolon).turnsInto (.inr rfl) lexer
  rw [h.guardStatement hread hcuts]
  exact h.isReadFrom_of_signs parser htokens hfinal (.inr rfl) hsigns hdepth

/-! ## Open names -/

theorem suffix_leadingText (op operand : Bytes) :
    operand <:+ Emission.leadingText op operand := by
  unfold Emission.leadingText
  extract_lets isWord runsTogether
  split <;> exact List.suffix_append _ _

/-- The last token of a term, whose text is the end of the term if it is a name. -/
theorem Fits.exists_last {rank : Rank} (h : Fits rank t) (hrank : rank ≠ .element) :
    ∃ more sign, t.signs = more ++ [sign] ∧ sign.kind.endsTerm = true ∧
      (sign.kind = .identifier → sign.value <:+ t.text) := by
  induction h with
  | name spelling => exact ⟨[], _, rfl, rfl, fun _ ↦ List.suffix_rfl⟩
  | number raw isBigint => cases isBigint <;> exact ⟨[], _, rfl, rfl, by rintro ⟨⟩⟩
  | string value => exact ⟨[], _, rfl, rfl, by rintro ⟨⟩⟩
  | paren _ _ | array _ _ => exact ⟨_, _, rfl, rfl, by rintro ⟨⟩⟩
  | call _ _ _ _ => exact ⟨_, Mark.closeParen.sign, rfl, rfl, by rintro ⟨⟩⟩
  | index _ _ _ _ => exact ⟨_, Mark.closeBracket.sign, rfl, rfl, by rintro ⟨⟩⟩
  | member key _ _ =>
    exact ⟨_, ⟨.identifier, key⟩, by rw [signs, ← List.append_cons], rfl,
      fun _ ↦ List.suffix_append _ _⟩
  | unary op h ih =>
    obtain ⟨more, sign, hsigns, hends, hname⟩ := ih (by rintro ⟨⟩)
    refine ⟨op.sign :: more, sign, by rw [signs, hsigns]; rfl, hends, fun hkind ↦ ?_⟩
    exact (hname hkind).trans (suffix_leadingText _ _)
  | @binary _ op left _ _ _ _ _ ih =>
    obtain ⟨more, sign, hsigns, hends, hname⟩ := ih (by rintro ⟨⟩)
    refine ⟨left.signs ++ op.sign :: more, sign, by simp [signs, hsigns], hends, fun hkind ↦ ?_⟩
    exact (hname hkind).trans (List.suffix_append _ _)
  | @conditional test consequent _ _ _ _ _ _ ih =>
    obtain ⟨more, sign, hsigns, hends, hname⟩ := ih (by rintro ⟨⟩)
    refine ⟨test.signs ++ Mark.question.sign :: consequent.signs ++ Mark.colon.sign :: more, sign,
      by simp [signs, hsigns], hends, fun hkind ↦ ?_⟩
    exact (hname hkind).trans (List.suffix_append _ _)
  | spread _ ih =>
    obtain ⟨more, sign, hsigns, hends, hname⟩ := ih (by rintro ⟨⟩)
    refine ⟨Mark.ellipsis.sign :: more, sign, by rw [signs, hsigns]; rfl, hends, fun hkind ↦ ?_⟩
    exact (hname hkind).trans (List.suffix_append _ _)
  | ofOperand _ ih | ofUnary _ ih | ofBinary _ ih | ofAssignment _ ih => exact ih (by rintro ⟨⟩)
  | ofItem _ _ | hole => exact absurd rfl hrank

/-- A text with something behind it does not end as it does without, where what is behind lacks a
byte of it. -/
theorem not_suffix_append {text behind : Bytes} {b : UInt8} (hb : b ∈ text) (hbehind : b ∉ behind)
    (hne : behind ≠ []) : ¬ text <:+ text ++ behind := by
  rintro ⟨front, hfront⟩
  have hcount : front.count b = 0 := by
    have hcounts := congrArg (List.count b) hfront
    rw [List.count_append, List.count_append, List.count_eq_zero.mpr hbehind] at hcounts
    omega
  have hindex := congrArg (List.idxOf b) hfront
  rw [List.idxOf_append, List.idxOf_append, if_neg (List.count_eq_zero.mp hcount), if_pos hb]
    at hindex
  have hlengths := congrArg List.length hfront
  rw [List.length_append, List.length_append] at hlengths
  exact hne (List.eq_nil_of_length_eq_zero (by omega))

/-- A term with an open name is not read from its statement. -/
theorem Traced.not_statement {sign : Sign} {front' : List Token} (h : t.Traced source front)
    (hsign : sign ∈ t.signs) (hkind : sign.kind = .identifier)
    (hopen : Literal.escapesClosed sign.value = false) :
    ¬ t.Traced (Emission.guardStatement t.text ++ bytes "\n") front' := by
  intro hagain
  have hunreadable : ¬ sign.Readable := by
    intro hread
    rw [(hread.name hkind).escapesClosed] at hopen
    cases hopen
  obtain ⟨-, hname, -, before, hbefore⟩ := (h.readable hsign).resolve_left hunreadable
  obtain ⟨-, -, hend, -⟩ := (hagain.readable hsign).resolve_left hunreadable
  -- The open name is the last token of the term, so that its text ends with it.
  obtain ⟨more, last, hlast, hends, hsuffix⟩ := h.fits.exists_last nofun
  have hendings := h.endings_eq
  have hsignEnds : endings [sign] = [sign] := by simp [endings, hkind, TokenKind.endsTerm]
  have hlastEnds : endings [last] = [last] := by simp [endings, hends]
  rw [hbefore, hlast, endings_append, endings_append, hsignEnds, hlastEnds] at hendings
  obtain ⟨-, heq⟩ := List.append_inj' hendings rfl
  obtain ⟨rfl, -⟩ := List.cons.inj heq
  obtain ⟨lead, hlead⟩ := hsuffix hkind
  obtain ⟨opening, closing, hguard, hclosing⟩ := guardStatement_eq t.text
  have houtput : Emission.guardStatement t.text ++ bytes "\n" =
      opening ++ lead ++ (sign.value ++ (closing ++ bytes "\n")) := by
    rw [hguard, ← hlead]
    simp only [List.append_assoc]
  rw [houtput] at hend
  obtain ⟨inside, inner, -, hvalue⟩ := hname
  have hmem : Quoted.backslash ∈ sign.value := by
    rw [hvalue]
    simp
  have hnotMem : Quoted.backslash ∉ closing ++ bytes "\n" := by
    intro hin
    rcases List.mem_append.mp hin with hin | hin
    · rcases hclosing _ hin with hb | hb <;> revert hb <;> decide
    · revert hin
      decide
  refine not_suffix_append hmem hnotMem (by simp [bytes]) ?_
  exact List.suffix_of_suffix_length_le hend (List.suffix_append _ _) (by simp)

/-! ## The round trip -/

/-- With limits of at least some depth, the program is lowered and written to a text that the term
is read from again. -/
def RoundTrips (t : Term) (root : Node) (depth : Int) : Prop :=
  ∀ (lowering : ViewProgram.Options) (script : ScriptOptions) (lexer : LexerOptions)
    (parser : Program.Options), depth ≤ lowering.maxDepth → depth ≤ script.maxDepth →
    depth ≤ parser.maxDepth → lexer.mode = .strict →
    ∃ program state output root', ViewProgram.ofNode lowering root = (.ok program, state) ∧
      Script.ofProgram script program = .ok output ∧
      t.IsReadFrom lexer parser output.text root'

/-- What a term that was read is written to. -/
theorem Fits.written (h : Fits .assignment t) (hplain : t.HasPlainNames) {node : Node}
    (hdepicts : t.Depicts node) (range range' : Range) (lowering : ViewProgram.Options)
    (script : ScriptOptions) (hlowering : (t.signs.length + 2 : Int) ≤ lowering.maxDepth)
    (hscript : (t.signs.length + 2 : Int) ≤ script.maxDepth) :
    ∃ program state output, ViewProgram.ofNode lowering
        (.surface range (.program [.plain range' (.expressionStatement node)])) =
        (.ok program, state) ∧ Script.ofProgram script program = .ok output ∧
      output.text = Emission.guardStatement t.text ++ bytes "\n" := by
  obtain ⟨view, state, hnode, hwrites⟩ :=
    (h.lowers hplain).ofNode hdepicts range range' hlowering
  have hdepth : ((t.signs.length + 1 : Nat) + 1 : Int) ≤ script.maxDepth := by
    push_cast
    omega
  have hprogram := ofProgram_programOf hwrites range'.start.line range'.start.column hdepth
  exact ⟨_, state, _, hnode, hprogram, rfl⟩

/-- A plain expression that was read can be written and read again exactly if the escapes of its
names are closed. -/
theorem roundTrips_iff_closedNames {lexer : LexerOptions} {parser : Program.Options} {root : Node}
    (hstrict : lexer.mode = .strict) (h : t.IsReadFrom lexer parser source root)
    (hplain : t.IsPlain) : (∃ depth, t.RoundTrips root depth) ↔ t.ClosedNames := by
  obtain ⟨front, htraced⟩ := h.traced hstrict hplain.hasPlainNames
  obtain ⟨_, range, range', node, -, -, rfl, hdepicts⟩ := h
  constructor
  · rintro ⟨depth, hround⟩ sign hsign hkind
    by_contra hopen
    have hlimit : depth ≤ max depth (t.signs.length + 2) := le_max_left _ _
    have hlarge : (t.signs.length + 2 : Int) ≤ max depth (t.signs.length + 2) := le_max_right _ _
    generalize max depth (t.signs.length + 2 : Int) = limit at hlimit hlarge
    let lowering : ViewProgram.Options := { maxDepth := limit }
    let script : ScriptOptions := { runtimeModule := [], maxDepth := limit }
    obtain ⟨program, state, output, root, hnode, hprogram, hread⟩ :=
      hround lowering script {} { maxDepth := limit } hlimit hlimit hlimit rfl
    obtain ⟨program', state', output', hnode', hprogram', htext⟩ :=
      htraced.fits.written hplain.hasPlainNames hdepicts range range' lowering script hlarge hlarge
    obtain rfl : program = program' :=
      Except.ok.inj (congrArg Prod.fst (hnode.symm.trans hnode'))
    obtain rfl : output = output' := Except.ok.inj (hprogram.symm.trans hprogram')
    rw [htext] at hread
    obtain ⟨front', hagain⟩ := hread.traced rfl hplain.hasPlainNames
    exact htraced.not_statement hsign hkind (Bool.not_eq_true _ ▸ hopen) hagain
  · intro hclosed
    refine ⟨t.signs.length + 2, fun lowering script lexer parser hlowering hscript hparser _ ↦ ?_⟩
    obtain ⟨program, state, output, hnode, hprogram, htext⟩ :=
      htraced.fits.written hplain.hasPlainNames hdepicts range range' lowering script hlowering
        hscript
    obtain ⟨root, hread⟩ := htraced.fits.isReadFrom hplain
      (htraced.readable_of_closedNames hclosed) lexer parser (by omega)
    rw [← htext] at hread
    exact ⟨program, state, output, root, hnode, hprogram, hread⟩

theorem roundTrips_iff_closedNames_escape :
    let opened : Term := .name (bytes "a\\u\x7b61")
    let closed : Term := .unary .minus (.name (bytes "a\\u\x7b61\x7d"))
    (∃ root, opened.IsReadFrom {} {} (bytes "a\\u\x7b61") root ∧ opened.IsPlain ∧
      ¬ ∃ depth, opened.RoundTrips root depth) ∧
    ∃ root, closed.IsReadFrom {} {} (bytes "-a\\u\x7b61\x7d") root ∧ closed.IsPlain ∧
      ∃ depth, closed.RoundTrips root depth := by
  intro opened closed
  have hopened : Fits .assignment opened := .ofBinary (.ofUnary (.ofOperand (.name _)))
  have hclosed : Fits .assignment closed := .ofBinary (.ofUnary (.unary _ (.ofOperand (.name _))))
  have hopenedTokens : (tokenize {} (bytes "a\\u\x7b61")).result = .ok (
      [{ kind := .identifier, value := bytes "a\\u\x7b61", start := ⟨1, 1, 0⟩, stop := 6 }] ++
      [{ kind := .eof, start := ⟨1, 7, 6⟩, stop := 6 }]) := by decide +kernel
  have hclosedTokens : (tokenize {} (bytes "-a\\u\x7b61\x7d")).result = .ok (
      [{ kind := .mark .minus, value := bytes "-", start := ⟨1, 1, 0⟩, stop := 1 },
        { kind := .identifier, value := bytes "a\\u\x7b61\x7d", start := ⟨1, 2, 1⟩, stop := 8 }] ++
      [{ kind := .eof, start := ⟨1, 9, 8⟩, stop := 8 }]) := by decide +kernel
  have hopenedPlain : opened.IsPlain := ⟨by decide, by decide⟩
  have hclosedPlain : closed.IsPlain := ⟨by decide, by decide⟩
  obtain ⟨root, hroot⟩ :=
    hopened.isReadFrom_of_signs {} hopenedTokens rfl (.inl rfl) rfl (by decide)
  obtain ⟨root', hroot'⟩ :=
    hclosed.isReadFrom_of_signs {} hclosedTokens rfl (.inl rfl) rfl (by decide)
  refine ⟨⟨root, hroot, hopenedPlain, fun hround ↦ ?_⟩, root', hroot', hclosedPlain, ?_⟩
  · have hfalse : ¬ opened.ClosedNames := fun h ↦ by cases h _ List.mem_cons_self rfl
    exact hfalse ((roundTrips_iff_closedNames rfl hroot hopenedPlain).mp hround)
  · have htrue : closed.ClosedNames := by
      change ∀ sign ∈ [_, _], _
      rw [List.forall_mem_cons, List.forall_mem_singleton]
      exact ⟨nofun, fun _ ↦ by decide⟩
    exact (roundTrips_iff_closedNames rfl hroot' hclosedPlain).mpr htrue

end Term

end SignalView
