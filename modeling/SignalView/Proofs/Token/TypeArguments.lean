import SignalView.Proofs.Token.Stretch
import SignalView.Proofs.Token.Succession

/-!
# Runs over type arguments

The search in front of a `<` looks at bytes; the run that follows reads tokens in surroundings. Over
a bracketed stretch that the search passes, the two agree: the run closes every bracket that it has
opened in the stretch and comes to the `>` behind it, which ends the type arguments. With a tag in
braces the run leaves the type arguments for good.
-/

namespace SignalView.Lexer

open Bracket Angle

/-- A run with a round left goes on in another state, in which as much of the source lies behind
and ahead. -/
structure Reaches (options : LexerOptions) (lexer next : Lexer) : Prop where
  run_eq : ∃ taken, ∀ rounds,
    run options (rounds + taken + 1) lexer = run options (rounds + 1) next
  place_eq : next.cursor.position.offset + next.cursor.rest.length =
    lexer.cursor.position.offset + lexer.cursor.rest.length

variable {options : LexerOptions} {lexer middle next : Lexer}

theorem Reaches.refl (options : LexerOptions) (lexer : Lexer) : lexer.Reaches options lexer :=
  ⟨⟨0, fun _ ↦ rfl⟩, rfl⟩

theorem Reaches.trans (h : lexer.Reaches options middle) (hnext : middle.Reaches options next) :
    lexer.Reaches options next where
  run_eq := by
    obtain ⟨taken, hrun⟩ := h.run_eq
    obtain ⟨taken', hrun'⟩ := hnext.run_eq
    refine ⟨taken' + taken, fun rounds ↦ ?_⟩
    rw [← hrun' rounds, ← hrun (rounds + taken'), Nat.add_assoc rounds taken']
  place_eq := hnext.place_eq.trans h.place_eq

theorem place_advance (cursor : Cursor) :
    cursor.advance.position.offset + cursor.advance.rest.length =
      cursor.position.offset + cursor.rest.length := by
  unfold Cursor.advance
  split
  · rfl
  · next b rest hrest =>
    rw [hrest, List.length_cons, Position.after]
    split
    all_goals
      dsimp only
      omega

theorem place_advanceBy (length : Nat) (cursor : Cursor) :
    (cursor.advanceBy length).position.offset + (cursor.advanceBy length).rest.length =
      cursor.position.offset + cursor.rest.length := by
  induction length generalizing cursor with
  | zero => rfl
  | succ length ih => exact (ih cursor.advance).trans (place_advance cursor)

theorem reaches_space {b : UInt8} {rest : Bytes} (hin : lexer.inChildren = false)
    (hspace : Byte.isSpace b = true) (hrest : lexer.cursor.rest = b :: rest) :
    ∃ next : Lexer, lexer.Reaches options next ∧ next.cursor.rest = rest ∧
      next.surroundings = lexer.surroundings := by
  refine ⟨{ lexer with
    cursor := lexer.cursor.advance, newlinePending := lexer.newlinePending || b == 10 },
    ⟨⟨0, fun rounds ↦ ?_⟩, place_advance lexer.cursor⟩, ?_, rfl⟩
  · rw [Nat.add_zero, run_succ hin, skipTrivia_space options hspace hrest, run_succ]
    exact hin
  · rw [Cursor.advance, hrest]

theorem reaches_token {kind : TokenKind} {value : Bytes} {length : Nat}
    {surroundings : List Surrounding} (hin : lexer.inChildren = false)
    (hstarts : StartsToken lexer.cursor.rest)
    (hscan : lexer.scan = ⟨.token kind value length, surroundings⟩) :
    ∃ next : Lexer, lexer.Reaches options next ∧
      next.cursor.rest = lexer.cursor.rest.drop length ∧ next.surroundings = surroundings ∧
      ∃ stop, next.tokens = lexer.tokenAhead kind value stop :: lexer.tokens := by
  have hend : lexer.cursor.atEnd = false := by
    obtain ⟨b, more, hmore, -⟩ := hstarts
    rw [Cursor.atEnd, hmore]
    rfl
  have haccept : (accept options lexer lexer.scan).failure = none := by rw [hscan]; rfl
  refine ⟨(accept options lexer lexer.scan).lexer, ⟨⟨1, fun rounds ↦ ?_⟩, ?_⟩, ?_, ?_, ?_⟩
  · rw [run_succ hin, skipTrivia_of_startsToken options hstarts, afterTrivia]
    simp only [hend, haccept, Bool.false_eq_true, if_false]
  · rw [hscan]
    exact place_advanceBy length lexer.cursor
  · rw [hscan]
    exact rest_advanceBy lexer.cursor length
  · rw [hscan]
    rfl
  · rw [hscan]
    exact ⟨_, rfl⟩

/-- The run stands in a stretch in front of a malformed string or number. -/
def MeetsMalformed (stretch behind : Bytes) (lexer : Lexer) : Prop :=
  ∃ part, part ≠ [] ∧ part <:+ stretch ∧ lexer.cursor.rest = part ++ byte '>' :: behind ∧
    ∃ cause length, lexer.scan.lexeme = .fault cause length ∧ cause.isMalformedLiteral = true

/-- The run has opened a tag inside of braces in a stretch. -/
def HasOpenedTag (stretch behind : Bytes) (lexer : Lexer) : Prop :=
  Quoted.openBrace ∈ stretch ∧
    ∃ part, part <:+ stretch ∧ lexer.cursor.rest = part ++ byte '>' :: behind ∧
      ∃ below, lexer.surroundings = .tag false :: .brace :: below

/-- The run stands in front of the `>` behind a stretch, with the type brackets open alone. -/
def MeetsClosing (outer : List Surrounding) (behind : Bytes) (lexer : Lexer) : Prop :=
  lexer.cursor.rest = byte '>' :: behind ∧ lexer.surroundings = .typeBrackets 1 :: outer

theorem inCode_of_frames {whole : Bytes} {outer : List Surrounding} {pending : List Bracket}
    (h : Surrounding.Frames whole outer pending lexer.surroundings) : lexer.InCode := by
  intro s hs
  rcases h.top with ⟨depth, below, htop⟩ | ⟨below, htop⟩
  all_goals
    rw [htop] at hs
    cases hs
    rfl

theorem InCode.inChildren_eq (h : lexer.InCode) : lexer.inChildren = false := by
  rw [inChildren, beq_eq_false_iff_ne]
  intro hhead
  cases h _ hhead

/-- A run from a place in a stretch comes to the end of it, unless it stops at a malformed literal
or opens a tag. -/
theorem exists_of_place {whole stretch behind : Bytes} {outer : List Surrounding}
    {pending : List Bracket} (hrest : lexer.cursor.rest = stretch ++ byte '>' :: behind)
    (h : Angle.Place whole outer pending lexer.surroundings stretch) :
    ∃ next : Lexer, lexer.Reaches options next ∧ (next.MeetsClosing outer behind ∨
      next.MeetsMalformed whole behind ∨ next.HasOpenedTag whole behind) := by
  -- A token takes up more than one byte, so the induction is on the length.
  induction hlength : stretch.length using Nat.strong_induction_on
    generalizing lexer pending stretch with
  | _ length ih =>
    have hcode := inCode_of_frames h.frames
    cases stretch with
    | nil =>
      obtain ⟨mode, -, hread⟩ := h.read_eq
      obtain ⟨rfl, rfl⟩ : mode = .code ∧ pending = [] := by simpa using hread
      refine ⟨lexer, .refl options lexer, .inl ⟨hrest, ?_⟩⟩
      generalize lexer.surroundings = surroundings at h
      cases h.frames
      rfl
    | cons b rest =>
      rw [List.length_cons] at hlength
      by_cases hspace : Byte.isSpace b = true
      · obtain ⟨hplain, hclose, hquote⟩ := of_isSpace b hspace
        obtain ⟨next, hreaches, hnext, hsame⟩ :=
          reaches_space hcode.inChildren_eq hspace hrest
        obtain ⟨last, hpassed⟩ := h.passed
        have hplace : Angle.Place whole outer pending next.surroundings rest := by
          rw [hsame]
          have hsplit : Angle.Place whole outer pending lexer.surroundings ([b] ++ rest) := h
          exact hsplit.behind hplain hclose ⟨b, (hpassed.of_cons hquote).2.2⟩
        obtain ⟨final, hfinal, hends⟩ := ih rest.length (by omega) hnext hplace rfl
        exact ⟨final, hreaches.trans hfinal, hends⟩
      · have hspace : Byte.isSpace b = false := by simpa using hspace
        have htakes := Scan.takes_code h hspace (lexer.tokens.head?.map (·.kind)) behind
        rw [← hrest, ← hcode.scan_eq] at htakes
        have hstarts : StartsToken lexer.cursor.rest := by
          rw [hrest]
          refine ⟨b, _, rfl, hspace, ?_⟩
          rintro rfl
          obtain ⟨last, hpassed⟩ := h.passed
          cases (hpassed.of_cons rfl).1
        generalize hscan : lexer.scan = scanned at htakes
        cases htakes with
        | malformed hcause =>
          refine ⟨lexer, .refl options lexer, .inr (.inl ⟨b :: rest, List.cons_ne_nil _ _, ?_⟩)⟩
          exact ⟨h.inside, hrest, _, _, by rw [hscan], hcause⟩
        | tag hbrace =>
          obtain ⟨next, hreaches, hnext, hsurroundings, -⟩ :=
            reaches_token hcode.inChildren_eq hstarts hscan
          refine ⟨next, hreaches, .inr (.inr ⟨hbrace, rest, ?_, ?_, _, hsurroundings⟩)⟩
          · exact (List.suffix_cons b rest).trans h.inside
          · rw [hnext, hrest]
            rfl
        | @token kind value text after open_ inner hne hsplit hplace =>
          obtain ⟨next, hreaches, hnext, hsurroundings, -⟩ :=
            reaches_token hcode.inChildren_eq hstarts hscan
          rw [hrest, hsplit, List.append_assoc, List.drop_left] at hnext
          have hshorter : after.length < length := by
            have hsum := congrArg List.length hsplit
            have hpos := List.length_pos_iff.mpr hne
            rw [List.length_append, List.length_cons] at hsum
            omega
          obtain ⟨final, hfinal, hends⟩ :=
            ih after.length hshorter hnext (hsurroundings.symm ▸ hplace) rfl
          exact ⟨final, hreaches.trans hfinal, hends⟩

/-! ## Type arguments behind a name -/

/-- Between a name and type arguments, the scan opens type brackets. -/
theorem scan_typeOpen {rest : Bytes} {previous : Token}
    (hrest : lexer.cursor.rest = byte '<' :: rest) (hcode : lexer.InCode)
    (htypes : ∀ depth, lexer.surroundings.head? ≠ some (.typeBrackets depth))
    (hprevious : lexer.tokens.head? = some previous) (hname : previous.kind.isName = true)
    (hoperand : Scan.allowsOperand (some previous.kind) = false)
    (hfound : startsTypeArguments (byte '<' :: rest) = true) :
    lexer.scan = ⟨Scan.markToken .typeOpen, .typeBrackets 1 :: lexer.surroundings⟩ := by
  have hcodeLess : Scan.code (some previous.kind) lexer.surroundings (byte '<' :: rest) =
      Scan.lessThan (some previous.kind) lexer.surroundings (byte '<' :: rest) := rfl
  have harguments : ((some previous.kind).any (·.isName) &&
      startsTypeArguments (byte '<' :: rest)) = true := by
    rw [hfound, Bool.and_true]
    exact hname
  rw [hcode.scan_eq, hrest, hprevious, Option.map_some, hcodeLess]
  unfold Scan.lessThan
  split
  · next depth outer hsurroundings =>
    exact absurd (by rw [hsurroundings]; rfl) (htypes depth)
  · dsimp only
    rw [hoperand, if_neg Bool.false_ne_true, if_pos harguments]

/-- The run has closed the type arguments that started at another state, with the `>` behind them
as its last token, and the surroundings are those in front of them. -/
structure HasClosed (lexer start : Lexer) (stretch behind : Bytes) : Prop where
  rest_eq : lexer.cursor.rest = behind
  surroundings_eq : lexer.surroundings = start.surroundings
  closing : ∃ token older, lexer.tokens = token :: older ∧ token.sign = Mark.typeClose.sign ∧
    token.start.offset = start.cursor.position.offset + stretch.length + 1

/-- Behind a name in code, let the search at a `<` succeed because of the `>` behind a bracketed
stretch without escapes and substitutions. Then the run closes the type arguments there and goes on
in the surroundings that they were opened in, unless it stops at a malformed string or number of the
stretch or opens a tag inside of braces in the stretch. -/
theorem typeArguments_close {previous : Token} {stretch behind : Bytes} (options : LexerOptions)
    (hrest : lexer.cursor.rest = byte '<' :: (stretch ++ byte '>' :: behind))
    (hcode : lexer.InCode)
    (htypes : ∀ depth, lexer.surroundings.head? ≠ some (.typeBrackets depth))
    (hprevious : lexer.tokens.head? = some previous) (hname : previous.kind.isName = true)
    (hoperand : Scan.allowsOperand (some previous.kind) = false)
    (hspans : Angle.Spans stretch) (hfollow : Angle.canFollow behind = true)
    (hbracketed : IsBracketed stretch) (hclear : Angle.IsClear stretch) :
    ∃ next : Lexer, lexer.Reaches options next ∧ (next.HasClosed lexer stretch behind ∨
      next.MeetsMalformed stretch behind ∨ next.HasOpenedTag stretch behind) := by
  have hfound : startsTypeArguments (byte '<' :: (stretch ++ byte '>' :: behind)) = true := by
    rw [hspans behind, hfollow]
  have hscan := scan_typeOpen hrest hcode htypes hprevious hname hoperand hfound
  have hstarts : StartsToken lexer.cursor.rest :=
    ⟨byte '<', _, hrest, rfl, fun hslash ↦ absurd hslash (by decide)⟩
  obtain ⟨opened, hopened, hopenedRest, hopenedIn, -⟩ :=
    reaches_token hcode.inChildren_eq hstarts hscan
  have hplace : Angle.Place stretch lexer.surroundings [] opened.surroundings stretch := by
    rw [hopenedIn]
    exact ⟨List.suffix_rfl, .base, ⟨_, hspans.passed⟩, hclear, .code, .inl rfl, hbracketed⟩
  rw [hrest] at hopenedRest
  obtain ⟨last, hlast, ⟨hlastRest, hlastIn⟩ | hfails⟩ :=
    exists_of_place hopenedRest hplace
  · have hlastCode : last.InCode := by
      intro s hs
      rw [hlastIn] at hs
      cases hs
      rfl
    have hclose : last.scan = ⟨Scan.markToken .typeClose, lexer.surroundings⟩ := by
      rw [hlastCode.scan_eq, hlastRest, hlastIn]
      rfl
    have hlastStarts : StartsToken last.cursor.rest :=
      ⟨byte '>', _, hlastRest, rfl, fun hslash ↦ absurd hslash (by decide)⟩
    obtain ⟨next, hnext, hnextRest, hnextIn, stop, htokens⟩ :=
      reaches_token hlastCode.inChildren_eq hlastStarts hclose
    refine ⟨next, (hopened.trans hlast).trans hnext, .inl ⟨?_, hnextIn, _, _, htokens, rfl, ?_⟩⟩
    · rw [hnextRest, hlastRest]
      rfl
    · have hplaces := (hopened.trans hlast).place_eq
      rw [hlastRest, hrest] at hplaces
      simp only [List.length_cons, List.length_append] at hplaces
      change last.cursor.position.offset = _
      omega
  · exact ⟨last, hopened.trans hlast, .inr hfails⟩

/-- A state behind a name, in front of nested type arguments. -/
def inFrontOfNested : Lexer where
  cursor := { rest := bytes "<A<B>>(x);", position := ⟨1, 2, 1⟩ }
  tokens := [{
    kind := .identifier, value := bytes "f", start := ⟨1, 1, 0⟩, stop := 1
    newlineBefore := false }]

theorem typeArguments_close_nested : ∃ next : Lexer, inFrontOfNested.Reaches {} next ∧
    (next.HasClosed inFrontOfNested (bytes "A<B>") (bytes "(x);") ∨
      next.MeetsMalformed (bytes "A<B>") (bytes "(x);") ∨
        next.HasOpenedTag (bytes "A<B>") (bytes "(x);")) := by
  have hcode : inFrontOfNested.InCode := by
    intro s hs
    cases hs
  have htypes (depth : Nat) : inFrontOfNested.surroundings.head? ≠ some (.typeBrackets depth) := by
    intro h
    cases h
  have hspans : Angle.Spans (bytes "A<B>") := fun _ ↦ rfl
  exact typeArguments_close {} rfl hcode htypes rfl rfl rfl hspans rfl rfl (by decide)

end SignalView.Lexer
