import SignalView.Proofs.Token.Cut

/-!
# Where tokens come from

Every token of a strict run was scanned at its place, behind the tokens in front of it. As long as
no tag has been opened, it is a scan of code that gave it: marks and words are spelled as they are
written, no word stands behind a dot, and names and numbers can be read again, except for a name
with an open escape, which is followed by nothing.
-/

namespace SignalView

/-- The scan of a run behind some tokens gave the token at its place. -/
def Token.ScannedBehind (source : Bytes) (before : List Token) (token : Token) : Prop :=
  ∃ lexer : Lexer, lexer.tokenList = before ∧ lexer.surroundings = surroundingsOf before ∧
    lexer.cursor.rest = source.drop token.start.offset ∧
    lexer.scan.lexeme = .token token.kind token.value (token.stop - token.start.offset)

/-- All of some tokens were scanned at their places. -/
def AllScanned (source : Bytes) (tokens : List Token) : Prop :=
  ∀ before token after, tokens = before ++ token :: after → token.ScannedBehind source before

/-- The tokens of a strict run in front of the one that marks the end were all scanned, and they
tile the beginning of the source. -/
theorem tokenize_allScanned {options : LexerOptions} {source : Bytes} {tokens : List Token}
    (hstrict : options.mode = .strict) (h : (tokenize options source).result = .ok tokens) :
    ∃ front final, tokens = front ++ [final] ∧ final.kind = .eof ∧ AllScanned source front ∧
      Tiles source front ∧ ∀ token ∈ front, token.kind ≠ .eof := by
  unfold LexerStep.result at h
  split at h
  · cases h
  · next hnone =>
    obtain rfl := Except.ok.inj h
    have hstart : AllScanned source (Lexer.ofSource source).tokenList := by
      intro before token after hnil
      simp [Lexer.ofSource, Lexer.tokenList] at hnil
    have hstep {lexer : Lexer} {offset : Nat} {kind : TokenKind} {value : Bytes} {length : Nat}
        (hready : lexer.Ready source offset) (hscan : lexer.scan.lexeme = .token kind value length)
        (htokens : AllScanned source lexer.tokenList) : AllScanned source
          (lexer.tokenList ++ [lexer.tokenAhead kind value (offset + length)]) := by
      have hoffset : lexer.cursor.position.offset = offset := by
        rw [hready.cursor_at.position_eq]
        rfl
      refine forall_behind_concat htokens ⟨lexer, rfl, hready.surroundings_eq, ?_, ?_⟩
      · rw [Lexer.tokenAhead, hoffset]
        exact hready.cursor_at.rest_eq
      · rw [hscan, Lexer.tokenAhead, hoffset, Nat.add_sub_cancel_left]
    obtain ⟨last, offset, hrun, hready, -, hscanned⟩ := Lexer.run_eq_finish hstrict hstep
      (.ofSource source) hstart (Nat.lt_succ_self _) hnone
    have htokenize : tokenize options source = Lexer.finish options last := hrun
    rw [htokenize] at hnone ⊢
    rw [Lexer.finish_eq_push hstrict hnone, Lexer.tokenList_push]
    exact ⟨_, _, rfl, rfl, hscanned, hready.tiles, hready.kinds⟩

/-! ## Scans of code -/

namespace Scan

/-- The marks that only stand in tags and between them. -/
def isMarkupMark (m : Mark) : Bool :=
  [Mark.closingTagOpen, .tagEnd, .tagSelfClose].contains m

/-- What a scan of code gives: numbers, names and words by their own scans, and marks by their
texts. -/
inductive CodeToken (previous : Option TokenKind) (rest : Bytes) : TokenKind → Bytes → Prop
  | number {kind : TokenKind} {value : Bytes} {length : Nat} : startsNumber rest = true →
    Literal.scanNumber rest = .token kind value length → CodeToken previous rest kind value
  | name {kind : TokenKind} {value : Bytes} {length : Nat} : Literal.startsName rest = true →
    Literal.scanName (isDot previous) rest = .token kind value length →
      CodeToken previous rest kind value
  | string (value : Bytes) : CodeToken previous rest .string value
  | template (piece : TemplatePiece) (value : Bytes) :
    CodeToken previous rest (.template piece) value
  | regex (value : Bytes) : CodeToken previous rest .regex value
  | mark {m : Mark} : isMarkupMark m = false → CodeToken previous rest (.mark m) (bytes m.text)

variable {previous : Option TokenKind} {surroundings : List Surrounding} {rest value : Bytes}
  {kind : TokenKind} {length : Nat}

theorem CodeToken.of_markToken {m : Mark} (hm : isMarkupMark m = false)
    (h : markToken m = .token kind value length) : CodeToken previous rest kind value := by
  obtain ⟨rfl, rfl, -⟩ := by simpa [markToken] using h
  exact .mark hm

theorem operator_codeToken {text : Bytes} (h : operator text = .token kind value length) :
    CodeToken previous rest kind value := by
  unfold operator at h
  dsimp only at h
  split at h
  · exact .of_markToken rfl h
  split at h
  · exact .of_markToken rfl h
  split at h
  · next m hm =>
    refine .of_markToken ?_ h
    have hmem := List.mem_of_find?_eq_some hm
    revert hmem
    cases m <;> decide
  · cases h

theorem template_codeToken {continued : Bool} {text : Bytes} {outer : List Surrounding}
    (h : (template continued outer text).lexeme = .token kind value length) :
    CodeToken previous rest kind value := by
  obtain ⟨piece, body, after, rfl, -⟩ := Literal.templateBody_eq_token h
  exact .template piece value

theorem code_codeToken
    (h : (code previous surroundings rest).lexeme = .token kind value length) :
    CodeToken previous rest kind value := by
  revert h
  have hb : rest.head?.getD 0 = rest.head?.getD 0 := rfl
  apply code_cases
    (motive := fun scanned ↦
      scanned.lexeme = .token kind value length → CodeToken previous rest kind value) hb
  case number => exact fun hnumber h ↦ .number hnumber h
  case string =>
    intro _ h
    dsimp only [Literal.scanString] at h
    split at h
    · obtain ⟨rfl, -⟩ := Literal.stringBody_eq_token h
      exact .string value
    · cases h
  case template => exact fun _ h ↦ template_codeToken h
  case name => exact fun _ hname h ↦ .name hname h
  case openBrace => exact fun _ h ↦ .of_markToken rfl h
  case closeBrace =>
    intro _ h
    unfold closingBrace at h
    split at h
    · exact template_codeToken h
    · exact .of_markToken rfl h
    · exact .of_markToken rfl h
    · exact .of_markToken rfl h
  case less =>
    intro _ h
    unfold lessThan at h
    split at h
    · exact .of_markToken rfl h
    dsimp only at h
    split at h
    · split at h
      · exact .of_markToken rfl h
      split at h
      · exact .of_markToken rfl h
      · exact operator_codeToken h
    split at h
    · exact .of_markToken rfl h
    · exact operator_codeToken h
  case greater =>
    intro _ h
    unfold greaterThan at h
    split at h
    · exact .of_markToken rfl h
    · exact operator_codeToken h
  case regex =>
    intro _ h
    dsimp only at h
    unfold Literal.scanRegex at h
    split at h
    · cases h
    · obtain ⟨rfl, -, -⟩ := by simpa using h
      exact .regex value
  case operator => exact fun _ _ _ h ↦ operator_codeToken h

/-- A mark of code stands in no tag and has its own text. -/
theorem CodeToken.mark_eq {m : Mark} (h : CodeToken previous rest (.mark m) value) :
    isMarkupMark m = false ∧ value = bytes m.text := by
  cases h with
  | number _ hscan => rcases Literal.scanNumber_kind hscan with hkind | hkind <;> cases hkind
  | name hname hscan =>
    obtain ⟨text, -, -, htext, -⟩ := Literal.exists_scanName_eq hname (isDot previous)
    rw [htext] at hscan
    rcases (Literal.nameLexeme_eq_token hscan).2 with hkind | ⟨-, w, hkind, -⟩ <;> cases hkind
  | mark hm => exact ⟨hm, rfl⟩

end Scan

/-! ## All scans -/

namespace Scan

/-- What a scan gives in a tag and between tags: names, texts, and marks by their texts. -/
inductive MarkupToken : TokenKind → Bytes → Prop
  | name (value : Bytes) : MarkupToken .identifier value
  | string (value : Bytes) : MarkupToken .string value
  | text (value : Bytes) : MarkupToken .markupText value
  | mark (m : Mark) : MarkupToken (.mark m) (bytes m.text)

variable {surroundings : List Surrounding} {rest value : Bytes} {kind : TokenKind} {length : Nat}

theorem MarkupToken.of_markToken {m : Mark} (h : markToken m = .token kind value length) :
    MarkupToken kind value := by
  obtain ⟨rfl, rfl, -⟩ := by simpa [markToken] using h
  exact .mark m

theorem tag_markupToken {closing : Bool}
    (h : (tag closing surroundings rest).lexeme = .token kind value length) :
    MarkupToken kind value := by
  revert h
  have hb : rest.head?.getD 0 = rest.head?.getD 0 := rfl
  apply tag_cases
    (motive := fun scanned ↦ scanned.lexeme = .token kind value length → MarkupToken kind value) hb
  case name =>
    intro _ h
    cases h
    exact .name _
  case string =>
    intro _ h
    dsimp only [Literal.scanAttributeString] at h
    split at h
    · split at h
      · cases h
        exact .string _
      · cases h
    · cases h
  case mark => exact fun m _ _ _ h ↦ .of_markToken h
  case fault => exact nofun

theorem children_markupToken
    (h : (children surroundings rest).lexeme = .token kind value length) :
    MarkupToken kind value := by
  unfold children at h
  dsimp only at h
  split at h
  · split at h
    · obtain ⟨rfl, rfl, -⟩ := by simpa using h
      exact .mark .closingTagOpen
    · exact .of_markToken h
  split at h
  · exact .of_markToken h
  · obtain ⟨rfl, rfl, -⟩ := by simpa using h
    exact .text _

end Scan

/-- A scan is one of code or one of markup. -/
theorem Lexer.scan_token {lexer : Lexer} {kind : TokenKind} {value : Bytes} {length : Nat}
    (h : lexer.scan.lexeme = .token kind value length) :
    Scan.CodeToken (lexer.tokenList.getLast?.map (·.kind)) lexer.cursor.rest kind value ∨
      Scan.MarkupToken kind value := by
  have hlast : lexer.tokenList.getLast? = lexer.tokens.head? := List.getLast?_reverse
  rw [hlast]
  unfold Lexer.scan at h
  split at h
  · exact .inr (Scan.children_markupToken h)
  · exact .inr (Scan.tag_markupToken h)
  · exact .inl (Scan.code_codeToken h)

/-! ## Streams without tags -/

/-- The surroundings that have nothing to do with tags. -/
def Surrounding.isCode : Surrounding → Bool
  | .brace | .substitution | .typeBrackets _ => true
  | _ => false

theorem isCode_after {surroundings : List Surrounding} {kind : TokenKind}
    (h : ∀ s ∈ surroundings, s.isCode = true) (htag : kind ≠ .mark .tagOpen)
    (hmark : ∀ m, kind = .mark m → Scan.isMarkupMark m = false) :
    ∀ s ∈ Surrounding.after surroundings kind, s.isCode = true := by
  have hdrop : ∀ s ∈ surroundings.drop 1, s.isCode = true :=
    fun s hs ↦ h s (List.mem_of_mem_drop hs)
  unfold Surrounding.after
  split
  · -- An opening brace never stands in a tag here.
    split
    · cases h _ List.mem_cons_self
    · cases h _ List.mem_cons_self
    · exact List.forall_mem_cons.mpr ⟨rfl, h⟩
  · split
    · exact (List.forall_mem_cons.mp h).2
    · exact (List.forall_mem_cons.mp h).2
    · exact h
  · exact List.forall_mem_cons.mpr ⟨rfl, h⟩
  · exact hdrop
  · split
    · exact List.forall_mem_cons.mpr ⟨rfl, (List.forall_mem_cons.mp h).2⟩
    · exact List.forall_mem_cons.mpr ⟨rfl, h⟩
  · split
    · split
      · exact (List.forall_mem_cons.mp h).2
      · exact List.forall_mem_cons.mpr ⟨rfl, (List.forall_mem_cons.mp h).2⟩
    · exact h
  · exact absurd rfl htag
  · cases hmark _ rfl
  · cases hmark _ rfl
  · cases hmark _ rfl
  · exact h

/-- A run outside of tags goes on with a scan of code. -/
theorem Lexer.scan_eq_code {lexer : Lexer} (h : ∀ s ∈ lexer.surroundings, s.isCode = true) :
    lexer.scan =
      Scan.code (lexer.tokenList.getLast?.map (·.kind)) lexer.surroundings lexer.cursor.rest := by
  have hlast : lexer.tokenList.getLast? = lexer.tokens.head? := List.getLast?_reverse
  rw [hlast]
  unfold Lexer.scan
  split
  · next houter => cases h _ (by rw [houter]; exact List.mem_cons_self)
  · next houter => cases h _ (by rw [houter]; exact List.mem_cons_self)
  · rfl

/-- Behind tokens that were scanned outside of tags, a token comes from a scan of code. -/
theorem Token.ScannedBehind.codeToken {source : Bytes} {before : List Token} {token : Token}
    (h : token.ScannedBehind source before)
    (hbefore : ∀ s ∈ surroundingsOf before, s.isCode = true) :
    Scan.CodeToken (before.getLast?.map (·.kind)) (source.drop token.start.offset) token.kind
      token.value := by
  obtain ⟨lexer, hlist, hsurroundings, hrest, hscan⟩ := h
  rw [← hsurroundings] at hbefore
  rw [Lexer.scan_eq_code hbefore, hlist, hrest] at hscan
  exact Scan.code_codeToken hscan

theorem AllScanned.isCode {source : Bytes} {front : List Token} (h : AllScanned source front)
    (htags : ∀ token ∈ front, token.kind ≠ .mark .tagOpen) {before after : List Token}
    (hfront : front = before ++ after) : ∀ s ∈ surroundingsOf before, s.isCode = true := by
  induction before using List.reverseRecOn generalizing after with
  | nil => exact nofun
  | append_singleton before token ih =>
    rw [List.append_assoc, List.singleton_append] at hfront
    have hcode := (h before token after hfront).codeToken (ih hfront)
    rw [surroundingsOf_concat]
    refine isCode_after (ih hfront) (htags token (by simp [hfront])) fun m hm ↦ ?_
    rw [hm] at hcode
    exact hcode.mark_eq.1

/-- As long as no tag has been opened, tokens come from scans of code. -/
theorem AllScanned.codeToken {source : Bytes} {front : List Token} (h : AllScanned source front)
    (htags : ∀ token ∈ front, token.kind ≠ .mark .tagOpen) {before after : List Token}
    {token : Token} (hfront : front = before ++ token :: after) :
    Scan.CodeToken (before.getLast?.map (·.kind)) (source.drop token.start.offset) token.kind
      token.value :=
  (h before token after hfront).codeToken (h.isCode htags hfront)

/-! ## What the tokens of code are like -/

/-- A name has closed escapes, and a number was read from somewhere. -/
structure Sign.Readable (sign : Sign) : Prop where
  name : sign.kind = .identifier → Literal.IsName sign.value
  number : sign.kind = .number ∨ sign.kind = .bigint → ∃ rest length,
    Scan.startsNumber rest = true ∧
      Literal.scanNumber rest = .token sign.kind sign.value length

theorem Literal.IsName.escapesClosed {name : Bytes} (h : IsName name) :
    escapesClosed name = true := by
  have hbody := h.body.escapesClosed
  obtain ⟨b, more, rfl⟩ := List.exists_cons_of_ne_nil (ne_nil_of_startsName h.starts)
  by_cases hhash : b = byte '#'
  · subst hhash
    rwa [escapesClosed_cons _ (by decide)]
  · rwa [show nameLead (b :: more) = 0 by simp [nameLead, hhash], List.drop_zero] at hbody

namespace Scan.CodeToken

variable {previous : Option TokenKind} {rest value : Bytes} {kind : TokenKind}

theorem word_eq {w : Word} (h : CodeToken previous rest (.word w) value) :
    value = bytes w.spelling ∧ isDot previous = false := by
  cases h with
  | number _ hscan => rcases Literal.scanNumber_kind hscan with hkind | hkind <;> cases hkind
  | name hname hscan =>
    obtain ⟨text, -, -, htext, -⟩ := Literal.exists_scanName_eq hname (isDot previous)
    rw [htext] at hscan
    obtain ⟨rfl, hkind | ⟨hdot, w', hkind, hspelling⟩⟩ := Literal.nameLexeme_eq_token hscan
    · cases hkind
    · obtain rfl := TokenKind.word.inj hkind
      exact ⟨hspelling, hdot⟩

/-- A token of code can be read again, unless it is a name with an open escape at the end. -/
theorem readable (h : CodeToken previous rest kind value) :
    (⟨kind, value⟩ : Sign).Readable ∨
      kind = .identifier ∧ Literal.OpenName value ∧ rest = value := by
  cases h with
  | @number _ _ length hstarts hscan =>
    refine .inl ⟨fun hkind ↦ ?_, fun _ ↦ ⟨rest, length, hstarts, hscan⟩⟩
    rcases Literal.scanNumber_kind hscan with rfl | rfl <;> cases hkind
  | name hname hscan =>
    obtain ⟨text, after, hrest, htext, hcases⟩ :=
      Literal.exists_scanName_eq hname (isDot previous)
    rw [htext] at hscan
    obtain ⟨rfl, hkind⟩ := Literal.nameLexeme_eq_token hscan
    have hnumber : ¬(kind = .number ∨ kind = .bigint) := by
      rcases hkind with rfl | ⟨-, w, rfl, -⟩ <;> nofun
    rcases hcases with hclosed | ⟨rfl, hopen⟩
    · exact .inl ⟨fun _ ↦ hclosed, fun h ↦ absurd h hnumber⟩
    · rcases hkind with rfl | ⟨-, w, rfl, -⟩
      · exact .inr ⟨rfl, hopen, by rw [hrest, List.append_nil]⟩
      · exact .inl ⟨nofun, nofun⟩
  | string | template | regex | mark => exact .inl ⟨nofun, nofun⟩

end Scan.CodeToken

end SignalView
