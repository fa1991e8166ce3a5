import SignalView.Proofs.Token.Order
import SignalView.Proofs.Token.Origin

/-!
# Names behind words and commas

Behind a word, a comma, a star or an opening brace, the scan goes on with code in every mode. A name
that is found there is no word, and its escapes are closed, unless nothing but the end of the source
follows it: an open escape takes in all the rest.
-/

namespace SignalView

/-- A name that is no word, or a word by its spelling. -/
inductive Sign.Written : Sign → Prop
  | name {name : Bytes} : Literal.IsName name → Word.ofSpelling? name = none →
    Written ⟨.identifier, name⟩
  | word (w : Word) : Written ⟨.word w, bytes w.spelling⟩

/-- The kinds behind which code goes on. -/
def TokenKind.leadsCode : TokenKind → Bool
  | .word _ | .mark .comma | .mark .star | .mark .openBrace => true
  | _ => false

/-- A tag, or the text between tags. -/
def Surrounding.isMarkup : Surrounding → Bool
  | .tag _ | .children => true
  | _ => false

/-- The names and words behind tokens that lead code are written as such. -/
def NamesWritten (tokens : List Token) : Prop :=
  ∀ {before after : List Token} {first name next : Token},
    tokens = before ++ first :: name :: next :: after → first.kind.leadsCode = true →
    name.kind.isMemberName = true → next.kind ≠ .error → name.sign.Written

/-! ## Scans -/

namespace Scan

variable {surroundings : List Surrounding} {rest value : Bytes} {kind : TokenKind} {length : Nat}

theorem kind_of_markToken {m : Mark} (h : markToken m = .token kind value length) :
    kind = .mark m := by
  unfold markToken at h
  cases h
  rfl

/-- A name that stands behind no dot is no word. -/
theorem CodeToken.ofSpelling?_eq_none {previous : Option TokenKind}
    (h : CodeToken previous rest .identifier value) (hdot : isDot previous = false) :
    Word.ofSpelling? value = none := by
  cases h with
  | number _ hscan => rcases Literal.scanNumber_kind hscan with hkind | hkind <;> cases hkind
  | name hname hscan =>
    obtain ⟨text, -, -, htext, -⟩ := Literal.exists_scanName_eq hname (isDot previous)
    rw [htext, Literal.nameLexeme, hdot, if_neg Bool.false_ne_true] at hscan
    split at hscan
    · cases hscan
    · next hnone =>
      cases hscan
      exact hnone

/-- Of the tokens that lead code, tags have braces alone. -/
theorem tag_leadsCode {closing : Bool}
    (h : (tag closing surroundings rest).lexeme = .token kind value length)
    (hleads : kind.leadsCode = true) : kind = .mark .openBrace := by
  revert h
  have hb : rest.head?.getD 0 = rest.head?.getD 0 := rfl
  apply tag_cases
    (motive := fun scanned ↦
      scanned.lexeme = .token kind value length → kind = .mark .openBrace) hb
  case name =>
    intro _ h
    cases h
    cases hleads
  case string =>
    intro _ h
    dsimp only [Literal.scanAttributeString] at h
    split at h
    · split at h
      · cases h
        cases hleads
      · cases h
    · cases h
  case mark =>
    intro m next hmem _ h
    rw [kind_of_markToken h] at hleads ⊢
    simp only [tagMarks, List.mem_cons, Prod.mk.injEq, List.not_mem_nil, or_false] at hmem
    rcases hmem with ⟨rfl, -⟩ | ⟨rfl, -⟩ | ⟨rfl, -⟩ | ⟨rfl, -⟩ | ⟨rfl, -⟩ | ⟨rfl, -⟩ | ⟨rfl, -⟩
    · rfl
    all_goals cases hleads
  case fault =>
    intro h
    cases h

theorem children_leadsCode
    (h : (children surroundings rest).lexeme = .token kind value length)
    (hleads : kind.leadsCode = true) : kind = .mark .openBrace := by
  unfold children at h
  dsimp only at h
  split at h
  · split at h
    · cases h
      cases hleads
    · rw [kind_of_markToken h] at hleads
      cases hleads
  split at h
  · exact kind_of_markToken h
  · cases h
    cases hleads

end Scan

/-! ## Runs -/

namespace Lexer

variable {options : LexerOptions} {lexer : Lexer}

/-- The scan of code goes on. -/
def InCode (lexer : Lexer) : Prop := ∀ s ∈ lexer.surroundings.head?, s.isMarkup = false

theorem InCode.scan_eq (h : lexer.InCode) :
    lexer.scan =
      Scan.code (lexer.tokens.head?.map (·.kind)) lexer.surroundings lexer.cursor.rest := by
  unfold scan
  split
  · next outer houter => cases h .children (by rw [houter]; rfl)
  · next closing outer houter => cases h (.tag closing) (by rw [houter]; rfl)
  · rfl

/-- A token that leads code is one of code, or the brace of an expression in markup. -/
theorem isMarkup_after {kind : TokenKind} {value : Bytes} {length : Nat}
    (hrest : lexer.cursor.rest ≠ []) (hscan : lexer.scan.lexeme = .token kind value length)
    (hleads : kind.leadsCode = true) :
    ∀ s ∈ lexer.scan.surroundings.head?, s.isMarkup = false := by
  rw [(scan_sound hrest).surroundings_eq hscan]
  by_cases hcode : lexer.InCode
  · unfold Surrounding.after
    split
    · split <;> (rintro s ⟨⟩; rfl)
    all_goals first | exact hcode | cases hleads
  · have hbrace : kind = .mark .openBrace := by
      unfold scan at hscan
      split at hscan
      · exact Scan.children_leadsCode hscan hleads
      · exact Scan.tag_leadsCode hscan hleads
      · next hchildren htag =>
        refine absurd ?_ hcode
        intro s hs
        obtain ⟨outer, houter⟩ := List.head?_eq_some_iff.mp hs
        cases s with
        | children => exact absurd houter (hchildren outer)
        | tag closing => exact absurd houter (htag closing outer)
        | _ => rfl
    subst hbrace
    unfold Surrounding.after
    dsimp only
    split <;> (rintro s ⟨⟩; rfl)

/-- A name or a word that is found behind a token that leads code. -/
theorem written_of_scan {first kind : TokenKind} {value : Bytes} {length : Nat}
    (hcode : lexer.InCode) (hfirst : lexer.tokens.head?.map (·.kind) = some first)
    (hleads : first.leadsCode = true) (hrest : lexer.cursor.rest ≠ [])
    (hscan : lexer.scan.lexeme = .token kind value length) (hkind : kind.isMemberName = true) :
    (⟨kind, value⟩ : Sign).Written ∨ lexer.cursor.rest.drop length = [] := by
  have hdot : isDot (some first) = false := by
    unfold TokenKind.leadsCode at hleads
    split at hleads <;> first | rfl | cases hleads
  obtain ⟨-, -, hspells⟩ : (Lexeme.token kind value length).Reads _ _ :=
    hscan ▸ (scan_sound hrest).reads
  rw [hcode.scan_eq, hfirst] at hscan
  have htoken := Scan.code_codeToken hscan
  cases kind with
  | word w =>
    rw [htoken.word_eq.1]
    exact .inl (.word w)
  | identifier =>
    have htake : lexer.cursor.rest.take length = value := hspells
    rcases htoken.readable with hread | ⟨-, -, hall⟩
    · left
      have hname : Literal.IsName value := hread.name rfl
      exact .name hname (htoken.ofSpelling?_eq_none hdot)
    · right
      rw [hall] at htake ⊢
      have hlength := congrArg List.length htake
      rw [List.length_take] at hlength
      exact List.drop_eq_nil_of_le (by omega)
  | _ => cases hkind

/-- The names and words behind tokens that lead code are written as such up to the last of them,
behind which nothing follows if it is not. -/
structure Leading (lexer : Lexer) : Prop where
  written {newer older : List Token} {next name first : Token}
    (htokens : lexer.tokens = newer ++ next :: name :: first :: older)
    (hfirst : first.kind.leadsCode = true) (hname : name.kind.isMemberName = true)
    (hnext : next.kind ≠ .error) : name.sign.Written
  last {older : List Token} {name first : Token}
    (htokens : lexer.tokens = name :: first :: older) (hfirst : first.kind.leadsCode = true)
    (hname : name.kind.isMemberName = true) : name.sign.Written ∨ lexer.cursor.rest = []
  inCode {token : Token} (htoken : lexer.tokens.head? = some token)
    (hleads : token.kind.leadsCode = true) : lexer.InCode

/-- What lies further on changes nothing about the tokens. -/
theorem Leading.ahead {next : Lexer} (h : lexer.Leading) (htokens : next.tokens = lexer.tokens)
    (hsurroundings : next.surroundings = lexer.surroundings)
    (hrest : lexer.cursor.rest = [] → next.cursor.rest = []) : next.Leading where
  written htriple := h.written (htokens ▸ htriple)
  last hpair hfirst hname := (h.last (htokens ▸ hpair) hfirst hname).imp_right hrest
  inCode htoken hleads := by
    rw [htokens] at htoken
    rw [InCode, hsurroundings]
    exact h.inCode htoken hleads

theorem Leading.push {next : Lexer} {token : Token} {old : List Token}
    (h : next.tokens = token :: old)
    (hwritten : ∀ {newer older next name first}, old = newer ++ next :: name :: first :: older →
      first.kind.leadsCode = true → name.kind.isMemberName = true → next.kind ≠ .error →
        name.sign.Written)
    (hlast : ∀ {older name first}, old = name :: first :: older → first.kind.leadsCode = true →
      name.kind.isMemberName = true → token.kind ≠ .error → name.sign.Written)
    (hnew : ∀ {older first}, old = first :: older → first.kind.leadsCode = true →
      token.kind.isMemberName = true → token.sign.Written ∨ next.cursor.rest = [])
    (hcode : token.kind.leadsCode = true → next.InCode) : next.Leading where
  written {newer older third name first} htriple hfirst hname hnext := by
    rw [h] at htriple
    cases newer with
    | nil =>
      obtain ⟨rfl, hold⟩ := List.cons.inj htriple
      exact hlast hold hfirst hname hnext
    | cons newest newer =>
      exact hwritten (List.cons.inj htriple).2 hfirst hname hnext
  last hpair hfirst hname := by
    rw [h] at hpair
    obtain ⟨rfl, hold⟩ := List.cons.inj hpair
    exact hnew hold hfirst hname
  inCode htoken hleads := by
    rw [h] at htoken
    obtain rfl := Option.some.inj htoken
    exact hcode hleads

/-- What the tokens of a run were like up to the one that is added. -/
theorem Leading.of_push {next : Lexer} {token : Token} (h : lexer.Leading)
    (htokens : next.tokens = token :: lexer.tokens)
    (hlast : lexer.cursor.rest ≠ [] ∨ token.kind = .error)
    (hnew : ∀ {older first}, lexer.tokens = first :: older → first.kind.leadsCode = true →
      token.kind.isMemberName = true → token.sign.Written ∨ next.cursor.rest = [])
    (hcode : token.kind.leadsCode = true → next.InCode) : next.Leading := by
  refine .push htokens h.written ?_ hnew hcode
  intro older name first hold hfirst hname hnext
  exact (h.last hold hfirst hname).resolve_right (hlast.resolve_right hnext)

/-- A fault that does not end the run leaves a token of its own. -/
theorem exists_of_report {before : Lexer} {fault : LexicalFault} {start : Position}
    (hnone : (report options before fault start).failure = none) :
    ∃ token, token.kind = .error ∧
      (report options before fault start).lexer.tokens = token :: before.tokens := by
  unfold report at hnone ⊢
  dsimp only at hnone ⊢
  split at hnone
  · cases hnone
  · split at hnone
    · cases hnone
    · split at hnone
      · cases hnone
      · next hstrict herrors hrecoveries =>
        rw [if_neg hstrict, if_neg herrors, if_neg hrecoveries]
        exact ⟨_, rfl, rfl⟩

theorem report_leading {before : Lexer} {fault : LexicalFault} {start : Position}
    (h : lexer.Leading) (htokens : before.tokens = lexer.tokens)
    (hnone : (report options before fault start).failure = none) :
    (report options before fault start).lexer.Leading := by
  obtain ⟨token, hkind, hpushed⟩ := exists_of_report hnone
  rw [htokens] at hpushed
  refine h.of_push hpushed (.inr hkind) (fun _ _ hname ↦ ?_) fun hleads ↦ ?_
  · rw [hkind] at hname
    cases hname
  · rw [hkind] at hleads
    cases hleads

theorem reachLexeme_leading (h : lexer.Leading)
    (hnone : (reachLexeme options lexer).failure = none) :
    (reachLexeme options lexer).lexer.Leading := by
  unfold reachLexeme at hnone ⊢
  split at hnone
  · next hchildren =>
    rw [if_pos hchildren]
    exact h
  · next hchildren =>
    rw [if_neg hchildren]
    unfold skipTrivia at hnone ⊢
    split at hnone
    · refine h.ahead rfl rfl fun hrest ↦ ?_
      change (Cursor.advanceBy _ lexer.cursor).rest = []
      rw [rest_advanceBy, hrest, List.drop_nil]
    · exact report_leading h rfl hnone

theorem accept_leading (hend : lexer.cursor.atEnd = false) (h : lexer.Leading)
    (hnone : (accept options lexer lexer.scan).failure = none) :
    (accept options lexer lexer.scan).lexer.Leading := by
  have hrest : lexer.cursor.rest ≠ [] := by simpa [Cursor.atEnd] using hend
  unfold accept at hnone ⊢
  dsimp only at hnone ⊢
  split at hnone
  · next kind value length hscan =>
    refine h.of_push rfl (.inl hrest) (fun hold hfirst hname ↦ ?_) ?_
    · have hcode := h.inCode (by rw [hold]; rfl) hfirst
      refine (written_of_scan hcode (by rw [hold]; rfl) hfirst hrest hscan hname).imp_right ?_
      intro hdrop
      change (Cursor.advanceBy _ lexer.cursor).rest = []
      rw [rest_advanceBy, hscan]
      exact hdrop
    · exact isMarkup_after hrest hscan
  · exact report_leading h rfl hnone

theorem closeMarkup_leading (h : lexer.Leading)
    (hnone : (closeMarkup options lexer).failure = none) :
    (closeMarkup options lexer).lexer.Leading := by
  unfold closeMarkup at hnone ⊢
  split at hnone
  · exact report_leading h rfl hnone
  · exact report_leading h rfl hnone
  · exact h

end Lexer

/-- In the tokens of a source, names and words behind tokens that lead code are written as such,
unless an error follows them. -/
theorem tokenize_namesWritten {options : LexerOptions} {source : Bytes} {tokens : List Token}
    (h : (tokenize options source).result = .ok tokens) :
    ∃ front final, tokens = front ++ [final] ∧ final.kind = .eof ∧ NamesWritten front := by
  unfold LexerStep.result at h
  split at h
  · cases h
  · next hnone =>
    obtain rfl := Except.ok.inj h
    have hstart : (Lexer.ofSource source).Leading :=
      ⟨fun h ↦ by simp [Lexer.ofSource] at h, nofun, nofun⟩
    obtain ⟨last, hlast, hrun⟩ := Lexer.run_eq_pushEnd
      (fun _ h hnone ↦ Lexer.reachLexeme_leading h hnone)
      (fun _ hend h hnone ↦ Lexer.accept_leading hend h hnone)
      (fun _ h hnone ↦ Lexer.closeMarkup_leading h hnone) hstart hnone
    have htokenize : tokenize options source = last.pushEnd := hrun
    rw [htokenize]
    refine ⟨last.tokens.reverse, _, List.reverse_cons, rfl, ?_⟩
    intro before after first name next htokens
    have htriple : last.tokens = after.reverse ++ next :: name :: first :: before.reverse := by
      rw [List.reverse_eq_iff.mp htokens]
      simp
    exact hlast.written htriple

end SignalView
