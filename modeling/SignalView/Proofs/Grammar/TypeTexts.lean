import SignalView.Proofs.Grammar.Types
import SignalView.Proofs.Grammar.Values
import SignalView.Proofs.Text.Brackets
import SignalView.Proofs.Token.Brackets

/-!
# Brackets of types

Types are kept as text. What the grammar writes of a type is bracketed. The exceptions are what it
copies from the tokens as it stands: names, and the stretches that are passed over up to a closing
bracket, for which brackets of all kinds count alike.
-/

namespace SignalView

namespace Lookahead

/-- The search for a closing bracket looks at no token behind the one that it finds. -/
theorem matching_take {nesting : Int} {index close : Nat} {tokens : List Token}
    (h : matching nesting index tokens = some close) :
    ∃ count, close = index + count ∧
      matching nesting index (tokens.take (count + 1)) = some close := by
  fun_induction matching nesting index tokens with
  | case1 | case5 => cases h
  | case2 nesting index token rest hopening ih =>
    obtain ⟨count, rfl, hcount⟩ := ih h
    refine ⟨count + 1, by omega, ?_⟩
    rwa [List.take_succ_cons, matching, if_pos hopening]
  | case3 nesting index token rest hopening hclosing hlast =>
    cases h
    refine ⟨0, rfl, ?_⟩
    rw [List.take_succ_cons, matching, if_neg hopening, if_pos hclosing, if_pos hlast]
  | case4 nesting index token rest hopening hclosing hlast ih =>
    obtain ⟨count, rfl, hcount⟩ := ih h
    refine ⟨count + 1, by omega, ?_⟩
    rwa [List.take_succ_cons, matching, if_neg hopening, if_pos hclosing, if_neg hlast]
  | case6 nesting index token rest hopening hclosing hend ih =>
    obtain ⟨count, rfl, hcount⟩ := ih h
    refine ⟨count + 1, by omega, ?_⟩
    rwa [List.take_succ_cons, matching, if_neg hopening, if_neg hclosing, if_neg hend]

end Lookahead

/-- A text that types copy from the tokens as it stands: a name, or a stretch of tokens from where a
search for a closing bracket starts up to where it ends. -/
def Captured (tokens : List Token) (piece : Bytes) : Prop :=
  (∃ token ∈ tokens, token.kind = .identifier ∧ token.value = piece) ∨
  ∃ stretch, stretch <:+: tokens ∧ Lookahead.joinTokens stretch = piece ∧
    Lookahead.matching 0 0 stretch = some (stretch.length - 1)

theorem Captured.mono {tokens whole : List Token} {piece : Bytes} (h : Captured tokens piece)
    (hin : tokens <:+: whole) : Captured whole piece := by
  obtain ⟨token, hmem, htoken⟩ | ⟨stretch, hstretch, htext⟩ := h
  · exact .inl ⟨token, hin.subset hmem, htoken⟩
  · exact .inr ⟨stretch, hstretch.trans hin, htext⟩

/-- The text is bracketed, unless something that is copied into it from the tape is not. -/
abbrev Tape.Bracketed (tape : Tape) : Bytes → Prop := BracketedUpTo (Captured tape.tokens)

/-- The entry points of a grammar for types give bracketed texts, on a tape of orderly tokens. -/
structure Tape.Brackets (tape : Tape) (g : Grammar) : Prop where
  orderly : ∀ token ∈ tape.tokens, token.IsOrderly
  type (p : Nat) : tape.Provides p g.type tape.Bracketed
  typeOperator (p : Nat) : tape.Provides p g.typeOperator tape.Bracketed

namespace Grammar

open Parse Tape Bracket

variable {tape : Tape} {p : Nat} {g : Grammar}

/-! ## Tokens -/

section Tokens

variable (horderly : ∀ token ∈ tape.tokens, token.IsOrderly)
include horderly

theorem orderly_token (hlt : p < tape.size) : (tape.token p).IsOrderly :=
  horderly _ (token_mem hlt)

theorem template_raw {piece : TemplatePiece} (h : tape.kind p = .template piece) :
    IsRaw (tape.token p).value := by
  have htoken := orderly_token horderly (lt_size_of_kind h)
  rwa [Token.IsOrderly, token_kind, h] at htoken

theorem memberName_bracketed (h : (tape.kind p).isMemberName) (hlt : p < tape.size) :
    tape.Bracketed (tape.token p).value := by
  have htoken := orderly_token horderly hlt
  unfold Token.IsOrderly at htoken
  rw [token_kind] at htoken
  rcases Bool.or_eq_true_iff.mp h with hkind | hkind
  · exact .of_piece (.inl ⟨_, token_mem hlt, beq_iff_eq.mp hkind, rfl⟩)
  · cases hword : tape.kind p with
    | word w =>
      rw [hword] at htoken
      exact htoken.upTo
    | _ => simp [hword, TokenKind.isWord] at hkind

theorem name_bracketed (h : (tape.kind p).isName) (hlt : p < tape.size) :
    tape.Bracketed (tape.token p).value := by
  refine memberName_bracketed horderly ?_ hlt
  revert h
  cases tape.kind p <;>
    simp [TokenKind.isName, TokenKind.isMemberName, TokenKind.isContextual, TokenKind.isWord]

theorem propertyName_bracketed (h : (tape.kind p).isPropertyName) (hlt : p < tape.size) :
    tape.Bracketed (if tape.kind p == .string then Quoted.quoted (tape.token p).value
      else (tape.token p).value) := by
  split
  · exact (IsBracketed.quoted _).upTo
  · next hstring =>
    have htoken := orderly_token horderly hlt
    simp only [TokenKind.isPropertyName, Bool.or_eq_true] at h
    rcases h with ((h | h) | h) | h
    · exact memberName_bracketed horderly h hlt
    · exact absurd h hstring
    all_goals
      rw [Token.IsOrderly, token_kind, beq_iff_eq.mp h] at htoken
      exact htoken.upTo

theorem sign_bracketed (h : ([.minus, .plus].any fun m ↦ tape.kind p == .mark m) = true)
    (hlt : p < tape.size) : tape.Bracketed (tape.token p).value := by
  have htoken := orderly_token horderly hlt
  obtain ⟨m, hm, hkind⟩ := List.any_eq_true.mp h
  rw [Token.IsOrderly, token_kind, beq_iff_eq.mp hkind] at htoken
  rw [htoken]
  simp only [List.mem_cons, List.not_mem_nil, or_false] at hm
  rcases hm with rfl | rfl <;> exact IsBracketed.upTo (by decide)

end Tokens

/-! ## Stretches -/

theorem balanced_brackets : tape.Provides p balanced tape.Bracketed := by
  refine .within fun hp ↦ .ask ?_
  dsimp only
  split
  · exact .fail _ _
  · next close hclose =>
    have hlt := Reads.matching_lt hclose
    have hlength : (tape.cursor p).after.length = tape.size - p := List.length_drop
    refine .after (Reads.advanceBy (by omega)) fun _ q _ ↦ .pure (.of_piece (.inr ⟨_, ?_, rfl, ?_⟩))
    · exact (List.take_prefix _ _).isInfix.trans (List.drop_suffix p tape.tokens).isInfix
    · obtain ⟨count, hcount, hmatching⟩ := Lookahead.matching_take hclose
      rw [Nat.zero_add] at hcount
      rw [hcount, hmatching, hcount, List.length_take_of_le (by omega), Nat.add_sub_cancel]

section Brackets

variable (h : tape.Brackets g)

/-! ## Angle brackets -/

theorem squared {pieces : Bytes → Prop} {text : Bytes} (h : BracketedUpTo pieces text) :
    BracketedUpTo pieces (bytes "[" ++ text ++ bytes "]") :=
  h.between rfl rfl

theorem angled {pieces : Bytes → Prop} {texts : List Bytes}
    (h : ∀ text ∈ texts, BracketedUpTo pieces text) :
    BracketedUpTo pieces (bytes "<" ++ Bytes.join (bytes ", ") texts ++ bytes ">") :=
  (BracketedUpTo.join (by decide) h).between rfl rfl

instance openAngle_stays (what : String) : tape.Stays (openAngle what) :=
  .of_reads fun _ ↦ openAngle_passes what

instance closeAngle_stays (what : String) : tape.Stays (closeAngle what) :=
  .of_reads fun _ ↦ closeAngle_passes what

include h

/-- A type behind some text, where the text is there. -/
theorem typeBehind_brackets {present : Parse Bool} {q : Nat} {c : Prop}
    [Tests tape p present q c] {lead : Bytes} (hlead : IsBracketed lead) :
    tape.Provides p (textIf present do return lead ++ (← g.type)) tape.Bracketed := by
  refine .textIf (fun _ ↦ (h.type q).bind fun type _ htype ↦ .pure ?_) IsBracketed.nil.upTo
  exact htype.behind hlead

theorem typeArguments_brackets :
    tape.Provides p g.typeArguments fun args ↦ ∀ arg ∈ args, tape.Bracketed arg := by
  refine .skip fun _ q ↦ (Provides.commaList fun r _ ↦ h.type r).bind fun args s hargs ↦ ?_
  exact .skip fun _ _ ↦ .pure hargs

theorem angleArguments_brackets : tape.Provides p g.angleArguments tape.Bracketed := by
  refine .textIf (fun _ ↦ ?_) IsBracketed.nil.upTo
  exact (typeArguments_brackets h).bind fun args _ hargs ↦ .pure (angled hargs)

theorem typeParameter_brackets : tape.Provides p g.typeParameter tape.Bracketed := by
  refine (Provides.manyWhile (Q := tape.Bracketed) fun q hmodifier ↦ ?_).bind
    fun modifiers q hmodifiers ↦ ?_
  · have hword : (tape.kind q).isMemberName := by
      simp only [Bool.and_eq_true, Bool.or_eq_true, beq_iff_eq] at hmodifier
      rcases hmodifier.1 with (hkind | hkind) | ⟨hkind, -⟩ <;> rw [hkind] <;> rfl
    have hlt : q < tape.size := lt_size_of_holds (f := TokenKind.isMemberName) hword rfl
    exact .takes hlt (memberName_bracketed h.orderly hword hlt)
  · refine (Provides.expectName (name_bracketed h.orderly)).bind fun name r hname ↦ ?_
    refine (typeBehind_brackets h (by decide)).bind fun bound s hbound ↦ ?_
    refine (typeBehind_brackets h (by decide)).bind fun initial t hinitial ↦ .pure ?_
    have hlead : tape.Bracketed (modifiers.flatMap (· ++ bytes " ")) := by
      rw [List.flatMap_def]
      refine .flatten (List.forall_mem_map.mpr fun modifier hmem ↦ ?_)
      exact (hmodifiers modifier hmem).followed (by decide)
    exact ((hlead.append hname).append hbound).append hinitial

theorem typeParameters_brackets : tape.Provides p g.typeParameters tape.Bracketed := by
  refine .skip fun _ q ↦ ?_
  refine (Provides.commaList fun r _ ↦ typeParameter_brackets h).bind fun params s hparams ↦ ?_
  exact .skip fun _ _ ↦ .pure (angled hparams)

theorem optionalTypeParameters_brackets :
    tape.Provides p g.optionalTypeParameters tape.Bracketed :=
  .textIf (fun _ ↦ typeParameters_brackets h) IsBracketed.nil.upTo

/-! ## Annotations -/

theorem annotation_brackets : tape.Provides p g.annotation tape.Bracketed :=
  .textIf (fun _ ↦ h.type _) IsBracketed.nil.upTo

theorem annotationText_brackets : tape.Provides p g.annotationText tape.Bracketed := by
  refine (annotation_brackets h).bind fun type q htype ↦ .pure ?_
  split
  · exact IsBracketed.nil.upTo
  · exact htype.behind (by decide)

/-! ## Members of object types -/

theorem bracketedKey_brackets : tape.Provides p g.bracketedKey tape.Bracketed := by
  -- the name and the token behind it are there, because the end of input is neither
  have hkey {kind : TokenKind} [kind.Present]
      (hkey : ((tape.kind (p + 1)).isName && tape.kind (p + 2) == kind) = true)
      {next : Bytes → Parse Bytes}
      (hnext : ∀ key, tape.Bracketed key → tape.Provides (p + 3) (next key) tape.Bracketed) :
      tape.Provides p (do advance; let key ← take; advance; next key) tape.Bracketed := by
    obtain ⟨hname, hbehind⟩ := Bool.and_eq_true_iff.mp hkey
    have hlt : p + 2 < tape.size := lt_size_of_beq hbehind
    refine .advance (by omega) (.take (by omega) (.advance hlt (hnext _ ?_)))
    exact name_bracketed h.orderly hname (by omega)
  refine .ask (.ask (.ite (fun hfound ↦ ?_) fun _ ↦ .ask (.ask (.ite (fun hfound ↦ ?_) ?_))))
  · refine hkey hfound fun key hkey ↦ (h.type _).bind fun type _ htype ↦ .skip fun _ _ ↦ .pure ?_
    have hinner := (hkey.followed (by decide : IsBracketed (bytes ": "))).append htype
    simpa only [List.append_assoc] using squared hinner
  · refine hkey hfound fun key hkey ↦ (h.type _).bind fun source _ hsource ↦ ?_
    refine (typeBehind_brackets h (by decide)).bind fun renamed _ hrenamed ↦ ?_
    refine .skip fun _ _ ↦ .pure ?_
    have hinner := (hkey.followed (by decide : IsBracketed (bytes " in "))).append hsource
    simpa only [List.append_assoc] using squared (hinner.append hrenamed)
  · exact fun _ ↦ balanced_brackets

theorem propertyNameText_brackets : tape.Provides p propertyNameText tape.Bracketed := by
  refine .ask (.ite (fun hname ↦ ?_) fun _ ↦ .fail _ _)
  have hlt : p < tape.size := lt_size_of_holds (f := TokenKind.isPropertyName) hname rfl
  exact .advance hlt (.pure (propertyName_bracketed h.orderly hname hlt))

theorem parameterText_brackets : tape.Provides p g.parameterText tape.Bracketed := by
  refine (Provides.textIf (fun _ ↦ typeParameters_brackets h) IsBracketed.nil.upTo).bind ?_
  refine fun typeParameters q htypes ↦ balanced_brackets.bind fun params r hparams ↦ .pure ?_
  exact htypes.append hparams

theorem readonlyText_brackets : tape.Provides p readonlyText tape.Bracketed := by
  refine .ask (.ask (.ite (fun hfound ↦ ?_) fun _ ↦ .ask (.ask (.ite (fun hfound ↦ ?_) ?_))))
  · obtain ⟨hsign, hword⟩ := Bool.and_eq_true_iff.mp hfound
    have hlt : p + 1 < tape.size := lt_size_of_beq hword
    refine .take (by omega) (.advance hlt (.pure ?_))
    exact (sign_bracketed h.orderly hsign (by omega)).followed (by decide)
  · exact .skip fun _ _ ↦ .pure (IsBracketed.upTo (by decide))
  · exact fun _ ↦ .pure IsBracketed.nil.upTo

omit h in
/-- A question mark that may be missing. -/
theorem question_brackets :
    tape.Provides p (textIf (acceptMark .question) (return bytes "?")) tape.Bracketed :=
  .textIf (fun _ ↦ .pure (IsBracketed.upTo (by decide))) IsBracketed.nil.upTo

theorem optionalText_brackets : tape.Provides p optionalText tape.Bracketed := by
  refine .ask (.ask (.ite (fun hfound ↦ ?_) fun _ ↦ question_brackets))
  obtain ⟨hsign, hmark⟩ := Bool.and_eq_true_iff.mp hfound
  have hlt : p + 1 < tape.size := lt_size_of_beq hmark
  refine .take (by omega) (.advance hlt (.pure ?_))
  exact (sign_bracketed h.orderly hsign (by omega)).followed (by decide)

theorem memberKeyText_brackets : tape.Provides p g.memberKeyText tape.Bracketed := by
  refine .test (fun _ ↦ bracketedKey_brackets h) (.ask (.ask (.ask (.ask ?_))))
  refine (Provides.textIf (Q := tape.Bracketed) (fun hfound ↦ ?_) IsBracketed.nil.upTo).bind
    fun accessor q haccessor ↦ (propertyNameText_brackets h).bind fun name _ hname ↦ .pure ?_
  · have hword : (tape.kind p).isMemberName := by
      simp only [Bool.and_eq_true, Bool.or_eq_true, beq_iff_eq] at hfound
      rcases hfound.1.1 with hkind | hkind <;> rw [hkind] <;> rfl
    have hlt : p < tape.size := lt_size_of_holds (f := TokenKind.isMemberName) hword rfl
    refine .take hlt (.pure ?_)
    exact (memberName_bracketed h.orderly hword hlt).followed (by decide)
  · exact haccessor.append hname

/-- The signature and the annotation behind the front of a member. -/
theorem signature_brackets {lead : Bytes} (hlead : tape.Bracketed lead) : tape.Provides p (do
    let params ← g.parameterText
    return lead ++ params ++ (← g.annotationText)) tape.Bracketed := by
  refine (parameterText_brackets h).bind fun params _ hparams ↦ ?_
  refine (annotationText_brackets h).bind fun type _ htype ↦ .pure ?_
  exact (hlead.append hparams).append htype

theorem typeMember_brackets : tape.Provides p g.typeMember tape.Bracketed := by
  refine (readonlyText_brackets h).bind fun lead q hlead ↦ ?_
  refine .ask (.ask (.ask (.test (fun _ ↦ ?_) (.ite (fun _ ↦ .skip fun _ r ↦ ?_) fun _ ↦ ?_))))
  · exact signature_brackets h hlead
  · exact signature_brackets h (hlead.followed (by decide))
  · refine (memberKeyText_brackets h).bind fun key r hkey ↦ ?_
    refine (optionalText_brackets h).bind fun optional s hoptional ↦ ?_
    refine (Provides.textIf (fun _ ↦ parameterText_brackets h) IsBracketed.nil.upTo).bind ?_
    refine fun params t hparams ↦ (annotationText_brackets h).bind fun type _ htype ↦ .pure ?_
    exact (((hlead.append hkey).append hoptional).append hparams).append htype

theorem typeMembers_brackets :
    tape.Provides p g.typeMembers fun texts ↦ ∀ text ∈ texts, tape.Bracketed text := by
  refine .manyWhile fun q _ ↦ (typeMember_brackets h).bind fun text r htext ↦ ?_
  exact .ask (.whenSo fun _ ↦ .pure htext)

theorem objectType_brackets : tape.Provides p g.objectType tape.Bracketed := by
  refine .skip fun _ q ↦ (typeMembers_brackets h).bind fun texts _ htexts ↦ .skip fun _ _ ↦ ?_
  refine .ite (fun _ ↦ .pure (IsBracketed.upTo (by decide))) fun _ ↦ .pure ?_
  exact (BracketedUpTo.join (by decide) htexts).between rfl rfl

/-! ## Tuples and templates -/

theorem tupleElement_brackets : tape.Provides p g.tupleElement tape.Bracketed := by
  refine (Provides.textIf (Q := tape.Bracketed) (fun _ ↦ .pure (IsBracketed.upTo (by decide)))
    IsBracketed.nil.upTo).bind fun spread q hspread ↦ .ask (.ask (.ask (.ask ?_)))
  refine (Provides.textIf (Q := tape.Bracketed) (fun hlabel ↦ ?_) IsBracketed.nil.upTo).bind
    fun label r hlabel ↦ ?_
  · have hname := (Bool.and_eq_true_iff.mp hlabel).1
    have hlt : q < tape.size := lt_size_of_holds (f := TokenKind.isName) hname rfl
    refine .take hlt (question_brackets.bind fun optional _ hoptional ↦ ?_)
    refine .skip fun _ _ ↦ .pure ?_
    exact ((name_bracketed h.orderly hname hlt).append hoptional).followed (by decide)
  · refine (h.type r).bind fun type _ htype ↦ question_brackets.bind fun optional _ hoptional ↦ ?_
    exact .pure (((hspread.append hlabel).append htype).append hoptional)

theorem tupleType_brackets : tape.Provides p g.tupleType tape.Bracketed := by
  refine .skip fun _ q ↦ (Provides.commaList fun r _ ↦ tupleElement_brackets h).bind ?_
  refine fun elements _ helements ↦ .skip fun _ _ ↦ .pure ?_
  exact (BracketedUpTo.join (by decide) helements).between rfl rfl

/-! ## Operands -/

theorem arrowType_brackets (message : String) {params : Bytes} (hparams : tape.Bracketed params) :
    tape.Provides p (g.arrowType message params) tape.Bracketed := by
  refine .skip fun _ q ↦ (h.type q).bind fun type _ htype ↦ .pure ?_
  exact (hparams.followed (by decide)).append htype

theorem parenthesizedType_brackets : tape.Provides p g.parenthesizedType tape.Bracketed := by
  refine .ask (.ite (fun _ ↦ ?_) fun _ ↦ .skip fun _ q ↦ (h.type q).bind fun inner _ hinner ↦ ?_)
  · exact balanced_brackets.bind fun params _ hparams ↦ arrowType_brackets h _ hparams
  · exact .skip fun _ _ ↦ .pure (hinner.between rfl rfl)

theorem constructorType_brackets : tape.Provides p g.constructorType tape.Bracketed := by
  refine .skip fun _ q ↦ (optionalTypeParameters_brackets h).bind fun types _ htypes ↦ ?_
  refine balanced_brackets.bind fun params _ hparams ↦ ?_
  refine (arrowType_brackets h _ (htypes.append hparams)).bind fun type _ htype ↦ .pure ?_
  exact htype.behind (by decide)

theorem predicateOr_brackets {subject : Bytes} (hsubject : tape.Bracketed subject)
    {otherwise : Parse Bytes} (hother : tape.Provides p otherwise tape.Bracketed) :
    tape.Provides p (g.predicateOr subject otherwise) tape.Bracketed := by
  refine .ask (.ask (.ite (fun _ ↦ .skip fun _ q ↦ ?_) fun _ ↦ hother))
  refine (h.type q).bind fun type _ htype ↦ .pure ?_
  exact (hsubject.followed (by decide)).append htype

/-- Names behind dots, in front of type arguments. -/
theorem path_brackets {lead : Bytes} (hlead : tape.Bracketed lead) {name : Parse Bytes}
    (hname : ∀ q, tape.Provides q name tape.Bracketed) : tape.Provides p (do
      let path ← dottedNames g.rounds name
      return lead ++ path ++ (← g.angleArguments)) tape.Bracketed := by
  have hpath : tape.Provides p (dottedNames g.rounds name) tape.Bracketed := by
    refine (Provides.manyWhile fun q _ ↦ hname _).bind fun names _ hnames ↦ .pure ?_
    rw [List.flatMap_def]
    refine .flatten (List.forall_mem_map.mpr fun name hmem ↦ ?_)
    exact (hnames name hmem).behind (by decide)
  refine hpath.bind fun path _ hpath ↦ (angleArguments_brackets h).bind fun args _ hargs ↦ .pure ?_
  exact (hlead.append hpath).append hargs

theorem memberName_brackets {code message : String} :
    tape.Provides p (expectMemberName code message) tape.Bracketed :=
  .expectMemberName (memberName_bracketed h.orderly)

theorem typeQuery_brackets : tape.Provides p g.typeQuery tape.Bracketed := by
  have htypeof : IsBracketed (bytes "typeof ") := by decide
  refine .skip fun _ q ↦ .test (fun _ ↦ ?_) ?_
  · refine balanced_brackets.bind fun source _ hsource ↦ .ask ?_
    refine path_brackets h (htypeof.upTo.append ?_) fun _ ↦ memberName_brackets h
    exact hsource.behind (by decide)
  · refine (Provides.expectName (name_bracketed h.orderly)).bind fun name _ hname ↦ ?_
    exact path_brackets h (htypeof.upTo.append hname) fun _ ↦ memberName_brackets h

theorem importType_brackets : tape.Provides p g.importType tape.Bracketed := by
  refine .skip fun _ q ↦ balanced_brackets.bind fun source _ hsource ↦ ?_
  refine path_brackets h (hsource.behind (by decide)) fun _ ↦ ?_
  exact .expectName (name_bracketed h.orderly)

theorem typeReference_brackets : tape.Provides p g.typeReference tape.Bracketed := by
  refine .test (fun hname ↦ ?_) (.bind (P := fun _ ↦ False) (.fail _ _) fun _ _ ↦ False.elim)
  have hlt : p < tape.size := lt_size_of_holds (f := TokenKind.isName) hname rfl
  refine .ask (.ask (.ask (.ite (fun hasserts ↦ ?_) fun _ ↦ .take hlt ?_)))
  · have hname := (Bool.and_eq_true_iff.mp (Bool.and_eq_true_iff.mp hasserts).1).2
    have hlt' : p + 1 < tape.size := lt_size_of_holds (f := TokenKind.isName) hname rfl
    have hsubject : tape.Bracketed (bytes "asserts " ++ (tape.token (p + 1)).value) :=
      (name_bracketed h.orderly hname hlt').behind (by decide)
    exact .advance hlt (.take hlt' (predicateOr_brackets h hsubject (.pure hsubject)))
  · have hname := name_bracketed h.orderly hname hlt
    exact predicateOr_brackets h hname (path_brackets h hname fun _ ↦ memberName_brackets h)

/-- Before its tail is read, the text of a template type is a template that is open. -/
theorem templateType_brackets {head : Bytes} (hhead : IsRaw head) :
    tape.Provides p (g.templateType head) tape.Bracketed := by
  refine .iterateTo (P := GoodUpTo (Captured tape.tokens) (OpensTemplate {}))
    (fun text q htext ↦ (h.type q).bind fun hole r hhole ↦ ?_) (.inl hhead.open)
  -- a piece of raw text behind the hole
  have hopen {raw : Bytes} (hraw : IsRaw raw) :
      GoodUpTo (Captured tape.tokens) (OpensTemplate {})
        (text ++ bytes "$\x7b" ++ hole ++ bytes "\x7d" ++ raw) := by
    refine htext.of_inner (fun htext ↦ hhole.of_inner (fun hhole ↦ .inl ?_) ?_) ?_
    · exact htext.substitution hhole hraw
    · exact ⟨text ++ bytes "$\x7b", bytes "\x7d" ++ raw, by simp only [List.append_assoc]⟩
    · exact ⟨[], bytes "$\x7b" ++ hole ++ bytes "\x7d" ++ raw, by simp [List.append_assoc]⟩
  refine .ask (.test (fun hmiddle ↦ .pure ?_) (.expect fun htail _ ↦ .pure ?_))
  · exact hopen (template_raw h.orderly hmiddle.1)
  · refine (hopen (template_raw h.orderly htail)).of_inner (fun htext ↦ .inl htext.closed) ?_
    exact (List.prefix_append _ _).isInfix

theorem primaryType_brackets : tape.Provides p g.primaryType tape.Bracketed := by
  have hgeneric (message : String) : tape.Provides p (do
      let typeParameters ← g.typeParameters
      let params ← balanced
      g.arrowType message (typeParameters ++ params)) tape.Bracketed := by
    refine (typeParameters_brackets h).bind fun types _ htypes ↦ ?_
    exact balanced_brackets.bind fun params _ hparams ↦
      arrowType_brackets h _ (htypes.append hparams)
  have htake (hproperty : (tape.kind p).isPropertyName) (hstring : tape.kind p ≠ .string) :
      tape.Provides p take tape.Bracketed := by
    have hlt : p < tape.size := lt_size_of_holds (f := TokenKind.isPropertyName) hproperty rfl
    have hvalue := propertyName_bracketed h.orderly hproperty hlt
    rw [if_neg (by simpa using hstring)] at hvalue
    exact .takes hlt hvalue
  refine .ask ?_
  split
  · exact parenthesizedType_brackets h
  · exact hgeneric _
  · exact hgeneric _
  · exact constructorType_brackets h
  · refine .test (fun _ ↦ .skip fun _ q ↦ ?_) (typeReference_brackets h)
    exact (constructorType_brackets h).bind fun type _ htype ↦ .pure (htype.behind (by decide))
  · exact objectType_brackets h
  · exact tupleType_brackets h
  · exact .skip fun _ _ ↦ .pure (IsBracketed.quoted _).upTo
  iterate 7
    next hkind =>
    exact htake (by rw [← token_kind, hkind]; rfl) (by rw [← token_kind, hkind]; rintro ⟨⟩)
  · next hkind =>
    have hthis := memberName_bracketed h.orderly (by rw [← token_kind, hkind]; rfl)
      (lt_size_of_kind hkind)
    exact .skip fun _ _ ↦ predicateOr_brackets h (IsBracketed.upTo (by decide)) (.pure hthis)
  · refine .skip fun _ q ↦ .expect fun hkind hlt ↦ .pure ?_
    have htoken := orderly_token h.orderly hlt
    rw [Token.IsOrderly, token_kind, hkind] at htoken
    exact htoken.upTo.behind (by decide)
  · next hkind => exact .skip fun _ _ ↦ .pure (template_raw h.orderly hkind).open.closed.upTo
  · next hkind => exact .skip fun _ _ ↦ templateType_brackets h (template_raw h.orderly hkind)
  · exact typeQuery_brackets h
  · exact importType_brackets h
  · exact typeReference_brackets h

/-! ## Operators -/

theorem suffixedType_brackets : tape.Provides p g.suffixedType tape.Bracketed := by
  refine (primaryType_brackets h).bind fun first q hfirst ↦ ?_
  refine .iterate (fun text r htext ↦ .ask (.ask (.ite (fun _ ↦ ?_) fun _ ↦ .pure htext))) hfirst
  refine .skip fun _ s ↦ .test (fun _ ↦ .pure (htext.followed (by decide))) ?_
  refine (h.type _).bind fun index _ hindex ↦ .skip fun _ _ ↦ .pure ?_
  simpa only [List.append_assoc] using htext.append (squared hindex)

theorem inferredBound_brackets : tape.Provides p g.inferredBound tape.Bracketed := by
  refine .within fun hp ↦ .ask (.ask (.ite (fun _ ↦ .ask (.skip fun _ q ↦ ?_)) fun _ ↦ ?_))
  · refine (suffixedType_brackets h).bind fun bound r hbound ↦ .ask (.ite (fun _ ↦ ?_) fun _ ↦ ?_)
    · exact .resume hp (.pure IsBracketed.nil.upTo)
    · exact .pure (hbound.behind (by decide))
  · exact .pure IsBracketed.nil.upTo

theorem typeOperatorStep_brackets : tape.Provides p g.typeOperatorStep tape.Bracketed := by
  refine .ask (.ask (.ask (.ask (.ite (fun hfound ↦ ?_) fun _ ↦ suffixedType_brackets h))))
  have hword : (tape.kind p).isMemberName := by
    simp only [Bool.or_eq_true, Bool.and_eq_true, beq_iff_eq] at hfound
    rcases hfound with ((hkind | hkind) | ⟨hkind, -⟩) | ⟨hkind, -⟩ <;> rw [hkind] <;> rfl
  have hlt : p < tape.size := lt_size_of_holds (f := TokenKind.isMemberName) hword rfl
  refine .take hlt ((h.typeOperator _).bind fun operand q hoperand ↦ ?_)
  refine (Provides.textIf (fun _ ↦ inferredBound_brackets h) IsBracketed.nil.upTo).bind ?_
  refine fun bound _ hbound ↦ .pure ?_
  have hop := memberName_bracketed h.orderly hword hlt
  exact ((hop.followed (by decide)).append hoperand).append hbound

omit h in
theorem joinedTypes_brackets {m : Mark} (hm : IsBracketed (bytes " " ++ bytes m.text ++ bytes " "))
    {operand : Parse Bytes} (hoperand : ∀ q, tape.Provides q operand tape.Bracketed) :
    tape.Provides p (g.joinedTypes m operand) tape.Bracketed := by
  refine .skip fun _ q ↦ (Provides.separated hoperand).bind fun operands _ hoperands ↦ .pure ?_
  exact .join hm hoperands

theorem unionType_brackets : tape.Provides p g.unionType tape.Bracketed :=
  joinedTypes_brackets (by decide) fun _ ↦ joinedTypes_brackets (by decide) h.typeOperator

theorem typeStep_brackets : tape.Provides p g.typeStep tape.Bracketed := by
  refine .nested ((unionType_brackets h).bind fun checked q hchecked ↦ ?_)
  refine .ask (.ask (.ite (fun _ ↦ .skip fun _ r ↦ ?_) fun _ ↦ .pure hchecked))
  refine (unionType_brackets h).bind fun bound _ hbound ↦ .skip fun _ s ↦ ?_
  refine (h.type s).bind fun whenTrue _ htrue ↦ .skip fun _ t ↦ ?_
  refine (h.type t).bind fun whenFalse _ hfalse ↦ .pure ?_
  have hcondition := (hchecked.followed (by decide : IsBracketed (bytes " extends "))).append hbound
  have hconsequent := (hcondition.followed (by decide : IsBracketed (bytes " ? "))).append htrue
  exact (hconsequent.followed (by decide)).append hfalse

end Brackets

end Grammar

/-- Every level gives bracketed types. -/
theorem grammar_brackets {tape : Tape} (horderly : ∀ token ∈ tape.tokens, token.IsOrderly)
    (level : Nat) : tape.Brackets (grammar level) := by
  induction level with
  | zero =>
    exact {
      orderly := horderly
      type := fun _ ↦ .failWith _
      typeOperator := fun _ ↦ .failWith _ }
  | succ level ih =>
    exact {
      orderly := horderly
      type := fun _ ↦ Grammar.typeStep_brackets ih
      typeOperator := fun _ ↦ Grammar.typeOperatorStep_brackets ih }

end SignalView
