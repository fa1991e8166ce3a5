import SignalView.Proofs.Script.ImportText
import SignalView.Proofs.Token.Block

/-!
# The tokens of import statements

The text of a clause whose names are written as such is cut into the tokens of the clause, wherever
it stands. A text that is cut into tokens says which bytes may not follow it: a name must not go on.
-/

namespace SignalView

def Word.sign (w : Word) : Sign := ⟨.word w, bytes w.spelling⟩

/-- The token that a text is scanned as. -/
def Sign.read (text : Bytes) : Sign :=
  match (Scan.code none [] text).lexeme with
  | .token kind value _ => ⟨kind, value⟩
  | .fault _ _ => ⟨.error, []⟩

theorem Lexes.read_eq {text : Bytes} {sign : Sign} (h : Lexes none text [] sign) :
    Sign.read text = sign := by
  have hcode := h.code_eq
  rw [List.append_nil] at hcode
  rw [Sign.read, hcode]

theorem Sign.Written.lexes {sign : Sign} (h : sign.Written) {previous : Option TokenKind}
    {after : Bytes} (hdot : isDot previous = false) (hafter : Avoids continues after) :
    Lexes previous sign.value after sign := by
  cases h with
  | name hname hnone => exact .name hname hafter (.inr hnone)
  | word w => exact .word w hafter hdot

theorem Sign.Written.read_eq {sign : Sign} (h : sign.Written) : Sign.read sign.value = sign :=
  (h.lexes rfl (.nil _)).read_eq

theorem Sign.read_quoted (value : Bytes) : Sign.read (Quoted.quoted value) = ⟨.string, value⟩ :=
  (Lexes.string value).read_eq

/-! ## Pieces of text -/

/-- Wherever a text stands in which no brace stays open, it is cut into tokens, unless a byte of a
kind follows. -/
def IsPiece (goesOn : UInt8 → Bool) (text : Bytes) (signs : List Sign) : Prop :=
  ∀ ⦃previous : Option TokenKind⦄ ⦃after : Bytes⦄ ⦃depth : Nat⦄, isDot previous = false →
    Avoids goesOn after →
      ∃ last, BlockCuts after previous depth text signs last depth ∧ isDot last = false

namespace IsPiece

variable {goesOn goesOn' : UInt8 → Bool} {text back : Bytes} {signs more : List Sign}

theorem nil : IsPiece goesOn [] [] :=
  fun previous _ depth hdot _ ↦ ⟨previous, .nil previous depth, hdot⟩

theorem append (h : IsPiece goesOn text signs) (hback : IsPiece goesOn' back more)
    (hbetween : ∀ after, Avoids goesOn' after → Avoids goesOn (back ++ after)) :
    IsPiece goesOn' (text ++ back) (signs ++ more) := by
  intro previous after depth hdot hafter
  obtain ⟨middle, hfront, hmiddle⟩ := h hdot (hbetween after hafter)
  obtain ⟨last, hcuts, hlast⟩ := hback hmiddle hafter
  exact ⟨last, hfront.append hcuts, hlast⟩

/-- Behind a text that asks for nothing. -/
theorem append_closed (h : IsPiece (fun _ ↦ false) text signs) (hback : IsPiece goesOn back more) :
    IsPiece goesOn (text ++ back) (signs ++ more) := h.append hback fun _ _ _ _ ↦ rfl

theorem mono (h : IsPiece goesOn text signs) (hmono : ∀ b, goesOn' b = false → goesOn b = false) :
    IsPiece goesOn' text signs :=
  fun _ _ _ hdot hafter ↦ h hdot fun b hb ↦ hmono b (hafter b hb)

theorem space {b : UInt8} (hb : Byte.isSpace b = true) (h : IsPiece goesOn text signs) :
    IsPiece goesOn (b :: text) signs := by
  intro previous after depth hdot hafter
  obtain ⟨last, hcuts, hlast⟩ := h hdot hafter
  exact ⟨last, .space hb hcuts, hlast⟩

/-- Two texts with a space between them. -/
theorem spaced (h : IsPiece continues text signs) (hback : IsPiece goesOn back more) :
    IsPiece goesOn (text ++ 32 :: back) (signs ++ more) := by
  refine h.append (hback.space rfl) fun after _ b hb ↦ ?_
  cases hb
  rfl

/-- A text that is a single token. -/
theorem single {b : UInt8} {sign : Sign} (hhead : text.head? = some b) (hb : isBracket b = false)
    (hdot : isDot (some sign.kind) = false)
    (h : ∀ ⦃previous after⦄, isDot previous = false → Avoids goesOn after →
      Lexes previous text after sign) : IsPiece goesOn text [sign] :=
  fun _ _ _ hprevious hafter ↦ ⟨_, .single hhead hb (h hprevious hafter), hdot⟩

theorem mark {m : Mark} {b : UInt8} (hhead : (bytes m.text).head? = some b)
    (hb : isBracket b = false) (hfree : Lexes.isFree m = true) (hlonger : Lexes.longer m = []) :
    IsPiece (fun _ ↦ false) (bytes m.text) [m.sign] := by
  refine .single hhead hb ?_ fun _ _ _ _ ↦ .solid hfree hlonger
  cases m <;> first | rfl | cases hfree

/-- A name or a word. -/
theorem written {sign : Sign} (h : sign.Written) : IsPiece continues sign.value [sign] := by
  have hstarts := h.isName.starts
  obtain ⟨b, more, hcons⟩ := List.exists_cons_of_ne_nil (Literal.ne_nil_of_startsName hstarts)
  have hopens : ∀ b, Literal.opensName b = true → isBracket b = false :=
    Literal.forall_byte (by decide +kernel)
  have hb : Literal.opensName b = true := by
    rw [hcons] at hstarts
    exact Literal.opensName_of_startsName hstarts
  refine .single (by rw [hcons]; rfl) (hopens b hb) ?_ fun _ _ hdot hafter ↦ h.lexes hdot hafter
  cases h <;> rfl

theorem word (w : Word) : IsPiece continues (bytes w.spelling) [w.sign] := .written (.word w)

theorem string (value : Bytes) :
    IsPiece (fun _ ↦ false) (Quoted.quoted value) [⟨.string, value⟩] :=
  .single rfl rfl rfl fun _ _ _ _ ↦ .string value

theorem of_isBindingName {name : Bytes} (h : IsBindingName name) :
    IsPiece continues name [Sign.read name] := by
  obtain ⟨kind, -, hwritten⟩ := h
  rw [hwritten.read_eq]
  exact .written hwritten

theorem of_isExportName {name : Bytes} (h : IsExportName name) :
    IsPiece continues name [Sign.read name] := by
  obtain ⟨kind, hwritten⟩ | ⟨value, rfl⟩ := h
  · rw [hwritten.read_eq]
    exact .written hwritten
  · rw [Sign.read_quoted]
    exact (string value).mono fun _ _ ↦ rfl

/-- Texts with commas between them. -/
theorem commas {parts : List (Bytes × List Sign)}
    (h : ∀ part ∈ parts, IsPiece continues part.1 part.2) :
    IsPiece continues (Bytes.join (bytes ", ") (parts.map (·.1)))
      ([Mark.comma.sign].intercalate (parts.map (·.2))) := by
  have hcomma : IsPiece (fun _ ↦ false) (bytes ",") [Mark.comma.sign] :=
    mark (m := .comma) rfl rfl (by decide) (by decide)
  induction parts with
  | nil => exact .nil
  | cons part parts ih =>
    obtain ⟨hpart, hparts⟩ := List.forall_mem_cons.mp h
    cases parts with
    | nil => simpa [Bytes.join] using hpart
    | cons next parts =>
      have hrest : IsPiece continues
          (bytes ", " ++ Bytes.join (bytes ", ") ((next :: parts).map (·.1)))
          (Mark.comma.sign :: [Mark.comma.sign].intercalate ((next :: parts).map (·.2))) :=
        hcomma.append_closed ((ih hparts).space rfl)
      have hall := hpart.append hrest fun after _ b hb ↦ by
        cases hb
        rfl
      simpa [Bytes.join] using hall

/-- A list between braces. -/
theorem braces (h : IsPiece continues text signs) :
    IsPiece (fun _ ↦ false) (ModuleImports.inBraces text)
      (Mark.openBrace.sign :: (signs ++ [Mark.closeBrace.sign])) := by
  intro previous after depth _ _
  have hclose : Avoids continues (bytes " \x7d" ++ after) := by
    rintro b ⟨⟩
    rfl
  have hopen : isDot (some (.mark .openBrace)) = false := rfl
  obtain ⟨last, hcuts, -⟩ := @h _ _ (depth + 1) hopen hclose
  have hback : BlockCuts after last (depth + 1) (bytes " \x7d") [Mark.closeBrace.sign] _ depth :=
    .space rfl (.closeBrace (.nil _ depth))
  refine ⟨some (.mark .closeBrace), ?_, rfl⟩
  rw [ModuleImports.inBraces, List.append_assoc]
  exact .openBrace (.space rfl (hcuts.append hback))

end IsPiece

/-! ## Statements -/

def ImportBinding.signs (b : ImportBinding) : List Sign :=
  if b.imported == b.localName then [.read b.imported]
  else [.read b.imported, Word.as.sign, .read b.localName]

theorem ImportBinding.isPiece {b : ImportBinding} (h : b.WellNamed) :
    IsPiece continues (ModuleImports.bindingText (bytes " as ") b) b.signs := by
  unfold ModuleImports.bindingText signs
  have himported := IsPiece.of_isExportName h.exported
  split
  · exact himported
  · next hne =>
    have hbinding := h.bound.resolve_left fun heq ↦ hne (by rw [heq, BEq.rfl])
    have hall := himported.spaced ((IsPiece.word .as).spaced (IsPiece.of_isBindingName hbinding))
    rw [List.append_assoc]
    exact hall

theorem ImportBinding.isPiece_list {bindings : List ImportBinding}
    (h : ∀ b ∈ bindings, b.WellNamed) :
    IsPiece continues (ModuleImports.bindingsText (bytes " as ") bindings)
      ([Mark.comma.sign].intercalate (bindings.map (·.signs))) := by
  have hfilter : (bindings.map (ModuleImports.bindingText (bytes " as "))).filter (!·.isEmpty) =
      bindings.map (ModuleImports.bindingText (bytes " as ")) := by
    refine List.filter_eq_self.mpr fun text htext ↦ ?_
    obtain ⟨b, hb, rfl⟩ := List.mem_map.mp htext
    have himported := (h b hb).exported.isEmpty_eq
    unfold ModuleImports.bindingText
    split <;> simp_all
  have hparts : ∀ part ∈ bindings.map fun b ↦ (ModuleImports.bindingText (bytes " as ") b, b.signs),
      IsPiece continues part.1 part.2 := by
    intro part hpart
    obtain ⟨b, hb, rfl⟩ := List.mem_map.mp hpart
    exact b.isPiece (h b hb)
  have hcommas := IsPiece.commas hparts
  rw [List.map_map, List.map_map] at hcommas
  rw [ModuleImports.bindingsText, hfilter]
  exact hcommas

namespace ImportClause

/-- The list of a clause, without the marks of single types. -/
def listed (clause : ImportClause) : List ImportBinding :=
  clause.specifiers.map fun s ↦ ⟨s.imported, s.localName⟩

/-- The default, the namespace and the list of a clause: their texts and their tokens. -/
def parts (clause : ImportClause) : List (Bytes × List Sign) :=
  (if clause.defaultName.isEmpty then [] else [(clause.defaultName, [.read clause.defaultName])]) ++
    (if clause.namespaceName.isEmpty then []
    else [(bytes "* as " ++ clause.namespaceName,
      [Mark.star.sign, Word.as.sign, .read clause.namespaceName])]) ++
    if clause.specifiers.isEmpty then []
    else [(ModuleImports.inBraces (ModuleImports.bindingsText (bytes " as ") clause.listed),
      Mark.openBrace.sign ::
        ([Mark.comma.sign].intercalate (clause.listed.map (·.signs)) ++ [Mark.closeBrace.sign]))]

/-- The tokens of a clause. -/
def signs (clause : ImportClause) : List Sign :=
  let origin := [⟨.string, clause.source⟩, Mark.semicolon.sign]
  if clause.isSideEffect then Word.import_.sign :: origin
  else
    Word.import_.sign :: ((if clause.typeOnly then [Word.type.sign] else []) ++
      [Mark.comma.sign].intercalate (clause.parts.map (·.2)) ++ Word.from_.sign :: origin)

variable {clause : ImportClause}

theorem text_eq (h : clause.isSideEffect = false) :
    clause.text = bytes (if clause.typeOnly then "import type " else "import ") ++
      Bytes.join (bytes ", ") (clause.parts.map (·.1)) ++
        (bytes " from " ++ (Quoted.quoted clause.source ++ bytes ";\n")) := by
  rw [text, h, if_neg Bool.false_ne_true]
  simp only [parts, List.map_append, apply_ite (List.map Prod.fst), List.map_cons, List.map_nil,
    listed]

theorem isPiece_of_mem_parts (h : clause.WellNamed) {part : Bytes × List Sign}
    (hpart : part ∈ clause.parts) : IsPiece continues part.1 part.2 := by
  simp only [parts, List.mem_append, List.mem_ite_nil_left, List.mem_singleton,
    List.isEmpty_iff] at hpart
  obtain (⟨hne, rfl⟩ | ⟨hne, rfl⟩) | ⟨-, rfl⟩ := hpart
  · exact .of_isBindingName (h.defaultName.resolve_left hne)
  · have hname := IsPiece.of_isBindingName (h.namespaceName.resolve_left hne)
    have hstar : IsPiece (Lexes.longer .star).contains (bytes "*") [Mark.star.sign] :=
      .single rfl rfl rfl fun _ _ _ hafter ↦ .mark (m := .star) (by decide) hafter
    refine hstar.append (((IsPiece.word .as).spaced hname).space rfl) fun after _ b hb ↦ ?_
    cases hb
    decide
  · refine ((ImportBinding.isPiece_list fun b hb ↦ ?_).braces).mono fun _ _ ↦ rfl
    obtain ⟨s, hs, rfl⟩ := List.mem_map.mp hb
    exact h.specifiers s hs

/-- The text of a clause is cut into its tokens. -/
theorem isPiece (h : clause.WellNamed) : IsPiece (fun _ ↦ false) clause.text clause.signs := by
  have hend : IsPiece (fun _ ↦ false) (bytes ";\n") [Mark.semicolon.sign] := by
    have hmark := IsPiece.mark (m := .semicolon) rfl rfl (by decide) (by decide)
    exact hmark.append_closed (.space rfl .nil)
  have horigin := (IsPiece.string clause.source).append_closed hend
  cases heffect : clause.isSideEffect with
  | true =>
    rw [text, signs, heffect, if_pos rfl, if_pos rfl]
    exact (IsPiece.word .import_).spaced horigin
  | false =>
    rw [text_eq heffect, signs, heffect, if_neg Bool.false_ne_true]
    have hnames := IsPiece.commas fun part ↦ isPiece_of_mem_parts h
    have hrest := hnames.spaced ((IsPiece.word .from_).spaced horigin)
    cases clause.typeOnly with
    | true => 
      have hall := (IsPiece.word .import_).spaced ((IsPiece.word .type).spaced hrest)
      rw [List.append_assoc]
      exact hall
    | false =>
      have hall := (IsPiece.word .import_).spaced hrest
      rw [List.append_assoc]
      exact hall

end ImportClause

/-- The statements of a block are cut into their tokens. -/
theorem IsPiece.statements {clauses : List ImportClause}
    (h : ∀ clause ∈ clauses, clause.WellNamed) :
    IsPiece (fun _ ↦ false) (clauses.flatMap (·.text)) (clauses.flatMap (·.signs)) := by
  induction clauses with
  | nil => exact .nil
  | cons clause clauses ih =>
    obtain ⟨hclause, hclauses⟩ := List.forall_mem_cons.mp h
    exact (ImportClause.isPiece hclause).append_closed (ih hclauses)

end SignalView
