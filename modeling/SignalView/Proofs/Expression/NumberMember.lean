import SignalView.Proofs.Expression.RoundTrip
import SignalView.Proofs.Token.Dotted

/-!
# Members of numbers

A member of a number is read from the number and the name with a space and a dot between them. It
is written without the space, so that the dot behind a whole number belongs to the number: the text
is cut into the same tokens, and read as the same member, exactly if the number is not whole.
-/

namespace SignalView

/-- A text that starts with a number stands as a statement. -/
theorem guardStatement_of_startsNumber {text : Bytes} (h : Scan.startsNumber text = true) :
    Emission.guardStatement text = text ++ bytes ";" := by
  have hother (b : UInt8) : Byte.isDigit b = true ∨ b = byte '.' →
      b ≠ Quoted.openBrace ∧ byte 'f' ≠ b := by
    revert b
    exact Literal.forall_byte (by decide +kernel)
  match text with
  | [] => cases h
  | b :: rest =>
    obtain ⟨hbrace, hletter⟩ := hother b (by
      simp only [Scan.startsNumber, Bool.or_eq_true, Bool.and_eq_true, beq_iff_eq] at h
      exact h.imp id And.left)
    have hword (word : Bytes) : (byte 'f' :: word).isPrefixOf (b :: rest) = false := by
      simp [List.isPrefixOf, hletter]
    have hspace : (bytes "function ").isPrefixOf (b :: rest) = false := hword _
    have hparen : (bytes "function(").isPrefixOf (b :: rest) = false := hword _
    simp [Emission.guardStatement, hbrace, hspace, hparen]

namespace Term

variable {lexer : LexerOptions} {parser : Program.Options} {number key : Bytes} {isBigint : Bool}

theorem numberMember_fits (number key : Bytes) (isBigint : Bool) :
    Fits .assignment (.member (.number number isBigint) key) :=
  .ofBinary (.ofUnary (.ofOperand (.member key (.number number isBigint))))

/-- A number, with a member's dot and name and a semicolon somewhere behind it. -/
theorem numberMember_cuts {gap after : Bytes} {kind : TokenKind} (hgap : gap = [] ∨ gap = [32])
    (hnumber : Lexes none number (gap ++ (bytes "." ++ key ++ bytes ";") ++ after) ⟨kind, number⟩)
    (hne : number ≠ []) (hkey : Literal.IsName key) :
    Cuts after none (number ++ (gap ++ (bytes "." ++ key ++ bytes ";")))
      [⟨kind, number⟩, Mark.dot.sign, ⟨.identifier, key⟩, Mark.semicolon.sign]
      (some (.mark .semicolon)) := by
  have hname : Cuts (bytes ";" ++ after) (some kind) (bytes "." ++ key)
      [Mark.dot.sign, ⟨.identifier, key⟩] (some .identifier) :=
    cuts_dotName hkey (by rintro b ⟨⟩; rfl) (some kind)
  have hback := hname.append (cuts_solid .semicolon (by decide) (by decide))
  refine (Cuts.single hne hnumber).append ?_
  rcases hgap with rfl | rfl
  · exact hback
  · exact .space hback

/-- Without a space in front of the dot, only a number that is not whole has a member. -/
theorem isWhole_of_isReadFrom {more : Bytes} {root : Node} (hstrict : lexer.mode = .strict)
    (hstarts : Scan.startsNumber number = true) (hkey : Literal.IsName key)
    (h : (Term.member (.number number isBigint) key).IsReadFrom lexer parser
      (number ++ (bytes "." ++ key ++ more)) root) : Literal.isWhole number = false := by
  by_contra hwhole
  obtain ⟨front, htraced⟩ := h.traced hstrict trivial
  -- The first token that ends a term is the number, and it is the first token of all.
  have hendings : endings (front.map Token.sign) =
      [⟨if isBigint then .bigint else .number, number⟩, ⟨.identifier, key⟩] := by
    rw [htraced.endings_eq]
    cases isBigint <;> rfl
  cases front with
  | nil => cases hendings
  | cons token after =>
    have hsource := Literal.startsNumber_append hstarts (bytes "." ++ key ++ more)
    obtain ⟨length, hscan⟩ := htraced.scanned.scan_first htraced.tiles
      (Lexes.startsToken_of_startsNumber hsource)
    rw [Scan.code, if_pos hsource] at hscan
    have hends : token.sign.kind.endsTerm = true := by
      rcases Literal.scanNumber_kind hscan with hkind | hkind <;> rw [Token.sign, hkind] <;> rfl
    have hvalue : token.value = number := by
      have hfirst : endings (token.sign :: after.map Token.sign) =
          token.sign :: endings (after.map Token.sign) := List.filter_cons_of_pos hends
      exact congrArg Sign.value (List.cons.inj (hfirst.symm.trans hendings)).1
    obtain ⟨b, name, rfl⟩ := List.exists_cons_of_ne_nil (Literal.ne_nil_of_startsName hkey.starts)
    have hb := (Lexes.of_opensName b (Literal.opensName_of_startsName hkey.starts)).2.2.2.1
    exact Literal.scanNumber_whole (by simpa using hwhole) hb (name ++ more) hscan hvalue

/-- A member of a number is read from the number, a space, a dot and the name. Its text in the
output is cut into the same tokens, and read as the same member, exactly if the number is not
whole. -/
theorem numberMember_reads_back_iff (hstrict : lexer.mode = .strict) (hdepth : 4 ≤ parser.maxDepth)
    (hnumber : TurnsInto lexer number (Term.number number isBigint).signs)
    (hkey : Literal.IsName key) :
    let t := Term.member (.number number isBigint) key
    ∃ root, t.IsReadFrom lexer parser (number ++ bytes " ." ++ key ++ bytes ";") root ∧
      ∀ (lowering : ViewProgram.Options) (script : ScriptOptions), 5 ≤ lowering.maxDepth →
        5 ≤ script.maxDepth → ∃ program state output,
          ViewProgram.ofNode lowering root = (.ok program, state) ∧
          Script.ofProgram script program = .ok output ∧
          output.text = t.text ++ bytes ";\n" ∧
          (TurnsInto lexer output.text (t.signs ++ [Mark.semicolon.sign]) ↔
            Literal.isWhole number = false) ∧
          ((∃ root', t.IsReadFrom lexer parser output.text root') ↔
            Literal.isWhole number = false) := by
  intro t
  have hfits : Fits .assignment t := numberMember_fits number key isBigint
  have hkind : (if isBigint then TokenKind.bigint else .number) = .number ∨
      (if isBigint then TokenKind.bigint else .number) = .bigint := by
    cases isBigint <;> simp
  obtain ⟨hstarts, hscan⟩ := hnumber.scanNumber hstrict hkind
  have hne : number ≠ [] := by
    rintro rfl
    cases hstarts
  have hsigns : t.signs ++ [Mark.semicolon.sign] =
      [⟨_, number⟩, Mark.dot.sign, ⟨.identifier, key⟩, Mark.semicolon.sign] := rfl
  have hread {source : Bytes}
      (htokens : TurnsInto lexer source (t.signs ++ [Mark.semicolon.sign])) :
      ∃ root, t.IsReadFrom lexer parser source root := by
    obtain ⟨front, final, hresult, hfinal, hfront⟩ := htokens
    exact hfits.isReadFrom_of_signs parser hresult hfinal (.inr rfl) hfront hdepth
  have hsource : TurnsInto lexer (number ++ bytes " ." ++ key ++ bytes ";")
      (t.signs ++ [Mark.semicolon.sign]) := by
    have hcuts : Cuts [] none (number ++ ([32] ++ (bytes "." ++ key ++ bytes ";"))) _ _ :=
      numberMember_cuts (.inr rfl) (.number hstarts hscan (.inr (by rintro b ⟨⟩; rfl))) hne hkey
    have hspace : bytes " ." = [32] ++ bytes "." := rfl
    have hturns := hcuts.turnsInto (.inl rfl) lexer
    rw [hspace, hsigns]
    simpa only [List.append_assoc, List.append_nil] using hturns
  obtain ⟨root, hroot⟩ := hread hsource
  refine ⟨root, hroot, fun lowering script hlowering hscript ↦ ?_⟩
  obtain ⟨tokens, range, range', node, -, -, rfl, hdepicts⟩ := hroot
  obtain ⟨program, state, output, hnode, hprogram, htext⟩ :=
    hfits.written trivial hdepicts range range' lowering script hlowering hscript
  have hguard : Emission.guardStatement t.text = t.text ++ bytes ";" :=
    guardStatement_of_startsNumber
      (Literal.startsNumber_append (Literal.startsNumber_append hstarts _) _)
  have houtput : output.text = number ++ (bytes "." ++ key ++ bytes ";\n") := by
    rw [htext, hguard]
    simp only [t, text, List.append_assoc]
    rfl
  have hwhole {root' : Node} (h : t.IsReadFrom lexer parser output.text root') :
      Literal.isWhole number = false := by
    rw [houtput] at h
    exact isWhole_of_isReadFrom hstrict hstarts hkey h
  have hturns (hwhole : Literal.isWhole number = false) :
      TurnsInto lexer output.text (t.signs ++ [Mark.semicolon.sign]) := by
    have hcuts : Cuts [10] none (number ++ ([] ++ (bytes "." ++ key ++ bytes ";"))) _ _ :=
      numberMember_cuts (.inl rfl) (.numberDot hstarts hscan hwhole _) hne hkey
    have hline : bytes ";\n" = bytes ";" ++ [10] := rfl
    have hturns := hcuts.turnsInto (.inr rfl) lexer
    rw [houtput, hsigns, hline]
    simpa only [List.append_assoc, List.nil_append] using hturns
  refine ⟨program, state, output, hnode, hprogram, ?_, ⟨fun h ↦ ?_, hturns⟩,
    fun h ↦ hwhole h.choose_spec, fun h ↦ hread (hturns h)⟩
  · rw [htext, hguard, List.append_assoc]
    rfl
  · obtain ⟨root', hroot'⟩ := hread h
    exact hwhole hroot'

/-- A member of the number one is read, and its text in the output is not read again. -/
theorem not_numberMember_reads_back_one :
    let t := Term.member (.number (bytes "1") false) (bytes "p")
    ∃ root program state output, t.IsReadFrom {} {} (bytes "1 .p;") root ∧
      ViewProgram.ofNode {} root = (.ok program, state) ∧
      Script.ofProgram { runtimeModule := [] } program = .ok output ∧
      output.text = bytes "1.p;\n" ∧
      ¬ TurnsInto {} output.text (t.signs ++ [Mark.semicolon.sign]) ∧
      ¬ ∃ root', t.IsReadFrom {} {} output.text root' := by
  intro t
  have hnumber : TurnsInto {} (bytes "1") (Term.number (bytes "1") false).signs :=
    ⟨[{ kind := .number, value := bytes "1", start := ⟨1, 1, 0⟩, stop := 1 }],
      { kind := .eof, start := ⟨1, 2, 1⟩, stop := 1 }, by decide +kernel, rfl, rfl⟩
  have hkey : Literal.IsName (bytes "p") := ⟨rfl, Lexes.nameBody_of_isIdentifierPart rfl⟩
  have hwhole : Literal.isWhole (bytes "1") ≠ false := by decide
  have hdepth : (4 : Int) ≤ ({} : Program.Options).maxDepth := by decide
  obtain ⟨root, hroot, hwritten⟩ := numberMember_reads_back_iff rfl hdepth hnumber hkey
  obtain ⟨program, state, output, hnode, hprogram, htext, hturns, hread⟩ :=
    hwritten {} { runtimeModule := [] } (by decide) (by decide)
  exact ⟨root, program, state, output, hroot, hnode, hprogram, htext,
    fun h ↦ hwhole (hturns.mp h), fun h ↦ hwhole (hread.mp h)⟩

end Term

end SignalView
