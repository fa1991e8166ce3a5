import SignalView.Proofs.Token.Cut

/-!
# Tokens of quoted text

A text between quotes, as it is written in the output, is a single string with that text as its
value. Between backticks it is a single template without substitutions, whose raw text stands for
it.
-/

namespace SignalView

namespace Literal

/-- The raw text of a template ends at the backtick that is written behind it. -/
theorem templateBody_escapeTemplate (text after raw : Bytes) (length : Nat) :
    templateBody false raw length (Quoted.escapeTemplate text ++ Quoted.backtick :: after) =
      .token (.template .whole) (raw ++ Quoted.escapeTemplate text)
        (length + (Quoted.escapeTemplate text).length + 1) := by
  have hpair (b : UInt8) (rest raw : Bytes) (length : Nat) :
      templateBody false raw length (Quoted.backslash :: b :: rest) =
        templateBody false (raw ++ [Quoted.backslash, b]) (length + 2) rest := rfl
  fun_induction Quoted.escapeTemplate text generalizing raw length with
  | case1 => cases after <;> simp [templateBody]
  | case2 b text hslash ih | case3 b text _ htick ih | case4 b text _ _ hdollar ih =>
    simp only [List.cons_append, hpair, ih, List.length_cons, List.append_assoc]
    congr 1
    omega
  | case5 b text hslash htick hdollar ih =>
    have hopen (h : text.head? ≠ some Quoted.openBrace) :
        (Quoted.escapeTemplate text ++ Quoted.backtick :: after).head? ≠ some Quoted.openBrace :=
      Quoted.escapeTemplate_head h after
    obtain ⟨c, rest, hrest⟩ :
        ∃ c rest, Quoted.escapeTemplate text ++ Quoted.backtick :: after = c :: rest :=
      List.exists_cons_of_ne_nil (by simp)
    have hhole : ¬ (b == byte '$' && c == Quoted.openBrace) = true := by
      intro hhole
      obtain ⟨rfl, rfl⟩ : b = byte '$' ∧ c = Quoted.openBrace := by simpa using hhole
      rw [hrest] at hopen
      exact hopen (by simpa using hdollar) rfl
    rw [List.cons_append, hrest, templateBody, if_neg htick, if_neg hhole, if_neg hslash, ← hrest,
      ih]
    simp only [List.append_assoc, List.length_cons, List.cons_append, List.nil_append]
    congr 1
    omega

end Literal

/-- A text between backticks is a template without substitutions. -/
theorem Lexes.template (previous : Option TokenKind) (text after : Bytes) :
    Lexes previous (Quoted.backtick :: Quoted.escapeTemplate text ++ [Quoted.backtick]) after
      ⟨.template .whole, Quoted.escapeTemplate text⟩ where
  starts := startsToken_append (b := Quoted.backtick) rfl rfl (by decide) after
  code_eq := by
    have hsplit : Quoted.backtick :: Quoted.escapeTemplate text ++ [Quoted.backtick] ++ after =
        Quoted.backtick :: (Quoted.escapeTemplate text ++ Quoted.backtick :: after) := by simp
    have hcode (rest : Bytes) : Scan.code previous [] (Quoted.backtick :: rest) =
        Scan.template false [] (Quoted.backtick :: rest) := rfl
    rw [hsplit, hcode, Scan.template, Literal.scanTemplate, List.drop_succ_cons, List.drop_zero,
      Literal.templateBody_escapeTemplate]
    simp [Literal.opensSubstitution, Nat.add_comm]

theorem Lexes.turnsInto {source : Bytes} {sign : Sign} (hne : source ≠ [])
    (h : Lexes none source [] sign) (options : LexerOptions) :
    TurnsInto options source [sign] := by
  have hcuts := (Cuts.single hne h).turnsInto (.inl rfl) options
  rwa [List.append_nil] at hcuts

/-- A text is read back from the escapes of each quote. Between the quotes of a string it is the
value of a single token, and between backticks it is what the single token stands for. -/
theorem quoted_text_reads_back (text : Bytes) :
    (∀ quote ∈ Quoted.quotes, Quoted.unescape (Quoted.escape quote text) = text) ∧
    (∀ quote ∈ Quoted.stringQuotes, ∀ options,
      TurnsInto options (Quoted.quoteWith quote text) [⟨.string, text⟩]) ∧
    ∃ raw, Quoted.unescape raw = text ∧ ∀ options,
      TurnsInto options (Quoted.backtick :: Quoted.escapeTemplate text ++ [Quoted.backtick])
        [⟨.template .whole, raw⟩] := by
  refine ⟨fun quote hquote ↦ Quoted.unescape_escape hquote text, fun quote hquote ↦ ?_, ?_⟩
  · exact (Lexes.quoteWith hquote text).turnsInto (List.cons_ne_nil _ _)
  · refine ⟨Quoted.escapeTemplate text, Quoted.unescape_escapeTemplate text, ?_⟩
    exact (Lexes.template none text []).turnsInto (List.cons_ne_nil _ _)

/-- A text of quotes, a backslash, a substitution, control bytes and a byte above the last letter
is read back. -/
theorem quoted_text_reads_back_control :
    let text : Bytes := [0, 10, 31, 255] ++ bytes "\\'\"`$\x7b\\"
    Quoted.doubleQuote ∈ Quoted.quotes ∧ Quoted.doubleQuote ∈ Quoted.stringQuotes ∧
      Quoted.unescape (Quoted.escape Quoted.doubleQuote text) = text ∧
      TurnsInto {} (Quoted.quoteWith Quoted.doubleQuote text) [⟨.string, text⟩] ∧
      ∃ raw, Quoted.unescape raw = text ∧
        TurnsInto {} (Quoted.backtick :: Quoted.escapeTemplate text ++ [Quoted.backtick])
          [⟨.template .whole, raw⟩] := by
  intro text
  obtain ⟨hescape, hquote, raw, hraw, htemplate⟩ := quoted_text_reads_back text
  exact ⟨by decide, by decide, hescape _ (by decide), hquote _ (by decide) {}, raw, hraw,
    htemplate {}⟩

end SignalView
