import Mathlib.Data.List.Find
import SignalView.Proofs.Grammar.Reading
import SignalView.Proofs.Token.Again
import SignalView.Proofs.Token.Tiling

/-!
# Texts that are cut into given tokens

A text is cut into tokens one by one: each is what the scan of code finds in front of the remaining
text, with whatever lies behind that. The judgement keeps the kind of the token in front, since a
scan depends on it, and texts that are cut can be put one behind the other. A strict run over such
a text gives these tokens and no others.
-/

namespace SignalView

/-- The token in front is a dot, behind which every word is a name. -/
def isDot (previous : Option TokenKind) : Bool :=
  previous == some (.mark .dot) || previous == some (.mark .questionDot)

/-- No white space and no comment starts here. -/
def StartsToken (rest : Bytes) : Prop :=
  ∃ b more, rest = b :: more ∧ Byte.isSpace b = false ∧
    (b = byte '/' → more.head? ≠ some (byte '/') ∧ more.head? ≠ some (byte '*'))

/-- The scan of code finds a lexeme in front of a text. -/
structure Lexes (previous : Option TokenKind) (lexeme rest : Bytes) (sign : Sign) : Prop where
  starts : StartsToken (lexeme ++ rest)
  code_eq : Scan.code previous [] (lexeme ++ rest) =
    ⟨.token sign.kind sign.value lexeme.length, []⟩

/-- A text with something behind it is cut into tokens, from the kind of the token in front of them
to the kind of the last of them. -/
inductive Cuts (after : Bytes) :
    Option TokenKind → Bytes → List Sign → Option TokenKind → Prop
  | nil (previous : Option TokenKind) : Cuts after previous [] [] previous
  | space {previous last : Option TokenKind} {text : Bytes} {signs : List Sign} :
    Cuts after previous text signs last → Cuts after previous (32 :: text) signs last
  | token {previous last : Option TokenKind} {lexeme text : Bytes} {sign : Sign}
    {signs : List Sign} : lexeme ≠ [] → Lexes previous lexeme (text ++ after) sign →
    Cuts after (some sign.kind) text signs last →
      Cuts after previous (lexeme ++ text) (sign :: signs) last

namespace Cuts

variable {previous middle last : Option TokenKind} {after front back : Bytes}
  {signs more : List Sign}

/-- Texts that are cut one behind the other. -/
theorem append (hfront : Cuts (back ++ after) previous front signs middle)
    (hback : Cuts after middle back more last) :
    Cuts after previous (front ++ back) (signs ++ more) last := by
  induction hfront with
  | nil _ => exact hback
  | space _ ih => exact .space (ih hback)
  | token hne hlexes _ ih =>
    rw [List.append_assoc, List.cons_append]
    refine .token hne ?_ (ih hback)
    rwa [List.append_assoc]

theorem single {lexeme : Bytes} {sign : Sign} (hne : lexeme ≠ [])
    (h : Lexes previous lexeme after sign) :
    Cuts after previous lexeme [sign] (some sign.kind) := by
  rw [← List.append_nil lexeme]
  exact .token hne h (.nil _)

end Cuts

/-! ## Lexemes -/

namespace Lexes

open Literal

variable {previous : Option TokenKind} {after : Bytes}

theorem startsToken_append {lexeme : Bytes} {b : UInt8} (hhead : lexeme.head? = some b)
    (hspace : Byte.isSpace b = false) (hslash : b ≠ byte '/') (rest : Bytes) :
    StartsToken (lexeme ++ rest) := by
  obtain ⟨more, rfl⟩ := List.head?_eq_some_iff.mp hhead
  exact ⟨b, more ++ rest, rfl, hspace, fun h ↦ absurd h hslash⟩

theorem of_opensName (b : UInt8) : opensName b = true →
    Byte.isSpace b = false ∧ b ≠ byte '/' ∧ Byte.isDigit b = false ∧ b ≠ byte '.' ∧
      (b == Quoted.doubleQuote || b == Quoted.singleQuote) = false ∧
      (b == Quoted.backtick) = false := by
  revert b
  exact forall_byte (by decide +kernel)

/-- Where a name starts, a name or a word is scanned. -/
theorem code_name {rest : Bytes} (h : startsName rest = true) (surroundings : List Surrounding) :
    Scan.code previous surroundings rest = ⟨scanName (isDot previous) rest, surroundings⟩ := by
  obtain ⟨b, more, rfl⟩ := List.exists_cons_of_ne_nil (ne_nil_of_startsName h)
  obtain ⟨-, -, hdigit, hdot, hquote, hbacktick⟩ := of_opensName b (opensName_of_startsName h)
  have hnumber : Scan.startsNumber (b :: more) = false := by simp [Scan.startsNumber, hdigit, hdot]
  unfold Scan.code
  simp only [hnumber, List.head?_cons, Option.getD_some, hquote, hbacktick, h, Bool.false_eq_true,
    if_false, if_true]
  rfl

theorem of_isName {name : Bytes} {sign : Sign} (h : IsName name) (hafter : Avoids continues after)
    (hsign : nameLexeme (isDot previous) name = .token sign.kind sign.value name.length) :
    Lexes previous name after sign where
  starts := by
    obtain ⟨b, more, rfl⟩ := List.exists_cons_of_ne_nil (ne_nil_of_startsName h.starts)
    obtain ⟨hspace, hslash, -⟩ := of_opensName b (opensName_of_startsName h.starts)
    exact startsToken_append rfl hspace hslash after
  code_eq := by
    rw [code_name (startsName_append h.starts after), h.scanName_append hafter, hsign]

/-- A name that is no word, or that stands behind a dot. -/
theorem name {name : Bytes} (h : IsName name) (hafter : Avoids continues after)
    (hword : isDot previous = true ∨ Word.ofSpelling? name = none) :
    Lexes previous name after ⟨.identifier, name⟩ := by
  refine of_isName h hafter ?_
  rcases hword with hdot | hnone
  · rw [nameLexeme, hdot]
    rfl
  · rw [nameLexeme, hnone, ite_self]

theorem nameBody_of_isIdentifierPart {name : Bytes}
    (h : name.all Byte.isIdentifierPart = true) : NameBody name := by
  induction name with
  | nil => exact .nil
  | cons b name ih =>
    rw [List.all_cons, Bool.and_eq_true] at h
    exact .part h.1 (ih h.2)

theorem mem_words (w : Word) : w ∈ Word.all := by
  cases w <;> decide

/-- The words are spelled as names are, each in its own way. -/
theorem words_spelled : ∀ w ∈ Word.all, startsName (bytes w.spelling) = true ∧
    ((bytes w.spelling).drop (nameLead (bytes w.spelling))).all Byte.isIdentifierPart = true ∧
      Word.ofSpelling? (bytes w.spelling) = some w := by
  decide +kernel

theorem isName_spelling (w : Word) : IsName (bytes w.spelling) where
  starts := (words_spelled w (mem_words w)).1
  body := nameBody_of_isIdentifierPart (words_spelled w (mem_words w)).2.1

theorem ofSpelling?_spelling (w : Word) : Word.ofSpelling? (bytes w.spelling) = some w :=
  (words_spelled w (mem_words w)).2.2

theorem word (w : Word) (hafter : Avoids continues after) (hdot : isDot previous = false) :
    Lexes previous (bytes w.spelling) after ⟨.word w, bytes w.spelling⟩ := by
  refine of_isName (isName_spelling w) hafter ?_
  rw [nameLexeme, hdot, if_neg Bool.false_ne_true, ofSpelling?_spelling]

theorem of_startsNumber (b : UInt8) : Byte.isDigit b = true ∨ b = byte '.' →
    Byte.isSpace b = false ∧ b ≠ byte '/' := by
  revert b
  exact forall_byte (by decide +kernel)

theorem startsToken_of_startsNumber {rest : Bytes} (h : Scan.startsNumber rest = true) :
    StartsToken rest := by
  match rest with
  | [] => cases h
  | b :: more =>
    obtain ⟨hspace, hslash⟩ := of_startsNumber b (by
      simp only [Scan.startsNumber, Bool.or_eq_true, Bool.and_eq_true, beq_iff_eq] at h
      exact h.imp id And.left)
    exact ⟨b, more, rfl, hspace, fun hb ↦ absurd hb hslash⟩

theorem of_scanNumber {number : Bytes} {kind : TokenKind}
    (hstarts : Scan.startsNumber (number ++ after) = true)
    (h : scanNumber (number ++ after) = .token kind number number.length) :
    Lexes previous number after ⟨kind, number⟩ where
  starts := startsToken_of_startsNumber hstarts
  code_eq := by rw [Scan.code, if_pos hstarts, h]

theorem number {rest value : Bytes} {kind : TokenKind} {length : Nat}
    (hstarts : Scan.startsNumber rest = true) (h : scanNumber rest = .token kind value length)
    (hafter : kind = .bigint ∨ Avoids continuesNumber after) :
    Lexes previous value after ⟨kind, value⟩ := by
  obtain ⟨hnumber, hscan⟩ := scanNumber_append hstarts h hafter
  exact of_scanNumber hnumber hscan

theorem quoteWith {quote : UInt8} (hquote : quote ∈ Quoted.stringQuotes) (value : Bytes) :
    Lexes previous (Quoted.quoteWith quote value) after ⟨.string, value⟩ := by
  have hscan := scanString_quoteWith hquote value after
  simp only [Quoted.stringQuotes, List.mem_cons, List.not_mem_nil, or_false] at hquote
  rcases hquote with rfl | rfl
  all_goals
    refine ⟨startsToken_append (by rfl) rfl (by decide) after, ?_⟩
    change (⟨scanString _, []⟩ : Scanned) = _
    rw [hscan]

theorem string (value : Bytes) : Lexes previous (Quoted.quoted value) after ⟨.string, value⟩ :=
  quoteWith List.mem_cons_self value

theorem of_markToken (m : Mark) (hstarts : StartsToken (bytes m.text ++ after))
    (hcode : Scan.code previous [] (bytes m.text ++ after) = ⟨Scan.markToken m, []⟩) :
    Lexes previous (bytes m.text) after m.sign where
  starts := hstarts
  code_eq := by
    rw [hcode, Scan.markToken]
    simp [Mark.sign, bytes, String.length_toList]

/-- The bytes that make a longer mark of a mark. -/
def longer (m : Mark) : Bytes :=
  Scan.operators.filterMap fun other ↦
    if (bytes m.text).isPrefixOf (bytes other.text) then (bytes other.text)[(bytes m.text).length]?
    else none

theorem isPrefixOf_append {other text after : Bytes}
    (h : ∀ b more, other = text ++ b :: more → after.head? ≠ some b) :
    other.isPrefixOf (text ++ after) = other.isPrefixOf text := by
  induction text generalizing other with
  | nil =>
    cases other with
    | nil => cases after <;> rfl
    | cons b more =>
      have hb := h b more rfl
      cases after with
      | nil => rfl
      | cons c after =>
        have hne : b ≠ c := by
          rintro rfl
          exact hb rfl
        simp [List.isPrefixOf, hne]
  | cons t text ih =>
    cases other with
    | nil => rfl
    | cons b other =>
      by_cases hb : b = t
      · subst hb
        have hrest := ih fun c more hother ↦ h c more (congrArg (b :: ·) hother)
        simpa [List.isPrefixOf] using hrest
      · simp [List.isPrefixOf, beq_false_of_ne hb]

theorem find?_append {m : Mark} (h : Avoids (longer m).contains after) :
    (Scan.operators.find? fun other ↦ (bytes other.text).isPrefixOf (bytes m.text ++ after)) =
      Scan.operators.find? fun other ↦ (bytes other.text).isPrefixOf (bytes m.text) := by
  apply List.find?_congr
  intro other hother
  apply isPrefixOf_append
  intro b more hmore hhead
  have hmem : b ∈ longer m := by
    rw [longer, List.mem_filterMap]
    refine ⟨other, hother, ?_⟩
    rw [hmore, if_pos (List.isPrefixOf_iff_prefix.mpr ⟨_, rfl⟩)]
    simp
  have hb := h b hhead
  rw [List.contains_eq_mem, decide_eq_false_iff_not] at hb
  exact hb hmem

theorem find?_self : ∀ m ∈ Scan.operators,
    (Scan.operators.find? fun other ↦ (bytes other.text).isPrefixOf (bytes m.text)) = some m := by
  decide +kernel

/-- An operator is found again when no longer one is there. -/
theorem operator_append {m : Mark} (hm : m ∈ Scan.operators)
    (h : Avoids (longer m).contains after) :
    Scan.operator (bytes m.text ++ after) = Scan.markToken m := by
  have hfind := (find?_append h).trans (find?_self m hm)
  have hquestion : ((bytes m.text ++ after).head? == some (byte '?')) = false ∨
      ((bytes m.text ++ after).head? == some (byte '?')) = true ∧
        (bytes m.text ++ after)[1]? = some (byte '?') := by
    cases m <;> first
      | exact .inl rfl
      | exact .inr ⟨rfl, rfl⟩
      | exact absurd hm (by decide)
  unfold Scan.operator
  rcases hquestion with hhead | ⟨hhead, hnext⟩
  · simp only [hhead, hfind, Bool.false_and, Bool.false_eq_true, if_false]
  · have hdot : (some (byte '?') == some (byte '.')) = false := rfl
    have hsame : (some (byte '?') != some (byte '?')) = false := rfl
    simp only [hnext, hfind, hdot, hsame, Bool.and_false, Bool.false_and, Bool.false_eq_true,
      if_false]

/-- The operators that are scanned as such wherever they stand. -/
def isFree (m : Mark) : Bool :=
  Scan.operators.contains m && !(bytes "</.").contains ((bytes m.text).head?.getD 0)

theorem mark {m : Mark} (hm : isFree m = true) (h : Avoids (longer m).contains after) :
    Lexes previous (bytes m.text) after m.sign := by
  have hmem : m ∈ Scan.operators := by
    rw [isFree, Bool.and_eq_true, List.contains_iff_mem] at hm
    exact hm.1
  have hcode : Scan.code previous [] (bytes m.text ++ after) =
      ⟨Scan.operator (bytes m.text ++ after), []⟩ := by
    cases m <;> first | exact absurd hm (by decide) | rfl
  have hstarts : StartsToken (bytes m.text ++ after) := by
    cases m <;> first
      | exact absurd hm (by decide)
      | exact startsToken_append rfl rfl (by decide) after
  exact of_markToken m hstarts (by rw [hcode, operator_append hmem h])

/-- A mark that no longer one starts with. -/
theorem solid {m : Mark} (hm : isFree m = true) (hlonger : longer m = []) :
    Lexes previous (bytes m.text) after m.sign :=
  mark hm fun _ _ ↦ by rw [hlonger]; rfl

theorem ellipsis : Lexes previous (bytes "...") after Mark.ellipsis.sign :=
  of_markToken .ellipsis (startsToken_append (b := byte '.') rfl rfl (by decide) after) rfl

/-- A slash behind an operand. -/
theorem slash (hprevious : Scan.allowsOperand previous = false) :
    Lexes previous (bytes "/") (32 :: after) Mark.slash.sign := by
  refine of_markToken .slash ⟨byte '/', 32 :: after, rfl, rfl, fun _ ↦ ⟨?_, ?_⟩⟩ ?_
  · nofun
  · nofun
  · change (if byte '/' == byte '/' && Scan.allowsOperand previous then
      (⟨scanRegex (byte '/' :: 32 :: after), []⟩ : Scanned)
      else ⟨Scan.operator (byte '/' :: 32 :: after), []⟩) = _
    rw [hprevious]
    rfl

/-- A dot in front of a name. -/
theorem dot {b : UInt8} (hb : opensName b = true) :
    Lexes previous (bytes ".") (b :: after) Mark.dot.sign := by
  refine of_markToken .dot (startsToken_append (b := byte '.') rfl rfl (by decide) _) ?_
  obtain ⟨-, -, hdigit, hdot, -⟩ := of_opensName b hb
  have hcode : Scan.code previous [] (bytes "." ++ b :: after) =
      if Byte.isDigit b then ⟨scanNumber (bytes "." ++ b :: after), []⟩
      else ⟨Scan.operator (bytes "." ++ b :: after), []⟩ := rfl
  have hlonger : longer .dot = [byte '.'] := rfl
  have havoids : Avoids (longer .dot).contains (b :: after) := by
    rintro c ⟨⟩
    rw [hlonger]
    simpa using hdot
  rw [Mark.text, hcode, if_neg (by simp [hdigit]), ← operator_append (by decide) havoids]
  rfl

theorem question : Lexes previous (bytes "?") (32 :: after) Mark.question.sign :=
  of_markToken .question (startsToken_append (b := byte '?') rfl rfl (by decide) _) rfl

end Lexes

namespace Lexer

/-! ## A run over a text that is cut -/

/-- What is between tokens, one byte further on. -/
def Trivia.shift : Trivia → Trivia
  | .space length newline => .space (length + 1) newline
  | .unterminatedComment start length newline =>
    .unterminatedComment (start + 1) (length + 1) newline

def TriviaState.shift : TriviaState → TriviaState
  | .blockComment start => .blockComment (start + 1)
  | state => state

theorem triviaFrom_shift (state : TriviaState) (skip length : Nat) (newline : Bool) (rest : Bytes) :
    triviaFrom state.shift skip (length + 1) newline rest =
      (triviaFrom state skip length newline rest).shift := by
  induction rest generalizing state skip length newline with
  | nil => cases state <;> rfl
  | cons b rest ih =>
    cases skip with
    | succ skip => exact ih state skip (length + 1) newline
    | zero =>
      cases state with
      | between =>
        simp only [TriviaState.shift, triviaFrom]
        split
        · exact ih .between 0 (length + 1) true
        split
        · exact ih .between 0 (length + 1) newline
        split
        · exact ih .lineComment 0 (length + 1) newline
        split
        · exact ih (.blockComment length) 1 (length + 1) newline
        · rfl
      | lineComment =>
        simp only [TriviaState.shift, triviaFrom]
        split
        · exact ih .between 0 (length + 1) true
        · exact ih .lineComment 0 (length + 1) newline
      | blockComment start =>
        simp only [TriviaState.shift, triviaFrom]
        split
        · exact ih .between 1 (length + 1) newline
        · exact ih (.blockComment start) 0 (length + 1) (newline || b == 10)

/-- White space is passed over byte by byte. -/
theorem skipTrivia_space (options : LexerOptions) {lexer : Lexer} {b : UInt8} {rest : Bytes}
    (hspace : Byte.isSpace b = true) (hrest : lexer.cursor.rest = b :: rest) :
    skipTrivia options lexer =
      skipTrivia options { lexer with
        cursor := lexer.cursor.advance, newlinePending := lexer.newlinePending || b == 10 } := by
  have hadvance : lexer.cursor.advance.rest = rest := by rw [Cursor.advance, hrest]
  have hpending : triviaFrom .between 0 0 lexer.newlinePending (b :: rest) =
      triviaFrom .between 0 1 (lexer.newlinePending || b == 10) rest := by
    rw [triviaFrom]
    by_cases hline : b = 10
    · simp [hline]
    · simp [beq_false_of_ne hline, hspace]
  have hshift : triviaFrom .between 0 0 lexer.newlinePending lexer.cursor.rest =
      (triviaFrom .between 0 0 (lexer.newlinePending || b == 10) rest).shift := by
    rw [hrest, hpending]
    exact triviaFrom_shift .between 0 0 (lexer.newlinePending || b == 10) rest
  unfold skipTrivia
  rw [hshift]
  dsimp only
  rw [hadvance]
  cases triviaFrom .between 0 0 (lexer.newlinePending || b == 10) rest <;> rfl

theorem triviaFrom_of_startsToken {rest : Bytes} (h : StartsToken rest) (newline : Bool) :
    triviaFrom .between 0 0 newline rest = .space 0 newline := by
  obtain ⟨b, more, rfl, hspace, hslash⟩ := h
  have hline : (b == 10) = false := beq_false_of_ne (by rintro rfl; cases hspace)
  have hcomment : ∀ c, c = byte '/' ∨ c = byte '*' →
      (b == byte '/' && more.head? == some c) = false := by
    intro c hc
    by_cases hb : b = byte '/'
    · rcases hc with rfl | rfl
      · simp [(hslash hb).1]
      · simp [(hslash hb).2]
    · simp [hb]
  simp only [triviaFrom, hline, hspace, hcomment _ (.inl rfl), hcomment _ (.inr rfl),
    Bool.false_eq_true, if_false]

theorem skipTrivia_of_startsToken (options : LexerOptions) {lexer : Lexer}
    (h : StartsToken lexer.cursor.rest) : skipTrivia options lexer = ⟨lexer, none⟩ := by
  rw [skipTrivia, triviaFrom_of_startsToken h]
  rfl

theorem inChildren_eq_false {lexer : Lexer} (h : lexer.surroundings = []) :
    lexer.inChildren = false := by
  rw [inChildren, h]
  rfl

/-- What a round does behind the trivia. -/
def afterTrivia (options : LexerOptions) (rounds : Nat) (ready : LexerStep) : LexerStep :=
  match ready.failure with
  | some _ => ready
  | none =>
    if ready.lexer.cursor.atEnd then finish options ready.lexer
    else
      let next := accept options ready.lexer ready.lexer.scan
      match next.failure with
      | some _ => next
      | none => run options rounds next.lexer

theorem run_succ {lexer : Lexer} (h : lexer.inChildren = false) (options : LexerOptions)
    (rounds : Nat) :
    run options (rounds + 1) lexer = afterTrivia options rounds (skipTrivia options lexer) := by
  rw [run, h]
  rfl

/-- A round that goes over white space in front of a token. -/
theorem run_space {lexer : Lexer} {b : UInt8} {rest : Bytes} (hin : lexer.inChildren = false)
    (hspace : Byte.isSpace b = true) (hrest : lexer.cursor.rest = b :: rest)
    (options : LexerOptions) (rounds : Nat) :
    ∃ next : Lexer, run options (rounds + 1) lexer = run options (rounds + 1) next ∧
      next.cursor.rest = rest ∧ next.surroundings = lexer.surroundings ∧
      next.tokens = lexer.tokens := by
  refine ⟨{ lexer with
    cursor := lexer.cursor.advance, newlinePending := lexer.newlinePending || b == 10 },
    ?_, ?_, rfl, rfl⟩
  · rw [run_succ hin, skipTrivia_space options hspace hrest, run_succ]
    exact hin
  · rw [Cursor.advance, hrest]

theorem rest_advanceBy (cursor : Cursor) (length : Nat) :
    (Cursor.advanceBy length cursor).rest = cursor.rest.drop length := by
  induction length generalizing cursor with
  | zero => rfl
  | succ length ih =>
    rw [Cursor.advanceBy, ih, Cursor.advance]
    split
    · next hnil => simp [hnil]
    · next hcons => simp [hcons]

/-- A round that takes in a lexeme. -/
theorem run_lexeme {lexer : Lexer} {kind : TokenKind} {value : Bytes} {length : Nat}
    {surroundings : List Surrounding} (hin : lexer.inChildren = false)
    (hstarts : StartsToken lexer.cursor.rest)
    (hscan : lexer.scan = ⟨.token kind value length, surroundings⟩)
    (options : LexerOptions) (rounds : Nat) :
    ∃ next : Lexer, run options (rounds + 1) lexer = run options rounds next ∧
      next.cursor.rest = lexer.cursor.rest.drop length ∧ next.surroundings = surroundings ∧
      next.tokens.head?.map (·.kind) = some kind ∧
      next.tokenList.map Token.sign = lexer.tokenList.map Token.sign ++ [⟨kind, value⟩] := by
  have hend : lexer.cursor.atEnd = false := by
    obtain ⟨b, more, hmore, -⟩ := hstarts
    rw [Cursor.atEnd, hmore]
    rfl
  have haccept : (accept options lexer lexer.scan).failure = none := by rw [hscan]; rfl
  refine ⟨(accept options lexer lexer.scan).lexer, ?_, ?_, ?_⟩
  · rw [run_succ hin, skipTrivia_of_startsToken options hstarts, afterTrivia]
    simp only [hend, haccept, Bool.false_eq_true, if_false]
  · rw [hscan]
    exact rest_advanceBy lexer.cursor length
  · rw [hscan]
    refine ⟨rfl, rfl, ?_⟩
    simp only [accept, tokenList_push, List.map_append, List.map_cons, List.map_nil]
    rfl

/-- A run outside of all brackets, by the text ahead and the kind of the token in front of it. -/
structure Before (lexer : Lexer) (previous : Option TokenKind) (rest : Bytes) : Prop where
  rest_eq : lexer.cursor.rest = rest
  surroundings_eq : lexer.surroundings = []
  previous_eq : lexer.tokens.head?.map (·.kind) = previous

theorem Before.run_space {lexer : Lexer} {previous : Option TokenKind} {rest : Bytes}
    (h : lexer.Before previous (32 :: rest)) (options : LexerOptions) (rounds : Nat) :
    ∃ next : Lexer, run options (rounds + 1) lexer = run options (rounds + 1) next ∧
      next.Before previous rest ∧ next.tokens = lexer.tokens := by
  obtain ⟨next, hrun, hrest, hsurroundings, htokens⟩ :=
    Lexer.run_space (inChildren_eq_false h.surroundings_eq) rfl h.rest_eq options rounds
  refine ⟨next, hrun, ⟨hrest, hsurroundings.trans h.surroundings_eq, ?_⟩, htokens⟩
  rw [htokens, h.previous_eq]

/-- A round that takes in a token. -/
theorem Before.run_scan {lexer : Lexer} {previous : Option TokenKind} {rest value : Bytes}
    {kind : TokenKind} {length : Nat} {surroundings : List Surrounding}
    (h : lexer.Before previous rest) (hstarts : StartsToken rest)
    (hcode : Scan.code previous [] rest = ⟨.token kind value length, surroundings⟩)
    (options : LexerOptions) (rounds : Nat) :
    ∃ next : Lexer, run options (rounds + 1) lexer = run options rounds next ∧
      next.cursor.rest = rest.drop length ∧ next.surroundings = surroundings ∧
      next.tokens.head?.map (·.kind) = some kind ∧
      next.tokenList.map Token.sign = lexer.tokenList.map Token.sign ++ [⟨kind, value⟩] := by
  have hscan : lexer.scan = ⟨.token kind value length, surroundings⟩ := by
    rw [scan, h.surroundings_eq, h.previous_eq, h.rest_eq]
    exact hcode
  rw [← h.rest_eq] at hstarts ⊢
  exact run_lexeme (inChildren_eq_false h.surroundings_eq) hstarts hscan options rounds

theorem Before.run_token {lexer : Lexer} {previous : Option TokenKind} {lexeme rest : Bytes}
    {sign : Sign} (h : lexer.Before previous (lexeme ++ rest))
    (hlexes : Lexes previous lexeme rest sign) (options : LexerOptions) (rounds : Nat) :
    ∃ next : Lexer, run options (rounds + 1) lexer = run options rounds next ∧
      next.Before (some sign.kind) rest ∧
      next.tokenList.map Token.sign = lexer.tokenList.map Token.sign ++ [sign] := by
  obtain ⟨next, hrun, hrest, hsurroundings, hkind, hsigns⟩ :=
    h.run_scan hlexes.starts hlexes.code_eq options rounds
  rw [List.drop_left] at hrest
  exact ⟨next, hrun, ⟨hrest, hsurroundings, hkind⟩, hsigns⟩

/-- A run over a text that is cut adds its tokens. -/
theorem Before.run_cuts {lexer : Lexer} {previous last : Option TokenKind} {text after : Bytes}
    {signs : List Sign} (hcuts : Cuts after previous text signs last)
    (h : lexer.Before previous (text ++ after)) (options : LexerOptions) {rounds : Nat}
    (hrounds : (text ++ after).length < rounds) :
    ∃ (next : Lexer) (rounds' : Nat), run options rounds lexer = run options rounds' next ∧
      after.length < rounds' ∧ next.Before last after ∧
      next.tokenList.map Token.sign = lexer.tokenList.map Token.sign ++ signs := by
  induction hcuts generalizing lexer rounds with
  | nil _ => exact ⟨lexer, rounds, rfl, hrounds, h, by simp⟩
  | space _ ih =>
    obtain ⟨rounds, rfl⟩ : ∃ r, rounds = r + 1 := ⟨rounds - 1, by omega⟩
    obtain ⟨next, hrun, hnext, htokens⟩ := h.run_space options rounds
    rw [List.cons_append, List.length_cons] at hrounds
    obtain ⟨last, rounds', hrun', hafter, hlast, hsigns⟩ := ih hnext (Nat.lt_of_succ_lt hrounds)
    refine ⟨last, rounds', hrun.trans hrun', hafter, hlast, ?_⟩
    rw [hsigns, tokenList, htokens, ← tokenList]
  | @token _ _ _ text _ _ hne hlexes _ ih =>
    obtain ⟨rounds, rfl⟩ : ∃ r, rounds = r + 1 := ⟨rounds - 1, by omega⟩
    rw [List.append_assoc] at h hrounds
    obtain ⟨next, hrun, hnext, htokens⟩ := h.run_token hlexes options rounds
    have hshorter : (text ++ after).length < rounds := by
      have := List.length_pos_iff.mpr hne
      rw [List.length_append] at hrounds
      omega
    obtain ⟨last, rounds', hrun', hafter, hlast, hsigns⟩ := ih hnext hshorter
    refine ⟨last, rounds', hrun.trans hrun', hafter, hlast, ?_⟩
    rw [hsigns, htokens, List.append_assoc]
    rfl

/-- A run ends in front of nothing or of a last line end. -/
theorem Before.run_end {lexer : Lexer} {previous : Option TokenKind} {rest : Bytes}
    (h : lexer.Before previous rest) (hrest : rest = [] ∨ rest = [10]) (options : LexerOptions)
    (rounds : Nat) :
    ∃ final : Token, (run options (rounds + 1) lexer).result = .ok (lexer.tokenList ++ [final]) ∧
      final.sign = ⟨.eof, []⟩ := by
  obtain ⟨next, hskip, hend, hsurroundings, htokens⟩ :
      ∃ next : Lexer, skipTrivia options lexer = ⟨next, none⟩ ∧ next.cursor.atEnd = true ∧
        next.surroundings = lexer.surroundings ∧ next.tokens = lexer.tokens := by
    rcases hrest with rfl | rfl
    · refine ⟨lexer, by rw [skipTrivia, h.rest_eq]; rfl, ?_, rfl, rfl⟩
      rw [Cursor.atEnd, h.rest_eq]
      rfl
    · refine ⟨{ lexer with cursor := lexer.cursor.advanceBy 1, newlinePending := true },
        by rw [skipTrivia, h.rest_eq]; rfl, ?_, rfl, rfl⟩
      rw [Cursor.atEnd, rest_advanceBy, h.rest_eq]
      rfl
  rw [run_succ (inChildren_eq_false h.surroundings_eq), hskip, afterTrivia]
  simp only [hend, if_true, finish, hsurroundings, h.surroundings_eq, tokenList, ← htokens]
  exact ⟨_, congrArg Except.ok (tokenList_push _ _ _ _), rfl⟩

end Lexer

/-- A source is turned into some tokens and the one that marks the end. -/
def TurnsInto (options : LexerOptions) (source : Bytes) (signs : List Sign) : Prop :=
  ∃ front final, (tokenize options source).result = .ok (front ++ [final]) ∧
    final.kind = .eof ∧ front.map Token.sign = signs

/-- A text that is cut is turned into its tokens, with nothing or a line end behind them. -/
theorem Cuts.turnsInto {text after : Bytes} {signs : List Sign} {last : Option TokenKind}
    (h : Cuts after none text signs last) (hafter : after = [] ∨ after = [10])
    (options : LexerOptions) : TurnsInto options (text ++ after) signs := by
  have hbefore : (Lexer.ofSource (text ++ after)).Before none (text ++ after) := ⟨rfl, rfl, rfl⟩
  obtain ⟨next, rounds, hrun, hrounds, hnext, hsigns⟩ :=
    hbefore.run_cuts h options (Nat.lt_succ_self _)
  obtain ⟨rounds, rfl⟩ : ∃ r, rounds = r + 1 := ⟨rounds - 1, by omega⟩
  obtain ⟨final, hresult, hfinal⟩ := hnext.run_end hafter options rounds
  refine ⟨next.tokenList, final, ?_, congrArg Sign.kind hfinal, hsigns⟩
  rw [← hresult, ← hrun]
  rfl

end SignalView
