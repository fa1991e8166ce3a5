import SignalView.Proofs.Compilation.Names
import SignalView.Proofs.Token.Records
import SignalView.Report.Terminal

/-!
# Excerpts of a source

The lexer counts lines and columns while it moves over a source; an excerpt cuts the source at its
line feeds and picks a line by its number. The two agree: what a run reports is the place of an
offset, whatever it has passed over before, and there are as many pieces of the cut before the line
around an offset as there are line feeds in front of it. So the line that is picked is the one
around the place, and the caret stands under the place.
-/

namespace SignalView

/-! ## Places that a run reports -/

/-- The lines and columns that a run reports with their offsets: of its tokens, of the faults on
record and of the failure that ended it. -/
inductive LexerStep.Reports (step : LexerStep) : Int → Int → Nat → Prop
  | token {token : Token} : token ∈ step.lexer.tokenList →
    Reports step token.start.line token.start.column token.start.offset
  | record {failure : Failure} : failure ∈ step.lexer.errorList →
    Reports step failure.line failure.column failure.offset
  | failure {failure : Failure} : step.failure = some failure →
    Reports step failure.line failure.column failure.offset

/-- A line and a column that are those of an offset inside a source. -/
structure Located (source : Bytes) (line column : Int) (offset : Nat) : Prop where
  inside : offset ≤ source.length
  line_eq : line = (Position.ofOffset source offset).line
  column_eq : column = (Position.ofOffset source offset).column

theorem Cursor.Past.located {source : Bytes} {offset : Nat} {cursor : Cursor}
    (h : cursor.Past source offset) :
    Located source cursor.position.line cursor.position.column cursor.position.offset := by
  obtain ⟨reached, -, hat⟩ := h
  rw [hat.position_eq]
  exact ⟨hat.inside, rfl, rfl⟩

namespace Lexer

/-- A run that stands in a source and has reported places of this source. -/
structure Faithful (source : Bytes) (lexer : Lexer) : Prop where
  cursor : lexer.cursor.Past source 0
  tokens : ∀ token ∈ lexer.tokens,
    Located source token.start.line token.start.column token.start.offset
  errors : ∀ failure ∈ lexer.errors, Located source failure.line failure.column failure.offset

end Lexer

/-- A faithful run, whose failure is at a place of the source too. -/
structure LexerStep.Faithful (source : Bytes) (step : LexerStep) : Prop where
  lexer : step.lexer.Faithful source
  failure : ∀ failure, step.failure = some failure →
    Located source failure.line failure.column failure.offset

theorem LexerStep.Faithful.located {source : Bytes} {step : LexerStep} {line column : Int}
    {offset : Nat} (h : step.Faithful source) (hreports : step.Reports line column offset) :
    Located source line column offset := by
  cases hreports with
  | token hmem => exact h.lexer.tokens _ (List.mem_reverse.mp hmem)
  | record hmem => exact h.lexer.errors _ (List.mem_reverse.mp hmem)
  | failure hfailure => exact h.failure _ hfailure

theorem LexerStep.Faithful.andThen {source : Bytes} {step : LexerStep} {next : Lexer → LexerStep}
    (h : step.Faithful source) (hnext : step.lexer.Faithful source →
      (next step.lexer).Faithful source) : (step.andThen next).Faithful source := by
  unfold LexerStep.andThen
  split
  · exact h
  · exact hnext h.lexer

namespace Lexer

variable {options : LexerOptions} {source : Bytes} {lexer : Lexer} {start : Position}

theorem Faithful.step (h : lexer.Faithful source) : LexerStep.Faithful source ⟨lexer, none⟩ :=
  ⟨h, nofun⟩

theorem Faithful.move (h : lexer.Faithful source) (length : Nat) (newline : Bool)
    (surroundings : List Surrounding) : Faithful source
      { lexer with
        cursor := lexer.cursor.advanceBy length
        newlinePending := newline
        surroundings := surroundings } :=
  { h with cursor := h.cursor.advanceBy length }

theorem Faithful.push (h : lexer.Faithful source) (kind : TokenKind) (value : Bytes)
    (hstart : Located source start.line start.column start.offset) :
    (lexer.push kind value start).Faithful source :=
  { h with tokens := List.forall_mem_cons.mpr ⟨hstart, h.tokens⟩ }

theorem report_faithful (h : lexer.Faithful source)
    (hstart : Located source start.line start.column start.offset) (fault : LexicalFault) :
    (report options lexer fault start).Faithful source := by
  have hrecorded : Faithful source
      { lexer with errors := Failure.ofFault fault start :: lexer.errors } :=
    { h with errors := List.forall_mem_cons.mpr ⟨hstart, h.errors⟩ }
  have hfailed {lexer : Lexer} {failure : Failure} (hlexer : lexer.Faithful source)
      (hfailure : Located source failure.line failure.column failure.offset) :
      LexerStep.Faithful source ⟨lexer, some failure⟩ := by
    refine ⟨hlexer, fun other hother ↦ ?_⟩
    obtain rfl := Option.some.inj hother
    exact hfailure
  have hrecovery : (recoveryPoint options.mode start lexer.cursor).Past source 0 := by
    unfold recoveryPoint passWhile
    dsimp only
    have hstep : (if lexer.cursor.position.offset == start.offset then lexer.cursor.advance
        else lexer.cursor).Past source 0 := by
      split
      · exact h.cursor.advanceBy 1
      · exact h.cursor
    split
    · exact hstep.advanceBy _
    · exact hstep
  unfold report
  dsimp only
  split
  · exact hfailed h hstart
  · split
    · exact hfailed hrecorded hstart
    · split
      · exact hfailed { hrecorded with } hstart
      · have hrecovered : Faithful source { lexer with
            cursor := recoveryPoint options.mode start lexer.cursor
            recoveries := lexer.recoveries + 1
            errors := Failure.ofFault fault start :: lexer.errors } :=
          ⟨hrecovery, hrecorded.tokens, hrecorded.errors⟩
        exact (hrecovered.push _ _ hstart).step

theorem reachLexeme_faithful (h : lexer.Faithful source) :
    (reachLexeme options lexer).Faithful source := by
  unfold reachLexeme skipTrivia
  split
  · exact h.step
  · split
    · exact (h.move _ _ _).step
    · exact report_faithful (h.move _ _ _) (h.cursor.advanceBy _).located _

theorem accept_faithful (h : lexer.Faithful source) (scanned : Scanned) :
    (accept options lexer scanned).Faithful source := by
  unfold accept
  dsimp only
  split
  · exact ((h.move _ _ _).push _ _ h.cursor.located).step
  · exact report_faithful (h.move _ _ _) h.cursor.located _

theorem finish_faithful (h : lexer.Faithful source) : (finish options lexer).Faithful source := by
  have hclose : (closeMarkup options lexer).Faithful source := by
    unfold closeMarkup
    split
    · exact report_faithful h h.cursor.located _
    · exact report_faithful h h.cursor.located _
    · exact h.step
  rw [finish_eq]
  exact hclose.andThen fun hlast ↦ (hlast.push _ _ hlast.cursor.located).step

theorem run_faithful (rounds : Nat) (h : lexer.Faithful source) :
    (run options rounds lexer).Faithful source := by
  induction rounds generalizing lexer with
  | zero => exact finish_faithful h
  | succ rounds ih =>
    rw [run_succ_eq]
    refine (reachLexeme_faithful h).andThen fun hready ↦ ?_
    split
    · exact finish_faithful hready
    · exact (accept_faithful hready _).andThen ih

end Lexer

theorem tokenize_faithful (options : LexerOptions) (source : Bytes) :
    (tokenize options source).Faithful source :=
  Lexer.run_faithful _ ⟨(Cursor.At.start source).past, nofun, nofun⟩

/-! ## Lines of a source -/

/-- A line of a source, together with what lies in front of it and behind it, that an offset falls
on; at its end it falls on the line as well. -/
structure FallsOn (source : Bytes) (offset : Nat) (front line back : Bytes) : Prop where
  source_eq : source = front ++ line ++ back
  opens : front = [] ∨ ∃ earlier, front = earlier ++ [10]
  closes : back = [] ∨ ∃ later, back = 10 :: later
  whole : 10 ∉ line
  behind : front.length ≤ offset
  before : offset ≤ front.length + line.length

theorem exists_split (text : Bytes) : ∃ line back, text = line ++ back ∧ 10 ∉ line ∧
    (back = [] ∨ ∃ later, back = 10 :: later) := by
  induction text with
  | nil => exact ⟨[], [], rfl, nofun, .inl rfl⟩
  | cons b rest ih =>
    by_cases hb : b = 10
    · exact ⟨[], b :: rest, rfl, nofun, .inr ⟨rest, congrArg (· :: rest) hb⟩⟩
    · obtain ⟨line, back, hrest, hwhole, hcloses⟩ := ih
      refine ⟨b :: line, back, congrArg (b :: ·) hrest, ?_, hcloses⟩
      rw [List.mem_cons]
      exact not_or.mpr ⟨Ne.symm hb, hwhole⟩

theorem exists_fallsOn {source : Bytes} {offset : Nat} (h : offset ≤ source.length) :
    ∃ front line back, FallsOn source offset front line back := by
  obtain ⟨front, head, htake, hhead, hopens⟩ : ∃ front head, source.take offset = front ++ head ∧
      10 ∉ head ∧ (front = [] ∨ ∃ earlier, front = earlier ++ [10]) := by
    obtain ⟨later, earlier, hsplit, hlater, hearlier⟩ := exists_split (source.take offset).reverse
    refine ⟨earlier.reverse, later.reverse, ?_, by simpa using hlater, ?_⟩
    · rw [← List.reverse_append, ← hsplit, List.reverse_reverse]
    · rcases hearlier with rfl | ⟨rest, rfl⟩
      · exact .inl rfl
      · exact .inr ⟨rest.reverse, List.reverse_cons⟩
  obtain ⟨tail, back, hdrop, htail, hcloses⟩ := exists_split (source.drop offset)
  have hlength : front.length + head.length = offset := by
    rw [← List.length_append, ← htake, List.length_take, Nat.min_eq_left h]
  refine ⟨front, head ++ tail, back, ⟨?_, hopens, hcloses, ?_, ?_, ?_⟩⟩
  · rw [← List.append_assoc, ← htake, List.append_assoc, ← hdrop, List.take_append_drop]
  · rw [List.mem_append]
    exact not_or.mpr ⟨hhead, htail⟩
  · omega
  · rw [List.length_append]
    omega

namespace FallsOn

variable {source front line back : Bytes} {offset : Nat}

/-- The bytes up to an offset are those in front of the line and the beginning of the line. -/
theorem take_eq (h : FallsOn source offset front line back) :
    source.take offset = front ++ line.take (offset - front.length) := by
  rw [h.source_eq, List.append_assoc, List.take_append, List.take_of_length_le h.behind,
    List.take_append_of_le_length]
  have := h.before
  omega

theorem line_eq (h : FallsOn source offset front line back) :
    (Position.ofOffset source offset).line = 1 + front.count 10 := by
  have hnone : (line.take (offset - front.length)).count 10 = 0 :=
    List.count_eq_zero.mpr fun hmem ↦ h.whole (List.mem_of_mem_take hmem)
  simp [Position.ofOffset, h.take_eq, hnone]

theorem column_eq (h : FallsOn source offset front line back) :
    (Position.ofOffset source offset).column = 1 + (offset - front.length) := by
  have hkept : ∀ b ∈ (line.take (offset - front.length)).reverse, (b != 10) = true := by
    intro b hb
    refine bne_iff_ne.mpr fun heq ↦ h.whole ?_
    exact heq ▸ List.mem_of_mem_take (List.mem_reverse.mp hb)
  have hopens : front.reverse.takeWhile (· != 10) = [] := by
    rcases h.opens with rfl | ⟨earlier, rfl⟩
    · rfl
    · simp
  have hlength := h.before
  rw [Position.ofOffset, h.take_eq, List.reverse_append, List.takeWhile_append_of_pos hkept, hopens]
  simp
  omega

end FallsOn

/-! ## Pieces of a cut -/

namespace Bytes

variable {separator : UInt8}

theorem splitAt_ne_nil (separator : UInt8) (text : Bytes) : splitAt separator text ≠ [] := by
  cases text with
  | nil => exact List.cons_ne_nil _ _
  | cons b rest =>
    unfold splitAt
    split
    · exact List.cons_ne_nil _ _
    · split <;> exact List.cons_ne_nil _ _

@[simp]
theorem splitAt_separator (separator : UInt8) (rest : Bytes) :
    splitAt separator (separator :: rest) = [] :: splitAt separator rest := by
  obtain ⟨piece, pieces, hpieces⟩ := List.exists_cons_of_ne_nil (splitAt_ne_nil separator rest)
  rw [splitAt, hpieces]
  exact if_pos BEq.rfl

theorem splitAt_of_ne {b : UInt8} {rest piece : Bytes} {pieces : List Bytes} (hb : b ≠ separator)
    (h : splitAt separator rest = piece :: pieces) :
    splitAt separator (b :: rest) = (b :: piece) :: pieces := by
  rw [splitAt, h]
  exact if_neg (by simpa using hb)

theorem splitAt_append {front : Bytes} (rest : Bytes) :
    splitAt separator (front ++ separator :: rest) =
      splitAt separator front ++ splitAt separator rest := by
  induction front with
  | nil => exact splitAt_separator separator rest
  | cons b front ih =>
    by_cases hb : b = separator
    · subst hb
      rw [List.cons_append, splitAt_separator, splitAt_separator, ih, List.cons_append]
    · obtain ⟨piece, pieces, hpieces⟩ := List.exists_cons_of_ne_nil (splitAt_ne_nil separator front)
      rw [splitAt_of_ne hb hpieces, List.cons_append, List.cons_append]
      refine splitAt_of_ne hb ?_
      rw [ih, hpieces, List.cons_append]

theorem splitAt_of_not_mem {text : Bytes} (h : separator ∉ text) :
    splitAt separator text = [text] := by
  induction text with
  | nil => rfl
  | cons b rest ih =>
    have hb : b ≠ separator := fun heq ↦ h (heq ▸ List.mem_cons_self)
    exact splitAt_of_ne hb (ih (List.not_mem_of_not_mem_cons h))

theorem length_splitAt (separator : UInt8) (text : Bytes) :
    (splitAt separator text).length = text.count separator + 1 := by
  induction text with
  | nil => rfl
  | cons b rest ih =>
    by_cases hb : b = separator
    · rw [hb, splitAt_separator, List.length_cons, ih, List.count_cons_self]
    · obtain ⟨piece, pieces, hpieces⟩ := List.exists_cons_of_ne_nil (splitAt_ne_nil separator rest)
      rw [splitAt_of_ne hb hpieces, List.count_cons_of_ne hb, ← ih, hpieces]
      rfl

end Bytes

theorem FallsOn.splitAt_eq {source front line back : Bytes} {offset : Nat}
    (h : FallsOn source offset front line back) :
    (Bytes.splitAt 10 source)[front.count 10]? = some line := by
  have hline : ∃ pieces, Bytes.splitAt 10 (line ++ back) = line :: pieces := by
    rcases h.closes with rfl | ⟨later, rfl⟩
    · rw [List.append_nil, Bytes.splitAt_of_not_mem h.whole]
      exact ⟨_, rfl⟩
    · rw [Bytes.splitAt_append, Bytes.splitAt_of_not_mem h.whole]
      exact ⟨_, rfl⟩
  obtain ⟨pieces, hpieces⟩ := hline
  rw [h.source_eq, List.append_assoc]
  rcases h.opens with rfl | ⟨earlier, rfl⟩
  · rw [List.nil_append, hpieces]
    rfl
  · have hcount : (earlier ++ [10]).count 10 = (Bytes.splitAt 10 earlier).length := by
      rw [List.count_append, Bytes.length_splitAt]
      rfl
    rw [hcount, List.append_assoc, List.singleton_append, Bytes.splitAt_append, hpieces]
    simp

/-! ## Excerpts -/

/-- A line as it is shown: without the carriage return at its end, if there is one. -/
inductive ShownAs : Bytes → Bytes → Prop
  | trimmed (shown : Bytes) : ShownAs (shown ++ [13]) shown
  | whole {line : Bytes} : (∀ front, line ≠ front ++ [13]) → ShownAs line line

/-- What stands under a line: a bar under the bar behind its number, and a caret as many bytes
behind that as the line has up to some place, with a tab under every tab in front of the place. -/
structure PointsTo (gutter shown under : Bytes) (place : Nat) : Prop where
  gutter_eq : under.take gutter.length = List.replicate (gutter.length - 2) 32 ++ bytes "| "
  padding : ∀ i < place, under[gutter.length + i]? = some (if shown[i]? = some 9 then 9 else 32)
  caret : under[gutter.length + place]? = some (byte '^')
  length_eq : under.length = gutter.length + place + 1
  whole : 10 ∉ under

namespace Terminal

theorem shownAs (line : Bytes) :
    ShownAs line (if line.getLast? == some 13 then line.dropLast else line) := by
  split
  · next hlast =>
    obtain ⟨front, rfl⟩ := List.getLast?_eq_some_iff.mp (eq_of_beq hlast)
    rw [List.dropLast_concat]
    exact .trimmed front
  · next hlast =>
    refine .whole fun front heq ↦ hlast ?_
    simp [heq]

theorem pointsTo {gutter : Bytes} (hgutter : 2 ≤ gutter.length) (shown : Bytes) (column : Int) :
    PointsTo gutter shown (List.replicate (gutter.length - 2) 32 ++ bytes "| " ++
      caretPadding column shown ++ bytes "^") (min (column - 1).toNat shown.length) := by
  have hbar : (List.replicate (gutter.length - 2) 32 ++ bytes "| ").length = gutter.length := by
    have : (bytes "| ").length = 2 := rfl
    rw [List.length_append, List.length_replicate, this]
    omega
  have hpadding : (caretPadding column shown).length = min (column - 1).toNat shown.length := by
    rw [caretPadding, List.length_map, List.length_take]
  refine ⟨?_, fun i hi ↦ ?_, ?_, ?_, ?_⟩
  · rw [List.append_assoc, List.take_append_of_le_length hbar.ge, List.take_of_length_le hbar.le]
  · rw [List.append_assoc, List.getElem?_append_right (by omega), hbar, Nat.add_sub_cancel_left,
      List.getElem?_append_left (by omega), caretPadding, List.getElem?_map,
      List.getElem?_take_of_lt (by omega), List.getElem?_eq_getElem (by omega)]
    simp
  · rw [List.getElem?_append_right (by rw [List.length_append]; omega), List.length_append, hbar,
      hpadding, Nat.sub_self]
    rfl
  · rw [List.length_append, List.length_append, hbar, hpadding]
    rfl
  · have hbar : 10 ∉ bytes "| " := by decide
    have hcaret : 10 ∉ bytes "^" := by decide
    have hpadding : 10 ∉ caretPadding column shown := by
      intro hmem
      obtain ⟨b, -, hb⟩ := List.mem_map.mp hmem
      split at hb <;> cases hb
    simp only [List.mem_append, not_or]
    refine ⟨⟨⟨fun hmem ↦ ?_, hbar⟩, hpadding⟩, hcaret⟩
    cases (List.mem_replicate.mp hmem).2

theorem not_mem_gutter (number : Nat) : 10 ∉ Bytes.ofNat number ++ bytes " | " := by
  rw [List.mem_append]
  refine not_or.mpr ⟨fun hmem ↦ ?_, by decide⟩
  exact absurd (Bytes.isDigit_of_mem_ofNat hmem) (by decide)

/-- The excerpt at every place that a run reports shows the line around the place, as the source
has it up to its carriage return, and a caret under the place, or at the end of what is shown. -/
theorem excerpt_points {options : LexerOptions} {source : Bytes} {line column : Int} {offset : Nat}
    (hsource : source ≠ []) (h : (tokenize options source).Reports line column offset) :
    ∃ front text back, FallsOn source offset front text back ∧
      line = 1 + front.count 10 ∧ column = 1 + (offset - front.length : Nat) ∧
      ∃ shown under, ShownAs text shown ∧
        let gutter := Bytes.ofInt line ++ bytes " | "
        excerpt source line column = gutter ++ shown ++ 10 :: under ∧
          10 ∉ gutter ++ shown ∧
          PointsTo gutter shown under (min (column - 1).toNat shown.length) := by
  obtain ⟨hinside, hline, hcolumn⟩ := (tokenize_faithful options source).located h
  obtain ⟨front, text, back, hfalls⟩ := exists_fallsOn hinside
  rw [hfalls.line_eq] at hline
  rw [hfalls.column_eq] at hcolumn
  have hshown := shownAs text
  refine ⟨front, text, back, hfalls, ?_, ?_, _, _, hshown, ?_, ?_, pointsTo ?_ _ _⟩
  · rw [hline, Int.natCast_add]
    rfl
  · rw [hcolumn, Int.natCast_add]
    rfl
  · have hpiece : (Bytes.splitAt 10 source)[line.toNat - 1]? = some text := by
      rw [hline, Int.toNat_natCast, Nat.add_sub_cancel_left]
      exact hfalls.splitAt_eq
    have hguard : (decide (line ≤ 0) || source.isEmpty) = false := by
      rw [Bool.or_eq_false_iff, decide_eq_false_iff_not, List.isEmpty_eq_false_iff]
      exact ⟨by omega, hsource⟩
    unfold excerpt
    rw [hguard, hpiece]
    simp [newline]
  · rw [hline]
    refine List.mem_append.not.mpr (not_or.mpr ⟨not_mem_gutter _, fun hmem ↦ hfalls.whole ?_⟩)
    split at hmem
    · exact List.dropLast_subset _ hmem
    · exact hmem
  · rw [List.length_append]
    exact Nat.le_trans (by decide) (Nat.le_add_left _ _)

/-- A name behind a tab, on a line that ends in a carriage return. -/
theorem excerpt_points_tab :
    let source := bytes "a\r\n\tbc\r\n"
    source ≠ [] ∧ (tokenize {} source).Reports 2 2 4 ∧
      ∃ front text back, FallsOn source 4 front text back ∧
        (2 : Int) = 1 + front.count 10 ∧ (2 : Int) = 1 + (4 - front.length : Nat) ∧
        ∃ shown under, ShownAs text shown ∧
          let gutter := Bytes.ofInt 2 ++ bytes " | "
          excerpt source 2 2 = gutter ++ shown ++ 10 :: under ∧
            10 ∉ gutter ++ shown ∧ PointsTo gutter shown under (min 1 shown.length) := by
  intro source
  have hsource : source ≠ [] := by decide
  have hreports : (tokenize {} source).Reports 2 2 4 := by
    let token : Token :=
      { kind := .identifier, value := bytes "bc", start := ⟨2, 2, 4⟩, stop := 6
        newlineBefore := true }
    have hmem : token ∈ (tokenize {} source).lexer.tokenList := by decide +kernel
    exact .token hmem
  exact ⟨hsource, hreports, excerpt_points hsource hreports⟩

end Terminal

end SignalView
