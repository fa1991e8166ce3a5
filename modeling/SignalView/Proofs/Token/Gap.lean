import SignalView.Token.Stream

/-!
# White space and comments

What may stand between two tokens, as a grammar of its own: white space, line comments up to the
end of their line, and block comments up to the first mark that closes them. Only behind the last
token a line comment may end with the source instead. The measuring of trivia, which runs through
the bytes as a small automaton, accepts nothing else, and it remembers a line end exactly when it
has passed one.
-/

namespace SignalView

/-- A stretch of white space and complete comments; `isLast` tells whether the source ends behind
it. -/
inductive Gap (isLast : Bool) : Bytes → Prop
  | nil : Gap isLast []
  | space {b : UInt8} {rest : Bytes} :
    Byte.isSpace b = true → Gap isLast rest → Gap isLast (b :: rest)
  | lineComment {body rest : Bytes} :
    10 ∉ body → Gap isLast (10 :: rest) → Gap isLast (bytes "//" ++ body ++ 10 :: rest)
  | blockComment {body rest : Bytes} :
    ¬bytes "*/" <:+: body → Gap isLast rest → Gap isLast (bytes "/*" ++ body ++ bytes "*/" ++ rest)
  | lastComment {body : Bytes} :
    isLast = true → 10 ∉ body → Gap isLast (bytes "//" ++ body)

namespace Lexer

/-- What the automaton has yet to pass when it stops, by the state it is in. -/
def TriviaState.Closes (isLast : Bool) (gap : Bytes) : TriviaState → Prop
  | .between => Gap isLast gap
  | .lineComment =>
    (∃ body rest, gap = body ++ 10 :: rest ∧ 10 ∉ body ∧ Gap isLast (10 :: rest)) ∨
      (isLast = true ∧ 10 ∉ gap)
  | .blockComment _ =>
    ∃ body rest, gap = body ++ bytes "*/" ++ rest ∧ ¬bytes "*/" <:+: body ∧ Gap isLast rest

/-- A block comment that does not close at a byte closes behind it. -/
theorem not_infix_cons_of_opens {b : UInt8} {body : Bytes} (after : Bytes)
    (hbody : ¬bytes "*/" <:+: body)
    (hhere : ¬(b == byte '*' && (body ++ bytes "*/" ++ after).head? == some (byte '/')) = true) :
    ¬bytes "*/" <:+: b :: body := by
  rw [List.infix_cons_iff]
  rintro (hfront | hbetween)
  · apply hhere
    obtain ⟨tail, htail⟩ := hfront
    rw [show bytes "*/" = [byte '*', byte '/'] from rfl] at htail
    obtain ⟨rfl, rfl⟩ := List.cons.inj htail
    rfl
  · exact hbody hbetween

/-- The state behind a byte that is no line end and closes nothing. -/
theorem TriviaState.Closes.cons {isLast : Bool} {b : UInt8} {gap : Bytes} {state : TriviaState}
    (after : Bytes) (h : state.Closes isLast gap)
    (hstate : match state with
      | .between => Byte.isSpace b = true
      | .lineComment => b ≠ 10
      | .blockComment _ =>
        ¬(b == byte '*' && (gap ++ after).head? == some (byte '/')) = true) :
    state.Closes isLast (b :: gap) := by
  cases state with
  | between => exact .space hstate h
  | lineComment =>
    rcases h with ⟨body, rest, rfl, hbody, hrest⟩ | ⟨hlast, hgap⟩
    · exact .inl ⟨b :: body, rest, rfl, by simpa [Ne.symm hstate] using hbody, hrest⟩
    · exact .inr ⟨hlast, by simpa [Ne.symm hstate] using hgap⟩
  | blockComment start =>
    obtain ⟨body, rest, rfl, hbody, hrest⟩ := h
    refine ⟨b :: body, rest, rfl, ?_, hrest⟩
    apply not_infix_cons_of_opens (rest ++ after) hbody
    simpa using hstate

theorem Gap.of_lineComment {isLast : Bool} {gap : Bytes}
    (h : TriviaState.lineComment.Closes isLast gap) : Gap isLast (bytes "//" ++ gap) := by
  rcases h with ⟨body, rest, rfl, hbody, hrest⟩ | ⟨hlast, hgap⟩
  · have := Gap.lineComment hbody hrest
    rwa [List.append_assoc] at this
  · exact .lastComment hlast hgap

theorem Gap.of_blockComment {isLast : Bool} {gap : Bytes} {start : Nat}
    (h : (TriviaState.blockComment start).Closes isLast gap) : Gap isLast (bytes "/*" ++ gap) := by
  obtain ⟨body, rest, rfl, hbody, hrest⟩ := h
  have := Gap.blockComment hbody hrest
  rwa [List.append_assoc, List.append_assoc, ← List.append_assoc body] at this

theorem contains_newline_cons (newline : Bool) (b : UInt8) (gap : Bytes) :
    (newline || (b :: gap).contains 10) = ((newline || b == 10) || gap.contains 10) := by
  rw [List.contains_cons, Bool.or_assoc, BEq.comm]

/-- A run of the automaton that ends outside of block comments has passed a gap. -/
theorem triviaFrom_eq_space {state : TriviaState} {length length' : Nat} {newline newline' : Bool}
    {text : Bytes} (h : triviaFrom state 0 length newline text = .space length' newline') :
    ∃ gap after, text = gap ++ after ∧ length' = length + gap.length ∧
      newline' = (newline || gap.contains 10) ∧ state.Closes after.isEmpty gap := by
  match text with
  | [] =>
    refine ⟨[], [], rfl, ?_⟩
    cases state with
    | between =>
      obtain ⟨rfl, rfl⟩ := by simpa [triviaFrom] using h
      exact ⟨rfl, by simp, .nil⟩
    | lineComment =>
      obtain ⟨rfl, rfl⟩ := by simpa [triviaFrom] using h
      exact ⟨rfl, by simp, .inr ⟨rfl, by simp⟩⟩
    | blockComment start => simp [triviaFrom] at h
  | b :: rest =>
    cases state with
    | between =>
      simp only [triviaFrom] at h
      split at h
      · next hb =>
        obtain ⟨gap, after, rfl, rfl, rfl, hgap⟩ := triviaFrom_eq_space h
        have hb : b = 10 := by simpa using hb
        exact ⟨b :: gap, after, rfl, by simp; omega, by simp [hb], .space (by rw [hb]; rfl) hgap⟩
      split at h
      · next hb hspace =>
        obtain ⟨gap, after, rfl, rfl, rfl, hgap⟩ := triviaFrom_eq_space h
        have hb : (b == 10) = false := by simpa using hb
        refine ⟨b :: gap, after, rfl, by simp; omega, ?_, .space hspace hgap⟩
        rw [contains_newline_cons, hb, Bool.or_false]
      split at h
      · next hslash =>
        obtain ⟨hb, hhead⟩ : b = byte '/' ∧ rest.head? = some (byte '/') := by simpa using hslash
        obtain ⟨rest, rfl⟩ := List.head?_eq_some_iff.mp hhead
        -- The second slash is passed as the first byte of the comment's text.
        replace h : triviaFrom .lineComment 0 (length + 2) newline rest = .space length' newline' :=
          h
        obtain ⟨gap, after, rfl, rfl, rfl, hgap⟩ := triviaFrom_eq_space h
        refine ⟨bytes "//" ++ gap, after, ?_, ?_, ?_, Gap.of_lineComment hgap⟩
        · rw [hb]
          rfl
        · simp [bytes]
          omega
        · simp [bytes, byte]
      split at h
      · next hslash =>
        obtain ⟨hb, hhead⟩ : b = byte '/' ∧ rest.head? = some (byte '*') := by simpa using hslash
        obtain ⟨rest, rfl⟩ := List.head?_eq_some_iff.mp hhead
        replace h : triviaFrom (.blockComment length) 0 (length + 2) newline rest =
          .space length' newline' := h
        obtain ⟨gap, after, rfl, rfl, rfl, hgap⟩ := triviaFrom_eq_space h
        refine ⟨bytes "/*" ++ gap, after, ?_, ?_, ?_, Gap.of_blockComment hgap⟩
        · rw [hb]
          rfl
        · simp [bytes]
          omega
        · simp [bytes, byte]
      · obtain ⟨rfl, rfl⟩ := by simpa using h
        exact ⟨[], b :: rest, rfl, rfl, by simp, .nil⟩
    | lineComment =>
      simp only [triviaFrom] at h
      split at h
      · next hb =>
        obtain ⟨gap, after, rfl, rfl, rfl, hgap⟩ := triviaFrom_eq_space h
        have hb : b = 10 := by simpa using hb
        refine ⟨b :: gap, after, rfl, by simp; omega, by simp [hb], .inl ⟨[], gap, ?_, ?_, ?_⟩⟩
        · rw [hb]
          rfl
        · simp
        · exact .space rfl hgap
      · next hb =>
        obtain ⟨gap, after, rfl, rfl, rfl, hgap⟩ := triviaFrom_eq_space h
        have hb : b ≠ 10 := by simpa using hb
        exact ⟨b :: gap, after, rfl, by simp; omega, by simp [hb.symm], hgap.cons after hb⟩
    | blockComment start =>
      simp only [triviaFrom] at h
      split at h
      · next hclose =>
        obtain ⟨hb, hhead⟩ : b = byte '*' ∧ rest.head? = some (byte '/') := by simpa using hclose
        obtain ⟨rest, rfl⟩ := List.head?_eq_some_iff.mp hhead
        replace h : triviaFrom .between 0 (length + 2) newline rest = .space length' newline' := h
        obtain ⟨gap, after, rfl, rfl, rfl, hgap⟩ := triviaFrom_eq_space h
        refine ⟨bytes "*/" ++ gap, after, ?_, ?_, ?_, [], gap, rfl, ?_, hgap⟩
        · rw [hb]
          rfl
        · simp [bytes]
          omega
        · simp [bytes, byte]
        · simp [bytes]
      · next hopen =>
        obtain ⟨gap, after, rfl, rfl, rfl, hgap⟩ := triviaFrom_eq_space h
        refine ⟨b :: gap, after, rfl, by simp; omega, ?_, hgap.cons after hopen⟩
        rw [contains_newline_cons]
termination_by text.length

end Lexer

end SignalView
