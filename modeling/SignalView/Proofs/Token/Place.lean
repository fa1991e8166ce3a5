import SignalView.Text.Position

/-!
# Offsets and places

A cursor that is moved over a source byte by byte knows its line and column at every offset. Here
both are told from the bytes in front of the offset alone: the line by the line feeds among them,
the column by the bytes behind the last of these. Moving a cursor keeps the two in step.
-/

namespace SignalView

/-- The bytes of a text between two offsets. -/
def slice (source : Bytes) (start stop : Nat) : Bytes := (source.take stop).drop start

theorem slice_eq_take_drop (source : Bytes) (start length : Nat) :
    slice source start (start + length) = (source.drop start).take length := by
  rw [slice, List.take_drop]

@[simp]
theorem slice_self (source : Bytes) (start : Nat) : slice source start start = [] := by
  have h := slice_eq_take_drop source start 0
  simpa using h

/-- The place of an offset. -/
def Position.ofOffset (source : Bytes) (offset : Nat) : Position where
  line := 1 + (source.take offset).count 10
  column := 1 + ((source.take offset).reverse.takeWhile (· != 10)).length
  offset := offset

theorem Position.ofOffset_succ {source : Bytes} {offset : Nat} {b : UInt8}
    (h : source[offset]? = some b) :
    Position.ofOffset source (offset + 1) = (Position.ofOffset source offset).after b := by
  have htake : source.take (offset + 1) = source.take offset ++ [b] := by
    rw [List.take_add_one, h]
    rfl
  unfold Position.ofOffset Position.after
  rw [htake]
  by_cases hb : b = 10
  · subst hb
    simp
    omega
  · simp [hb, Nat.add_assoc]

/-- An offset has its place on the line of another one in front of it, unless that line ends between
the two. -/
theorem Position.ofOffset_eq_iff {source : Bytes} {start stop : Nat} (hstart : start ≤ stop)
    (hstop : stop ≤ source.length) :
    (⟨(Position.ofOffset source start).line,
        (Position.ofOffset source start).column + (stop - start), stop⟩ : Position) =
      Position.ofOffset source stop ↔ 10 ∉ slice source start stop := by
  have htake : source.take stop = source.take start ++ slice source start stop := by
    have hfront : (source.take stop).take start = source.take start := by
      rw [List.take_take, Nat.min_eq_left hstart]
    rw [slice, ← hfront, List.take_append_drop]
  have hlength : (slice source start stop).length = stop - start := by
    rw [slice, List.length_drop, List.length_take_of_le hstop]
  simp only [Position.ofOffset, htake, List.count_append, List.reverse_append, Position.mk.injEq]
  constructor
  · rintro ⟨hline, -, -⟩
    rw [← List.count_eq_zero]
    omega
  · intro hslice
    have hall : ∀ b ∈ (slice source start stop).reverse, (b != 10) = true := by
      intro b hb
      rw [bne_iff_ne]
      rintro rfl
      exact hslice (List.mem_reverse.mp hb)
    rw [List.count_eq_zero.mpr hslice, List.takeWhile_append_of_pos hall, List.length_append,
      List.length_reverse, hlength]
    exact ⟨rfl, by omega, trivial⟩

namespace Cursor

/-- The cursor stands at an offset of a source. -/
structure At (source : Bytes) (offset : Nat) (cursor : Cursor) : Prop where
  inside : offset ≤ source.length
  rest_eq : cursor.rest = source.drop offset
  position_eq : cursor.position = .ofOffset source offset

variable {source : Bytes} {offset : Nat} {cursor : Cursor}

theorem At.start (source : Bytes) : At source 0 { rest := source } where
  inside := Nat.zero_le _
  rest_eq := rfl
  position_eq := by simp [Position.ofOffset]

theorem At.length_rest (h : cursor.At source offset) :
    offset + cursor.rest.length = source.length := by
  have := h.inside
  rw [h.rest_eq, List.length_drop]
  omega

theorem At.take_rest (h : cursor.At source offset) (length : Nat) :
    cursor.rest.take length = slice source offset (offset + length) := by
  rw [slice_eq_take_drop, h.rest_eq]

theorem At.advance (h : cursor.At source offset) (hrest : cursor.rest ≠ []) :
    cursor.advance.At source (offset + 1) := by
  obtain ⟨hinside, hdrop, hposition⟩ := h
  unfold Cursor.advance
  split
  · contradiction
  · next b rest hcons =>
    rw [hcons] at hdrop
    have hget : source[offset]? = some b := by
      have := congrArg List.head? hdrop
      simpa using this.symm
    refine ⟨?_, ?_, ?_⟩
    · have := (List.getElem?_eq_some_iff.mp hget).1
      omega
    · have := congrArg (List.drop 1) hdrop
      simpa [List.drop_drop] using this
    · rw [hposition, Position.ofOffset_succ hget]

theorem At.advanceBy {length : Nat} (h : cursor.At source offset)
    (hlength : length ≤ cursor.rest.length) :
    (Cursor.advanceBy length cursor).At source (offset + length) := by
  induction length generalizing cursor offset with
  | zero => exact h
  | succ length ih =>
    have hrest : cursor.rest ≠ [] := by
      intro hnil
      rw [hnil] at hlength
      exact absurd hlength (Nat.not_succ_le_zero length)
    have hnext := h.advance hrest
    have hlengths := h.length_rest
    have hlengths' := hnext.length_rest
    have := ih hnext (by omega)
    rwa [Nat.add_assoc, Nat.add_comm 1 length] at this

end Cursor

end SignalView
