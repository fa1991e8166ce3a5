import Mathlib.Data.List.TakeWhile
import SignalView.Proofs.Text.Quoting
import SignalView.Proofs.Token.Spelling

/-!
# Reading a token again

A name or a number that was read from some source is read again from its own text, with something
else behind it: what follows only has to keep off the bytes that the token could go on with. The
exception is a name with an escape `\u` whose brace is never closed, which reaches to the end of
whatever source it stands in. Strings are read back from the way in which they are quoted.
-/

namespace SignalView

/-! ## Where tokens end -/

/-- What follows does not start with a byte of a class. -/
def Avoids (p : UInt8 → Bool) (after : Bytes) : Prop := ∀ b, after.head? = some b → p b = false

theorem Avoids.nil (p : UInt8 → Bool) : Avoids p [] := nofun

theorem Avoids.startsWhere {p : UInt8 → Bool} {after : Bytes} (h : Avoids p after) :
    Literal.startsWhere p after = false := by
  cases after with
  | nil => rfl
  | cons b after => exact h b rfl

theorem Avoids.mono {p q : UInt8 → Bool} {after : Bytes} (h : Avoids p after)
    (hmono : ∀ b, q b = true → p b = true) : Avoids q after := by
  intro b hb
  have hp := h b hb
  cases hq : q b with
  | false => rfl
  | true => exact absurd (hmono b hq) (by simp [hp])

theorem takeWhile_append_of_avoids {p : UInt8 → Bool} {front after : Bytes}
    (hfront : ∀ b ∈ front, p b = true) (hafter : Avoids p after) :
    (front ++ after).takeWhile p = front := by
  rw [List.takeWhile_append_of_pos hfront]
  cases after with
  | nil => simp
  | cons b after => simp [hafter b rfl]

theorem dropWhile_append_of_avoids {p : UInt8 → Bool} {front after : Bytes}
    (hfront : ∀ b ∈ front, p b = true) (hafter : Avoids p after) :
    (front ++ after).dropWhile p = after := by
  rw [List.dropWhile_append_of_pos hfront]
  cases after with
  | nil => rfl
  | cons b after => simp [hafter b rfl]

/-- The bytes that a name or a number could go on with. -/
def continues (b : UInt8) : Bool :=
  Byte.isIdentifierPart b || b == Quoted.backslash || b == Quoted.openBrace

/-- The bytes that a number could go on with. -/
def continuesNumber (b : UInt8) : Bool := continues b || b == byte '.'

namespace Literal

/-! ## Names -/

/-- Every escape `\u` with a brace is closed. -/
def escapesClosed : Bytes → Bool
  | [] => true
  | b :: rest =>
    (!([Quoted.backslash, byte 'u', Quoted.openBrace].isPrefixOf (b :: rest)) ||
      rest.contains Quoted.closeBrace) && escapesClosed rest

theorem escapesClosed_cons {b : UInt8} (rest : Bytes) (h : b ≠ Quoted.backslash) :
    escapesClosed (b :: rest) = escapesClosed rest := by
  simp [escapesClosed, beq_false_of_ne h.symm, List.isPrefixOf]

/-- The bytes of a name whose escapes are closed. -/
inductive NameBody : Bytes → Prop
  | nil : NameBody []
  | part {b : UInt8} {rest : Bytes} :
    Byte.isIdentifierPart b = true → NameBody rest → NameBody (b :: rest)
  | escape {rest : Bytes} : rest.head? ≠ some Quoted.openBrace → NameBody rest →
    NameBody (Quoted.backslash :: byte 'u' :: rest)
  | brace {inner rest : Bytes} : Quoted.closeBrace ∉ inner → NameBody rest →
    NameBody (Quoted.backslash :: byte 'u' :: Quoted.openBrace ::
      (inner ++ Quoted.closeBrace :: rest))

/-- What holds of every byte can be told by trying them all. -/
theorem forall_byte {P : UInt8 → Prop} (h : ∀ n : Fin 256, P (UInt8.ofFin n)) (b : UInt8) : P b :=
  h b.toFin

theorem isIdentifierPart_of_isHexDigit (b : UInt8) :
    Byte.isHexDigit b = true → Byte.isIdentifierPart b = true := by
  revert b
  exact forall_byte (by decide +kernel)

theorem isHexDigit_of_octal (b : UInt8) :
    (byte '0' ≤ b && b ≤ byte '7') = true → Byte.isHexDigit b = true := by
  revert b
  exact forall_byte (by decide +kernel)

theorem isHexDigit_of_isDigitOf {base : Nat} {b : UInt8} (h : isDigitOf base b = true) :
    Byte.isHexDigit b = true := by
  unfold isDigitOf at h
  split at h
  · simp only [Bool.or_eq_true, beq_iff_eq] at h
    rcases h with rfl | rfl <;> decide
  · split at h
    · exact isHexDigit_of_octal b h
    · split at h
      · exact h
      · simp [Byte.isHexDigit, h]

theorem isIdentifierPart_of_isDigitOrSeparator {base : Nat} {b : UInt8}
    (h : isDigitOrSeparator base b = true) : Byte.isIdentifierPart b = true := by
  simp only [isDigitOrSeparator, Bool.or_eq_true, beq_iff_eq] at h
  rcases h with h | rfl
  · exact isIdentifierPart_of_isHexDigit b (isHexDigit_of_isDigitOf h)
  · decide

/-- The digits of an escape are parts of a name themselves. -/
theorem nameLength_skip {skip : Nat} {rest : Bytes} (hskip : skip ≤ rest.length)
    (h : ∀ b ∈ rest.take skip, Byte.isIdentifierPart b = true) :
    nameLength skip rest = nameLength 0 rest := by
  induction skip generalizing rest with
  | zero => rfl
  | succ skip ih =>
    cases rest with
    | nil => simp at hskip
    | cons b rest =>
      simp only [List.take_succ_cons, List.mem_cons, forall_eq_or_imp] at h
      rw [nameLength, nameLength, if_pos h.1, ih (by simpa using hskip) h.2]

/-- Passed bytes count. -/
theorem nameLength_append (front after : Bytes) :
    nameLength front.length (front ++ after) = front.length + nameLength 0 after := by
  induction front with
  | nil => simp
  | cons b front ih =>
    rw [List.length_cons, List.cons_append, nameLength, ih]
    omega

theorem nameLength_backslash (rest : Bytes) :
    nameLength 0 (Quoted.backslash :: byte 'u' :: rest) =
      nameLength (nameEscapeLength rest) rest + 2 := by
  have hbackslash : Byte.isIdentifierPart Quoted.backslash = false := by decide
  rw [nameLength, if_neg (by simp [hbackslash])]
  simp only [List.head?_cons, BEq.rfl, Bool.and_self, if_true, List.drop_succ_cons, List.drop_zero]
  rw [nameLength]

theorem nameLength_escape (rest : Bytes) (h : rest.head? ≠ some Quoted.openBrace) :
    nameLength 0 (Quoted.backslash :: byte 'u' :: rest) = nameLength 0 rest + 2 := by
  have hdigits : nameEscapeLength rest = ((rest.take 4).takeWhile Byte.isHexDigit).length := by
    unfold nameEscapeLength
    rw [if_neg (by simpa using h)]
  have hfront : (rest.take 4).takeWhile Byte.isHexDigit <+: rest :=
    (List.takeWhile_prefix _).trans (List.take_prefix 4 rest)
  rw [nameLength_backslash, hdigits, nameLength_skip hfront.length_le]
  intro b hb
  rw [← List.prefix_iff_eq_take.mp hfront] at hb
  exact isIdentifierPart_of_isHexDigit b (List.mem_takeWhile_imp hb)

theorem ne_closeBrace {inner : Bytes} (h : Quoted.closeBrace ∉ inner) :
    ∀ b ∈ Quoted.openBrace :: inner, (b != Quoted.closeBrace) = true := by
  intro b hb
  rw [bne_iff_ne]
  rintro rfl
  rcases List.mem_cons.mp hb with hb | hb
  · cases hb
  · exact h hb

theorem nameLength_brace {inner : Bytes} (rest : Bytes) (h : Quoted.closeBrace ∉ inner) :
    nameLength 0 (Quoted.backslash :: byte 'u' :: Quoted.openBrace ::
      (inner ++ Quoted.closeBrace :: rest)) = inner.length + 4 + nameLength 0 rest := by
  have hwhile : (Quoted.openBrace :: (inner ++ Quoted.closeBrace :: rest)).takeWhile
      (· != Quoted.closeBrace) = Quoted.openBrace :: inner := by
    rw [← List.cons_append]
    apply takeWhile_append_of_avoids
    · exact ne_closeBrace h
    · intro b hb
      cases hb
      rfl
  have hlength : nameEscapeLength (Quoted.openBrace :: (inner ++ Quoted.closeBrace :: rest)) =
      (Quoted.openBrace :: inner ++ [Quoted.closeBrace]).length := by
    unfold nameEscapeLength
    rw [List.head?_cons, BEq.rfl, if_pos rfl, hwhile]
    simp
  rw [nameLength_backslash, hlength,
    show Quoted.openBrace :: (inner ++ Quoted.closeBrace :: rest) =
      (Quoted.openBrace :: inner ++ [Quoted.closeBrace]) ++ rest by simp, nameLength_append]
  simp
  omega

/-- An escape whose brace is never closed takes up all that follows. -/
theorem nameLength_open {inner : Bytes} (h : Quoted.closeBrace ∉ inner) :
    nameLength 0 (Quoted.backslash :: byte 'u' :: Quoted.openBrace :: inner) =
      inner.length + 3 := by
  have hlength : nameEscapeLength (Quoted.openBrace :: inner) =
      (Quoted.openBrace :: inner).length := by
    have hwhile : (Quoted.openBrace :: inner).takeWhile (· != Quoted.closeBrace) =
        Quoted.openBrace :: inner := by
      have htake := takeWhile_append_of_avoids (ne_closeBrace h) (Avoids.nil _)
      rwa [List.append_nil] at htake
    unfold nameEscapeLength
    rw [List.head?_cons, BEq.rfl, if_pos rfl, hwhile]
    omega
  rw [nameLength_backslash, hlength]
  have happend := nameLength_append (Quoted.openBrace :: inner) []
  rw [List.append_nil] at happend
  rw [happend]
  simp [nameLength]

/-- A closed name is as long as it was, when nothing that follows goes on with it. -/
theorem NameBody.nameLength_eq {name after : Bytes} (h : NameBody name)
    (hafter : Avoids continues after) : nameLength 0 (name ++ after) = name.length := by
  induction h with
  | nil =>
    cases after with
    | nil => rfl
    | cons b after =>
      have hb := hafter b rfl
      simp only [continues, Bool.or_eq_false_iff] at hb
      simp [nameLength, hb]
  | part hb _ ih => simpa [nameLength, hb] using ih
  | @escape rest hrest _ ih =>
    have hhead : (rest ++ after).head? ≠ some Quoted.openBrace := by
      cases rest with
      | nil =>
        intro hhead
        exact absurd (hafter _ hhead) (by decide)
      | cons b rest => exact hrest
    rw [List.cons_append, List.cons_append, nameLength_escape _ hhead, ih]
    rfl
  | brace hinner _ ih =>
    simp only [List.cons_append, List.append_assoc]
    rw [nameLength_brace _ hinner, ih]
    simp
    omega

/-- The name has an escape whose brace is not closed. -/
def OpenName (name : Bytes) : Prop :=
  ∃ front inner, Quoted.closeBrace ∉ inner ∧
    name = front ++ Quoted.backslash :: byte 'u' :: Quoted.openBrace :: inner

theorem OpenName.append (front : Bytes) {name : Bytes} (h : OpenName name) :
    OpenName (front ++ name) := by
  obtain ⟨before, inner, hinner, rfl⟩ := h
  exact ⟨front ++ before, inner, hinner, (List.append_assoc _ _ _).symm⟩

/-- How far a name reaches: its escapes are closed, or it reaches to the end. -/
def NameReach (rest : Bytes) : Prop :=
  ∃ name after, rest = name ++ after ∧ nameLength 0 rest = name.length ∧
    (NameBody name ∨ after = [] ∧ OpenName name)

/-- A stretch at the front that is passed as a whole. -/
theorem NameReach.append (front : Bytes) {rest : Bytes} (h : NameReach rest)
    (hlength : nameLength 0 (front ++ rest) = front.length + nameLength 0 rest)
    (hbody : ∀ name, rest.head? = name.head? ∨ name = [] → NameBody name →
      NameBody (front ++ name)) :
    NameReach (front ++ rest) := by
  obtain ⟨name, after, rfl, hname, hcases⟩ := h
  refine ⟨front ++ name, after, (List.append_assoc _ _ _).symm, ?_, ?_⟩
  · rw [hlength, hname, List.length_append]
  · refine hcases.imp (fun h ↦ hbody name ?_ h) fun h ↦ ⟨h.1, h.2.append front⟩
    cases name with
    | nil => exact .inr rfl
    | cons b name => exact .inl rfl

theorem nameReach_escape (more : Bytes)
    (ih : ∀ rest : Bytes, rest.length ≤ more.length → NameReach rest) :
    NameReach (Quoted.backslash :: byte 'u' :: more) := by
  by_cases hbrace : more.head? = some Quoted.openBrace
  · obtain ⟨more, rfl⟩ := List.head?_eq_some_iff.mp hbrace
    by_cases hclose : Quoted.closeBrace ∈ more
    · obtain ⟨inner, behind, rfl, hinner⟩ := List.eq_append_cons_of_mem hclose
      have hbehind := ih behind (by simp; omega)
      have hsplit : ∀ name, Quoted.backslash :: byte 'u' :: Quoted.openBrace ::
          (inner ++ Quoted.closeBrace :: name) = (Quoted.backslash :: byte 'u' ::
            Quoted.openBrace :: (inner ++ [Quoted.closeBrace])) ++ name := by simp
      rw [hsplit]
      refine hbehind.append _ ?_ fun name _ hname ↦ ?_
      · rw [← hsplit, nameLength_brace _ hinner]
        simp
      · rw [← hsplit]
        exact .brace hinner hname
    · refine ⟨_, [], (List.append_nil _).symm, ?_, .inr ⟨rfl, [], more, hclose, rfl⟩⟩
      rw [nameLength_open hclose]
      rfl
  · refine (ih more (Nat.le_refl _)).append [Quoted.backslash, byte 'u'] ?_ ?_
    · change nameLength 0 (Quoted.backslash :: byte 'u' :: more) = _
      rw [nameLength_escape more hbrace]
      simp
      omega
    · intro name hhead hname
      have hne : name.head? ≠ some Quoted.openBrace := by
        rcases hhead with hhead | rfl
        · rwa [← hhead]
        · nofun
      exact .escape hne hname

theorem nameReach (rest : Bytes) : NameReach rest := by
  induction hlength : rest.length using Nat.strong_induction_on generalizing rest with
  | _ length ih =>
    match rest with
    | [] => exact ⟨[], [], rfl, rfl, .inl .nil⟩
    | b :: rest =>
      by_cases hpart : Byte.isIdentifierPart b = true
      · have hrest : NameReach rest := ih _ (by simp [← hlength]) rest rfl
        refine hrest.append [b] ?_ fun _ _ h ↦ .part hpart h
        simp [nameLength, hpart]
        omega
      · by_cases hescape : (b == Quoted.backslash && rest.head? == some (byte 'u')) = true
        · simp only [Bool.and_eq_true, beq_iff_eq] at hescape
          obtain ⟨rfl, hu⟩ := hescape
          obtain ⟨more, rfl⟩ := List.head?_eq_some_iff.mp hu
          exact nameReach_escape more fun behind hbehind ↦
            ih _ (by simp [← hlength]; omega) behind rfl
        · refine ⟨[], b :: rest, rfl, ?_, .inl .nil⟩
          rw [nameLength, if_neg hpart, if_neg hescape]
          rfl

theorem escapesClosed_append_closeBrace (inner : Bytes) {rest : Bytes}
    (h : escapesClosed rest = true) :
    escapesClosed (inner ++ Quoted.closeBrace :: rest) = true := by
  induction inner with
  | nil =>
    rw [List.nil_append, escapesClosed, h]
    rfl
  | cons b inner ih =>
    rw [List.cons_append, escapesClosed, ih]
    simp

theorem NameBody.escapesClosed {name : Bytes} (h : NameBody name) : escapesClosed name = true := by
  induction h with
  | nil => rfl
  | part hb _ ih =>
    rwa [escapesClosed_cons]
    rintro rfl
    cases hb
  | @escape rest hrest _ ih =>
    have hfront : [Quoted.backslash, byte 'u', Quoted.openBrace].isPrefixOf
        (Quoted.backslash :: byte 'u' :: rest) = false := by
      cases rest with
      | nil => rfl
      | cons b rest =>
        have hb : Quoted.openBrace ≠ b := fun hb ↦ hrest (hb ▸ rfl)
        simp [List.isPrefixOf, hb]
    rw [Literal.escapesClosed, hfront, escapesClosed_cons _ (by decide), ih]
    rfl
  | @brace inner rest hinner _ ih =>
    rw [Literal.escapesClosed, escapesClosed_cons _ (by decide), escapesClosed_cons _ (by decide),
      escapesClosed_append_closeBrace inner ih]
    simp

theorem OpenName.escapesClosed {name : Bytes} (h : OpenName name) : escapesClosed name = false := by
  obtain ⟨front, inner, hinner, rfl⟩ := h
  induction front with
  | nil =>
    have hcontains :
        (byte 'u' :: Quoted.openBrace :: inner).contains Quoted.closeBrace = false := by
      rw [List.contains_eq_mem, decide_eq_false_iff_not, List.mem_cons, List.mem_cons, not_or,
        not_or]
      exact ⟨by decide, by decide, hinner⟩
    rw [List.nil_append, Literal.escapesClosed, hcontains]
    rfl
  | cons b front ih => rw [List.cons_append, Literal.escapesClosed, ih, Bool.and_false]

/-- How many bytes stand in front of a name itself. -/
def nameLead (rest : Bytes) : Nat := if rest.head? == some (byte '#') then 1 else 0

/-- A name whose escapes are closed. -/
structure IsName (name : Bytes) : Prop where
  starts : startsName name = true
  body : NameBody (name.drop (nameLead name))

theorem nameLead_append {name : Bytes} (hname : name ≠ []) (after : Bytes) :
    nameLead (name ++ after) = nameLead name := by
  cases name with
  | nil => exact absurd rfl hname
  | cons b name => rfl

theorem nameLead_le {rest : Bytes} (hrest : rest ≠ []) : nameLead rest ≤ rest.length := by
  have := List.length_pos_iff.mpr hrest
  unfold nameLead
  split <;> omega

theorem ne_nil_of_startsName {rest : Bytes} (h : startsName rest = true) : rest ≠ [] := by
  rintro rfl
  cases h

theorem startsName_append {name : Bytes} (h : startsName name = true) (after : Bytes) :
    startsName (name ++ after) = true := by
  match name with
  | [] => cases h
  | [b] =>
    have hstart : Byte.isIdentifierStart b = true := by simpa [startsName, startsWhere] using h
    simp [startsName, hstart]
  | b :: c :: name => exact h

/-- The bytes that a name starts with. -/
def opensName (b : UInt8) : Bool :=
  Byte.isIdentifierStart b || b == Quoted.backslash || b == byte '#'

theorem opensName_of_startsName {b : UInt8} {rest : Bytes} (h : startsName (b :: rest) = true) :
    opensName b = true := by
  simp only [startsName, Bool.or_eq_true, Bool.and_eq_true] at h
  simp only [opensName, Bool.or_eq_true]
  exact h.imp (fun h ↦ h.imp id fun h ↦ h.1) fun h ↦ h.1

theorem startsName_of_take {rest name after : Bytes} (h : startsName rest = true)
    (hsplit : rest.drop (nameLead rest) = name ++ after) (hname : name ≠ [])
    (hcases : NameBody name ∨ after = []) :
    startsName (rest.take (nameLead rest) ++ name) = true := by
  match rest with
  | [] => cases h
  | b :: rest =>
    by_cases hhash : b = byte '#'
    · subst hhash
      simp only [nameLead, List.head?_cons, BEq.rfl, if_true, List.drop_succ_cons,
        List.drop_zero] at hsplit
      subst hsplit
      obtain ⟨c, name, rfl⟩ := List.exists_cons_of_ne_nil hname
      exact h
    · have hlead : nameLead (b :: rest) = 0 := by simp [nameLead, hhash]
      rw [hlead, List.drop_zero] at hsplit
      rw [hlead, List.take_zero, List.nil_append]
      obtain ⟨c, name, rfl⟩ := List.exists_cons_of_ne_nil hname
      rw [List.cons_append, List.cons.injEq] at hsplit
      obtain ⟨rfl, rfl⟩ := hsplit
      rcases hcases with hbody | rfl
      · cases hbody with
        | part hpart _ =>
          -- Only the first byte counts here, as no escape starts with a part of a name.
          have hslash : (b == Quoted.backslash) = false :=
            beq_false_of_ne (by rintro rfl; cases hpart)
          simpa [startsName, hhash, hslash] using h
        | escape _ _ => rfl
        | brace _ _ => rfl
      · rwa [List.append_nil] at h

theorem nameLength_lead_pos {rest : Bytes} (h : startsName rest = true) :
    0 < nameLength 0 (rest.drop (nameLead rest)) := by
  match rest with
  | [] => cases h
  | b :: rest =>
    by_cases hhash : b = byte '#'
    · subst hhash
      have hnext : startsWhere Byte.isIdentifierStart rest = true := h
      obtain ⟨c, rest, rfl, hc⟩ := startsWhere_iff.mp hnext
      exact nameLength_pos rest (.inl hc)
    · rw [show nameLead (b :: rest) = 0 by simp [nameLead, hhash]]
      exact nameLength_pos rest (by simpa [startsName, hhash] using h)

/-- The word or the name that a text is. -/
def nameLexeme (afterDot : Bool) (text : Bytes) : Lexeme :=
  match if afterDot then none else Word.ofSpelling? text with
  | some w => .token (.word w) text text.length
  | none => .token .identifier text text.length

theorem nameLexeme_eq_token {afterDot : Bool} {text value : Bytes} {kind : TokenKind} {length : Nat}
    (h : nameLexeme afterDot text = .token kind value length) : value = text ∧
      (kind = .identifier ∨ afterDot = false ∧ ∃ w, kind = .word w ∧ text = bytes w.spelling) := by
  unfold nameLexeme at h
  split at h
  · next w hw =>
    cases h
    cases afterDot with
    | true => cases hw
    | false =>
      have hspelling : bytes w.spelling = text := by simpa using List.find?_some hw
      exact ⟨rfl, .inr ⟨rfl, w, rfl, hspelling.symm⟩⟩
  · cases h
    exact ⟨rfl, .inl rfl⟩

theorem scanName_eq (afterDot : Bool) {rest text : Bytes}
    (htext : rest.take (nameLead rest + nameLength 0 (rest.drop (nameLead rest))) = text)
    (hlength : nameLead rest + nameLength 0 (rest.drop (nameLead rest)) = text.length) :
    scanName afterDot rest = nameLexeme afterDot text := by
  unfold scanName
  dsimp only
  rw [← nameLead, htext, hlength]
  rfl

/-- A name is read again behind whatever stood in front of it, when nothing goes on with it. -/
theorem IsName.scanName_append {name after : Bytes} (h : IsName name)
    (hafter : Avoids continues after) (afterDot : Bool) :
    scanName afterDot (name ++ after) = nameLexeme afterDot name := by
  have hne := ne_nil_of_startsName h.starts
  have hlead := nameLead_le hne
  have hlength : nameLead (name ++ after) +
      nameLength 0 ((name ++ after).drop (nameLead (name ++ after))) = name.length := by
    rw [nameLead_append hne, List.drop_append_of_le_length hlead, h.body.nameLength_eq hafter,
      List.length_drop]
    omega
  exact scanName_eq afterDot (by rw [hlength, List.take_left]) hlength

/-- What a name was read from starts with it, and ends with it when it has an open escape. -/
theorem exists_scanName_eq {rest : Bytes} (hstarts : startsName rest = true) (afterDot : Bool) :
    ∃ name after, rest = name ++ after ∧ scanName afterDot rest = nameLexeme afterDot name ∧
      (IsName name ∨ after = [] ∧ OpenName name) := by
  obtain ⟨body, after, hsplit, hlength, hcases⟩ := nameReach (rest.drop (nameLead rest))
  have hlead := nameLead_le (ne_nil_of_startsName hstarts)
  have hrest : rest = (rest.take (nameLead rest) ++ body) ++ after := by
    rw [List.append_assoc, ← hsplit, List.take_append_drop]
  have hbody : body ≠ [] := by
    rintro rfl
    exact absurd hlength (Nat.ne_of_gt (nameLength_lead_pos hstarts))
  have hlead' : nameLead (rest.take (nameLead rest) ++ body) = nameLead rest := by
    rw [← nameLead_append (by simp [hbody]) after, ← hrest]
  refine ⟨rest.take (nameLead rest) ++ body, after, hrest, scanName_eq afterDot ?_ ?_, ?_⟩
  · rw [List.take_add, hlength, hsplit, List.take_left]
  · rw [hlength, List.length_append, List.length_take_of_le hlead]
  · refine hcases.imp (fun hname ↦ ⟨?_, ?_⟩) fun h ↦ ⟨h.1, h.2.append _⟩
    · exact startsName_of_take hstarts hsplit hbody (.inl hname)
    · have hdrop : (rest.take (nameLead rest) ++ body).drop
          (nameLead (rest.take (nameLead rest) ++ body)) = body := by
        rw [hlead', List.drop_append_of_le_length (by rw [List.length_take_of_le hlead]),
          List.drop_of_length_le (by rw [List.length_take_of_le hlead]), List.nil_append]
      rwa [hdrop]

/-! ## Numbers -/

/-- The bytes that the digits of a decimal number could go on with. -/
def continuesDecimal (b : UInt8) : Bool := isDigitOrSeparator 10 b || b == byte '.'

theorem decimalBody_eq_nil {tail : Bytes} (h : Avoids continuesDecimal tail) (seenDot : Bool) :
    decimalBody seenDot tail = ([], seenDot) := by
  cases tail with
  | nil => rfl
  | cons b tail =>
    have hb := h b rfl
    simp only [continuesDecimal, Bool.or_eq_false_iff] at hb
    simp [decimalBody, hb]

theorem decimalBody_ne_dot (rest : Bytes) : ∀ b ∈ (decimalBody true rest).1, b ≠ byte '.' := by
  induction rest with
  | nil => simp [decimalBody]
  | cons b rest ih =>
    simp only [decimalBody, Bool.true_or, if_true]
    split
    · simp
    · next hdot =>
      split
      · have hb : b ≠ byte '.' := by simpa using hdot
        simpa [hb] using ih
      · simp

theorem decimalBody_dot {rest : Bytes} (h : rest.head? ≠ some (byte '.')) :
    decimalBody false (byte '.' :: rest) =
      (byte '.' :: (decimalBody true rest).1, (decimalBody true rest).2) := by
  simp [decimalBody, h]

theorem decimalBody_digit {b : UInt8} (rest : Bytes) (hdot : b ≠ byte '.')
    (hdigit : isDigitOrSeparator 10 b = true) (seenDot : Bool) :
    decimalBody seenDot (b :: rest) =
      (b :: (decimalBody seenDot rest).1, (decimalBody seenDot rest).2) := by
  simp [decimalBody, hdot, hdigit]

/-- The digits of a decimal number are read again when nothing goes on with them. -/
theorem decimalBody_append (rest : Bytes) {tail : Bytes} (h : Avoids continuesDecimal tail)
    (seenDot : Bool) :
    decimalBody seenDot ((decimalBody seenDot rest).1 ++ tail) = decimalBody seenDot rest := by
  induction rest generalizing seenDot with
  | nil => exact decimalBody_eq_nil h seenDot
  | cons b rest ih =>
    by_cases hdot : b = byte '.'
    · subst hdot
      by_cases hend : (seenDot || rest.head? == some (byte '.')) = true
      · have hnil : decimalBody seenDot (byte '.' :: rest) = ([], seenDot) := by
          simp only [decimalBody, BEq.rfl, if_true, hend]
        rw [hnil]
        exact decimalBody_eq_nil h seenDot
      · obtain ⟨rfl, hrest⟩ : seenDot = false ∧ rest.head? ≠ some (byte '.') := by simpa using hend
        have hnext : ((decimalBody true rest).1 ++ tail).head? ≠ some (byte '.') := by
          cases hbody : (decimalBody true rest).1 with
          | nil =>
            intro hhead
            exact absurd (h _ hhead) (by decide)
          | cons c body =>
            intro hhead
            refine decimalBody_ne_dot rest c (by rw [hbody]; exact List.mem_cons_self) ?_
            simpa using hhead
        rw [decimalBody_dot hrest, List.cons_append, decimalBody_dot hnext, ih]
    · by_cases hdigit : isDigitOrSeparator 10 b = true
      · rw [decimalBody_digit rest hdot hdigit, List.cons_append,
          decimalBody_digit _ hdot hdigit, ih]
      · have hnil : decimalBody seenDot (b :: rest) = ([], seenDot) := by
          simp [decimalBody, hdot, hdigit]
        rw [hnil]
        exact decimalBody_eq_nil h seenDot

/-- The letters that an exponent starts with. -/
def opensExponent (b : UInt8) : Bool := b == byte 'e' || b == byte 'E'

/-- What holds of the letters that an exponent starts with. -/
@[elab_as_elim]
theorem opensExponent_elim {P : UInt8 → Prop} {b : UInt8} (h : opensExponent b = true)
    (hlower : P (byte 'e')) (hupper : P (byte 'E')) : P b := by
  rcases Bool.or_eq_true_iff.mp h with h | h <;> obtain rfl := beq_iff_eq.mp h <;> assumption

theorem continuesNumber_of_opensExponent (b : UInt8) (h : opensExponent b = true) :
    continuesNumber b = true :=
  opensExponent_elim h rfl rfl

theorem continuesDecimal_of_opensExponent (b : UInt8) (h : opensExponent b = true) :
    continuesDecimal b = false :=
  opensExponent_elim h rfl rfl

theorem exponent_eq_nil {tail : Bytes} (h : Avoids opensExponent tail) : exponent tail = [] := by
  cases tail with
  | nil => rfl
  | cons e tail =>
    have he : (e == byte 'e' || e == byte 'E') = false := h e rfl
    simp [exponent, he]

/-- The sign of an exponent. -/
def exponentSign (after : Bytes) : Bytes :=
  (after.takeWhile fun b ↦ b == byte '+' || b == byte '-').take 1

theorem exponent_cons {e : UInt8} (after : Bytes) (he : opensExponent e = true) :
    exponent (e :: after) =
      if startsWhere Byte.isDigit (after.drop (exponentSign after).length) then
        e :: exponentSign after ++
          (after.drop (exponentSign after).length).takeWhile (isDigitOrSeparator 10)
      else [] := by
  have he : (e == byte 'e' || e == byte 'E') = true := he
  simp only [exponent, he, if_true]
  rfl

theorem exponentSign_append {after digits : Bytes}
    (hdigits : startsWhere Byte.isDigit digits = true) :
    exponentSign (exponentSign after ++ digits) = exponentSign after := by
  obtain ⟨d, digits, rfl, hd⟩ := startsWhere_iff.mp hdigits
  have hsign : (d == byte '+' || d == byte '-') = false := by
    revert hd
    clear hdigits
    revert d
    exact forall_byte (by decide +kernel)
  unfold exponentSign
  cases after with
  | nil => simp [hsign]
  | cons b after =>
    by_cases hb : (b == byte '+' || b == byte '-') = true
    · simp [hb, hsign]
    · simp [hb, hsign]

/-- An exponent is read again when no digit follows it. -/
theorem exponent_append {rest tail : Bytes} (hne : exponent rest ≠ [])
    (h : Avoids (isDigitOrSeparator 10) tail) :
    startsWhere opensExponent (exponent rest) = true ∧
      exponent (exponent rest ++ tail) = exponent rest := by
  match rest with
  | [] => exact absurd rfl hne
  | e :: after =>
    by_cases he : opensExponent e = true
    · rw [exponent_cons after he] at hne ⊢
      split at hne
      · next hdigit =>
        rw [if_pos hdigit]
        refine ⟨he, ?_⟩
        generalize hdigits : (after.drop (exponentSign after).length).takeWhile
          (isDigitOrSeparator 10) = digits
        have hstarts : startsWhere Byte.isDigit (digits ++ tail) = true := by
          obtain ⟨d, more, hmore, hd⟩ := startsWhere_iff.mp hdigit
          have hseparator : isDigitOrSeparator 10 d = true := by
            simp [isDigitOrSeparator, isDigitOf, hd]
          rw [← hdigits, hmore, List.takeWhile_cons_of_pos hseparator]
          exact hd
        have hall : ∀ b ∈ digits, isDigitOrSeparator 10 b = true := by
          rw [← hdigits]
          exact fun b ↦ List.mem_takeWhile_imp
        rw [List.cons_append, List.cons_append, List.append_assoc, exponent_cons _ he,
          exponentSign_append hstarts, List.drop_left, if_pos hstarts,
          takeWhile_append_of_avoids hall h]
        rfl
      · exact absurd rfl hne
    · refine absurd (exponent_eq_nil fun b hb ↦ ?_) hne
      obtain rfl := Option.some.inj hb
      simpa using he

theorem continues_of_isIdentifierStart (b : UInt8) (h : Byte.isIdentifierStart b = true) :
    continues b = true := by
  simp [continues, Byte.isIdentifierPart, h]

theorem continuesNumber_of_continues (b : UInt8) (h : continues b = true) :
    continuesNumber b = true := by
  simp [continuesNumber, h]

theorem continuesNumber_of_continuesDecimal (b : UInt8) (h : continuesDecimal b = true) :
    continuesNumber b = true := by
  rcases Bool.or_eq_true_iff.mp h with hdigit | hdot
  · simp [continuesNumber, continues, isIdentifierPart_of_isDigitOrSeparator hdigit]
  · simp [continuesNumber, hdot]

theorem continues_of_eq_n (b : UInt8) (h : (b == byte 'n') = true) : continues b = true := by
  obtain rfl := beq_iff_eq.mp h
  rfl

theorem endNumber_eq_token {kind kind' : TokenKind} {number after value : Bytes} {length : Nat}
    (h : endNumber kind number after = .token kind' value length) :
    kind' = kind ∧ value = number := by
  unfold endNumber at h
  split at h
  · cases h
  · cases h
    exact ⟨rfl, rfl⟩

theorem endNumber_of_avoids (kind : TokenKind) (number : Bytes) {after : Bytes}
    (h : Avoids continues after) :
    endNumber kind number after = .token kind number number.length := by
  rw [endNumber, if_neg]
  rw [(h.mono continues_of_isIdentifierStart).startsWhere]
  exact Bool.false_ne_true

/-- A decimal number by its digits, its exponent and what follows them. -/
theorem scanDecimal_eq {body power tail : Bytes} {seenDot : Bool}
    (hbody : decimalBody false (body ++ power ++ tail) = (body, seenDot))
    (hpower : exponent (power ++ tail) = power) :
    scanDecimal (body ++ power ++ tail) =
      if startsWhere (· == byte 'n') tail && !seenDot && power.isEmpty then
        .token .bigint (body ++ power ++ bytes "n") ((body ++ power).length + 1)
      else endNumber .number (body ++ power) tail := by
  unfold scanDecimal
  rw [hbody]
  dsimp only
  rw [List.append_assoc, List.drop_left, hpower, ← List.append_assoc, List.drop_left]

/-- What follows the digits of a decimal number, when it is read again. -/
theorem avoids_power {power tail : Bytes} {p : UInt8 → Bool}
    (hpower : power ≠ [] → startsWhere opensExponent power = true)
    (hp : ∀ b, opensExponent b = true → p b = false) (htail : Avoids p tail) :
    Avoids p (power ++ tail) := by
  cases power with
  | nil => exact htail
  | cons e power =>
    intro b hb
    obtain rfl := Option.some.inj hb
    exact hp _ (hpower (List.cons_ne_nil _ _))

/-- Read again, the digits and the exponent of a decimal number are what they were. -/
theorem decimal_again (rest more tail : Bytes) (hdecimal : Avoids continuesDecimal tail)
    (hexponent : Avoids opensExponent tail) :
    decimalBody false ((decimalBody false rest).1 ++ exponent more ++ tail) =
        decimalBody false rest ∧
      exponent (exponent more ++ tail) = exponent more := by
  have hdigit : Avoids (isDigitOrSeparator 10) tail :=
    hdecimal.mono fun b hb ↦ by simp [continuesDecimal, hb]
  have hpower (hne : exponent more ≠ []) : startsWhere opensExponent (exponent more) = true :=
    (exponent_append hne hdigit).1
  refine ⟨?_, ?_⟩
  · rw [List.append_assoc]
    exact decimalBody_append rest
      (avoids_power hpower continuesDecimal_of_opensExponent hdecimal) false
  · by_cases hne : exponent more = []
    · rw [hne, List.nil_append]
      exact exponent_eq_nil hexponent
    · exact (exponent_append hne hdigit).2

/-- A decimal number is read again from its text. -/
theorem scanDecimal_append {rest value after : Bytes} {kind : TokenKind} {length : Nat}
    (h : scanDecimal rest = .token kind value length)
    (hafter : kind = .bigint ∨ Avoids continuesNumber after) :
    value <+: rest ∧
      (∃ more, value = (decimalBody false rest).1 ++ more ∧ (kind = .bigint → more ≠ [])) ∧
      scanDecimal (value ++ after) = .token kind value value.length := by
  obtain ⟨more, hmore⟩ := decimalBody_prefix false rest
  obtain ⟨behind, hbehind⟩ := exponent_prefix more
  have hagain := decimal_again rest more
  generalize hparts : decimalBody false rest = parts at *
  obtain ⟨body, seenDot⟩ := parts
  generalize hpower : exponent more = power at *
  subst hbehind hmore
  dsimp only at *
  rw [← List.append_assoc] at hparts h ⊢
  rw [scanDecimal_eq hparts hpower] at h
  split at h
  · next hletter =>
    obtain ⟨⟨hn, hdot⟩, hnone⟩ : (startsWhere (· == byte 'n') behind = true ∧ seenDot = false) ∧
        power = [] := by simpa using hletter
    obtain ⟨b, behind, rfl, hb⟩ := startsWhere_iff.mp hn
    obtain rfl : b = byte 'n' := by simpa using hb
    cases h
    subst hdot hnone
    obtain ⟨hbody, hexponent⟩ := hagain (byte 'n' :: after)
      (by rintro b ⟨⟩; decide) (by rintro b ⟨⟩; decide)
    refine ⟨⟨behind, by simp [bytes]⟩, ⟨bytes "n", by simp, fun _ ↦ by decide⟩, ?_⟩
    have hscan := scanDecimal_eq hbody hexponent
    rw [if_pos (by rfl)] at hscan
    simpa [bytes] using hscan
  · obtain ⟨rfl, rfl⟩ := endNumber_eq_token h
    have hafter : Avoids continuesNumber after := hafter.resolve_left (by rintro ⟨⟩)
    have hends : Avoids continues after := hafter.mono continuesNumber_of_continues
    obtain ⟨hbody, hexponent⟩ := hagain after (hafter.mono continuesNumber_of_continuesDecimal)
      (hafter.mono continuesNumber_of_opensExponent)
    refine ⟨⟨behind, rfl⟩, ⟨power, rfl, by rintro ⟨⟩⟩, ?_⟩
    rw [scanDecimal_eq hbody hexponent, if_neg, endNumber_of_avoids _ _ hends]
    rw [(hends.mono continues_of_eq_n).startsWhere]
    exact Bool.false_ne_true

theorem isDigitOf_n (base : Nat) : isDigitOrSeparator base (byte 'n') = false := by
  cases h : isDigitOrSeparator base (byte 'n') with
  | false => rfl
  | true =>
    simp only [isDigitOrSeparator, Bool.or_eq_true] at h
    rcases h with h | h
    · exact absurd (isHexDigit_of_isDigitOf h) (by decide)
    · cases h

/-- A number with a base letter by its digits and what follows them. -/
theorem scanBased_eq {base : Nat} {digits tail : Bytes} (lead : Bytes)
    (hdigits : startsWhere (isDigitOf base) digits = true)
    (hall : ∀ b ∈ digits, isDigitOrSeparator base b = true)
    (htail : Avoids (isDigitOrSeparator base) tail) :
    scanBased base lead (digits ++ tail) =
      if startsWhere (· == byte 'n') tail then
        .token .bigint (lead ++ digits ++ bytes "n") ((lead ++ digits).length + 1)
      else endNumber .number (lead ++ digits) tail := by
  obtain ⟨d, digits, rfl, hd⟩ := startsWhere_iff.mp hdigits
  have hstarts : startsWhere (isDigitOf base) (d :: digits ++ tail) = true := hd
  unfold scanBased
  rw [if_pos hstarts]
  dsimp only
  rw [takeWhile_append_of_avoids hall htail, dropWhile_append_of_avoids hall htail]

/-- A number with a base letter is read again from its text. -/
theorem scanBased_append {base : Nat} {lead rest value : Bytes} {kind : TokenKind} {length : Nat}
    (h : scanBased base lead rest = .token kind value length) :
    ∃ more, value = lead ++ more ∧ ∀ after, kind = .bigint ∨ Avoids continues after →
      scanBased base lead (more ++ after) = .token kind value value.length := by
  unfold scanBased at h
  split at h
  · next hdigit =>
    have hall : ∀ b ∈ rest.takeWhile (isDigitOrSeparator base), isDigitOrSeparator base b = true :=
      fun b ↦ List.mem_takeWhile_imp
    have hstarts :
        startsWhere (isDigitOf base) (rest.takeWhile (isDigitOrSeparator base)) = true := by
      obtain ⟨d, more, rfl, hd⟩ := startsWhere_iff.mp hdigit
      rw [List.takeWhile_cons_of_pos (by simp [isDigitOrSeparator, hd])]
      exact hd
    dsimp only at h
    generalize rest.takeWhile (isDigitOrSeparator base) = digits at *
    split at h
    · cases h
      refine ⟨digits ++ bytes "n", by rw [List.append_assoc], fun after _ ↦ ?_⟩
      have hn : Avoids (isDigitOrSeparator base) (byte 'n' :: after) := by
        rintro b ⟨⟩
        exact isDigitOf_n base
      have hscan := scanBased_eq lead hstarts hall hn
      rw [if_pos (by rfl)] at hscan
      simpa [bytes, Nat.add_assoc] using hscan
    · obtain ⟨rfl, rfl⟩ := endNumber_eq_token h
      refine ⟨digits, rfl, fun after hafter ↦ ?_⟩
      have hafter : Avoids continues after := hafter.resolve_left (by rintro ⟨⟩)
      have hdigits : Avoids (isDigitOrSeparator base) after :=
        hafter.mono fun b hb ↦ by simp [continues, isIdentifierPart_of_isDigitOrSeparator hb]
      rw [scanBased_eq lead hstarts hall hdigits, if_neg, endNumber_of_avoids _ _ hafter]
      rw [(hafter.mono continues_of_eq_n).startsWhere]
      exact Bool.false_ne_true
  · cases h

/-- The base of a number with a base letter. -/
def baseAhead : Bytes → Option Nat
  | zero :: letter :: _ => if zero == byte '0' then baseOf letter else none
  | _ => none

theorem scanNumber_decimal {rest : Bytes} (h : baseAhead rest = none) :
    scanNumber rest = scanDecimal rest := by
  match rest with
  | [] => rfl
  | [b] => rfl
  | zero :: letter :: digits =>
    have h : (if zero == byte '0' then baseOf letter else none) = none := h
    simp only [scanNumber, h]

theorem baseOf_of_not_continues (b : UInt8) : continues b = false → baseOf b = none := by
  revert b
  exact forall_byte (by decide +kernel)

/-- A decimal number has no base letter either when something follows that cannot go on with it. -/
theorem baseAhead_append {value behind after : Bytes} (hne : value ≠ [])
    (h : baseAhead (value ++ behind) = none)
    (hafter : 1 < value.length ∨ Avoids continues after) :
    baseAhead (value ++ after) = none := by
  match value with
  | [] => exact absurd rfl hne
  | [b] =>
    cases after with
    | nil => rfl
    | cons c after =>
      have hc := hafter.resolve_left (Nat.lt_irrefl 1) c rfl
      simp [baseAhead, baseOf_of_not_continues c hc]
  | b :: c :: value => exact h

theorem startsNumber_append {front : Bytes} (h : Scan.startsNumber front = true) (after : Bytes) :
    Scan.startsNumber (front ++ after) = true := by
  match front with
  | [] => cases h
  | [b] =>
    have hb : Byte.isDigit b = true := by simpa [Scan.startsNumber, startsWhere] using h
    simp [Scan.startsNumber, hb]
  | b :: c :: front => exact h

/-- The digits of a number are enough to tell that it is one. -/
theorem startsNumber_decimalBody {rest : Bytes} (h : Scan.startsNumber rest = true) :
    Scan.startsNumber (decimalBody false rest).1 = true := by
  match rest with
  | [] => cases h
  | b :: rest =>
    by_cases hdot : b = byte '.'
    · subst hdot
      have hdigit : startsWhere Byte.isDigit rest = true := h
      obtain ⟨d, rest, rfl, hd⟩ := startsWhere_iff.mp hdigit
      have hne : d ≠ byte '.' := by
        rintro rfl
        cases hd
      rw [decimalBody_dot (by simpa using hne),
        decimalBody_digit rest hne (by simp [isDigitOrSeparator, isDigitOf, hd])]
      exact hd
    · have hb : Byte.isDigit b = true := by simpa [Scan.startsNumber, hdot] using h
      rw [decimalBody_digit rest hdot (by simp [isDigitOrSeparator, isDigitOf, hb])]
      simp [Scan.startsNumber, hb]

/-- A number is read again from its text, when nothing goes on with it; nothing goes on with a big
integer. -/
theorem scanNumber_append {rest value after : Bytes} {kind : TokenKind} {length : Nat}
    (hstarts : Scan.startsNumber rest = true) (h : scanNumber rest = .token kind value length)
    (hafter : kind = .bigint ∨ Avoids continuesNumber after) :
    Scan.startsNumber (value ++ after) = true ∧
      scanNumber (value ++ after) = .token kind value value.length := by
  cases hbase : baseAhead rest with
  | none =>
    rw [scanNumber_decimal hbase] at h
    obtain ⟨⟨behind, rfl⟩, ⟨more, hmore, hletter⟩, hscan⟩ := scanDecimal_append h hafter
    have hbody := startsNumber_decimalBody hstarts
    have hvalue : Scan.startsNumber value = true := by
      rw [hmore]
      exact startsNumber_append hbody more
    have hne : value ≠ [] := by
      rintro rfl
      cases hvalue
    refine ⟨startsNumber_append hvalue after, ?_⟩
    rw [scanNumber_decimal (baseAhead_append hne hbase ?_), hscan]
    refine hafter.imp (fun hkind ↦ ?_) (·.mono continuesNumber_of_continues)
    have hfront := List.length_pos_iff.mpr (decimalBody_ne_nil hstarts)
    have hback := List.length_pos_iff.mpr (hletter hkind)
    rw [hmore, List.length_append]
    omega
  | some base =>
    obtain ⟨zero, letter, digits, rfl⟩ : ∃ zero letter digits, rest = zero :: letter :: digits := by
      match rest with
      | [] | [_] => cases hbase
      | zero :: letter :: digits => exact ⟨zero, letter, digits, rfl⟩
    have hbase' : (if zero == byte '0' then baseOf letter else none) = some base := hbase
    simp only [scanNumber, hbase'] at h
    obtain ⟨more, rfl, hscan⟩ := scanBased_append h
    simp only [List.cons_append, List.nil_append, scanNumber, hbase']
    exact ⟨hstarts, hscan after (hafter.imp id (·.mono continuesNumber_of_continues))⟩

/-! ## Strings -/

theorem stringBody_skip (quote : UInt8) (front tail value : Bytes) (length : Nat) :
    stringBody quote front.length value length (front ++ tail) =
      stringBody quote 0 value (length + front.length) tail := by
  induction front generalizing length with
  | nil => rfl
  | cons b front ih =>
    rw [List.length_cons, List.cons_append, stringBody, ih, Nat.add_assoc, Nat.add_comm 1]

/-- An escape is read as the text that it stands for. -/
theorem stringBody_escape {quote : UInt8} (hquote : quote ≠ Quoted.backslash)
    (front tail value text : Bytes) (length : Nat)
    (h : readEscape (front ++ tail) = .value text front.length) :
    stringBody quote 0 value length (Quoted.backslash :: (front ++ tail)) =
      stringBody quote 0 (value ++ text) (length + (front.length + 1)) tail := by
  have hslash : (Quoted.backslash == quote) = false := beq_false_of_ne hquote.symm
  have hline : (Quoted.backslash == 10) = false := rfl
  rw [stringBody, hslash, hline]
  simp only [Bool.false_eq_true, if_false, BEq.rfl, if_true, h]
  rw [stringBody_skip, Nat.add_assoc, Nat.add_comm 1]

theorem readEscape_hex (b : UInt8) (hb : b < 0x20) (tail : Bytes) :
    readEscape (byte 'x' :: Byte.hexDigit (b.toNat / 16) :: Byte.hexDigit (b.toNat % 16) :: tail) =
      .value [b] 3 := by
  obtain ⟨hfirst, hsecond, hvalue, hencode⟩ := Quoted.hexDigits_of_lt hb
  change hexEscape _ = _
  simp [hexEscape, hfirst, hsecond, hvalue, hencode]

/-- A byte is read again from the way in which it is escaped. -/
theorem stringBody_escapeByte {quote : UInt8} (hquote : quote ∈ Quoted.stringQuotes) (b : UInt8)
    (tail value : Bytes) (length : Nat) :
    stringBody quote 0 value length (Quoted.escapeByte quote b ++ tail) =
      stringBody quote 0 (value ++ [b]) (length + (Quoted.escapeByte quote b).length) tail := by
  obtain ⟨hslash, hread⟩ :
      quote ≠ Quoted.backslash ∧ readEscape (quote :: tail) = .value [quote] 1 := by
    simp only [Quoted.stringQuotes, List.mem_cons, List.not_mem_nil, or_false] at hquote
    rcases hquote with rfl | rfl <;> exact ⟨by decide, rfl⟩
  have hescape (front : Bytes) {text : Bytes}
      (h : readEscape (front ++ tail) = .value text front.length) :=
    stringBody_escape hslash front tail value text length h
  unfold Quoted.escapeByte
  split
  · next hb =>
    obtain rfl := by simpa using hb
    exact hescape [Quoted.backslash] rfl
  split
  · next hb =>
    obtain rfl := by simpa using hb
    exact hescape [byte 'n'] rfl
  split
  · next hb =>
    obtain rfl := by simpa using hb
    exact hescape [byte 'r'] rfl
  split
  · next hb =>
    obtain rfl := by simpa using hb
    exact hescape [byte 't'] rfl
  split
  · next hb =>
    obtain rfl := by simpa using hb
    exact hescape [b] hread
  split
  · next hb => exact hescape [byte 'x', _, _] (readEscape_hex b hb tail)
  · next hslash hline _ _ hquote _ => simp [stringBody, hslash, hline, hquote]

/-- A string is read again from the way in which it is quoted. -/
theorem scanString_quoteWith {quote : UInt8} (hquote : quote ∈ Quoted.stringQuotes)
    (value after : Bytes) :
    scanString (Quoted.quoteWith quote value ++ after) =
      .token .string value (Quoted.quoteWith quote value).length := by
  have hbody : ∀ text front length,
      stringBody quote 0 front length (Quoted.escape quote text ++ quote :: after) =
      .token .string (front ++ text) (length + (Quoted.escape quote text).length + 1) := by
    intro text
    induction text with
    | nil =>
      intro front length
      simp [Quoted.escape, stringBody]
    | cons b text ih =>
      intro front length
      rw [Quoted.escape, List.flatMap_cons, List.append_assoc, stringBody_escapeByte hquote,
        ← Quoted.escape, ih]
      simp [Nat.add_assoc]
  have hquoted : Quoted.quoteWith quote value ++ after =
      quote :: (Quoted.escape quote value ++ quote :: after) := by
    simp [Quoted.quoteWith]
  rw [hquoted, scanString, hbody]
  simp [Quoted.quoteWith]
  omega

end Literal

end SignalView
