import SignalView.Text.Quoted

/-!
# Brackets of a text

A text is read byte by byte with the brackets that are open. Brackets stand for nothing inside of
strings and templates, apart from the substitutions of templates, and the `>` of an arrow closes
nothing. A text is bracketed when every bracket is closed by one of its kind, in the right order.
-/

namespace SignalView

/-- What is open at a place of a text. -/
inductive Bracket where
  | paren | square | curly | angle | substitution
  deriving DecidableEq, Repr

namespace Bracket

/-- The bracket that a byte opens. -/
def opened? (b : UInt8) : Option Bracket :=
  if b == byte '(' then some .paren
  else if b == byte '[' then some .square
  else if b == Quoted.openBrace then some .curly
  else if b == byte '<' then some .angle
  else none

/-- The bracket that a byte closes. -/
def closed? (b : UInt8) : Option Bracket :=
  if b == byte ')' then some .paren
  else if b == byte ']' then some .square
  else if b == Quoted.closeBrace then some .curly
  else if b == byte '>' then some .angle
  else none

/-- What a place of a text lies in: code, possibly behind an equals sign; a string, possibly behind
a backslash; or a template, possibly behind a dollar sign or a backslash. -/
inductive Mode where
  | code | equals
  | quoted (quote : UInt8) | escaped (quote : UInt8)
  | template | dollar | guarded
  deriving DecidableEq, Repr

/-- The state of a reading; the innermost of the open brackets comes first. -/
structure State where
  mode : Mode := .code
  pending : List Bracket := []
  deriving DecidableEq, Repr

/-- Closes the innermost bracket, which must be of a kind. A brace may end a substitution. -/
def close (bracket : Bracket) : List Bracket → Option State
  | [] => none
  | innermost :: outer =>
    if innermost == bracket then some ⟨.code, outer⟩
    else if innermost == .substitution && bracket == .curly then some ⟨.template, outer⟩
    else none

def stepCode (pending : List Bracket) (b : UInt8) : Option State :=
  if b == Quoted.singleQuote || b == Quoted.doubleQuote then some ⟨.quoted b, pending⟩
  else if b == Quoted.backtick then some ⟨.template, pending⟩
  else if b == byte '=' then some ⟨.equals, pending⟩
  else
    match opened? b, closed? b with
    | some bracket, _ => some ⟨.code, bracket :: pending⟩
    | none, some bracket => close bracket pending
    | none, none => some ⟨.code, pending⟩

def stepTemplate (pending : List Bracket) (b : UInt8) : State :=
  if b == Quoted.backtick then ⟨.code, pending⟩
  else if b == Quoted.backslash then ⟨.guarded, pending⟩
  else if b == byte '$' then ⟨.dollar, pending⟩
  else ⟨.template, pending⟩

def step (state : State) (b : UInt8) : Option State :=
  match state.mode with
  | .code => stepCode state.pending b
  | .equals => if b == byte '>' then some ⟨.code, state.pending⟩ else stepCode state.pending b
  | .quoted quote =>
    if b == Quoted.backslash then some ⟨.escaped quote, state.pending⟩
    else if b == quote then some ⟨.code, state.pending⟩
    else some state
  | .escaped quote => some ⟨.quoted quote, state.pending⟩
  | .template => some (stepTemplate state.pending b)
  | .dollar =>
    if b == Quoted.openBrace then some ⟨.code, .substitution :: state.pending⟩
    else some (stepTemplate state.pending b)
  | .guarded => some ⟨.template, state.pending⟩

/-- Reads a text; there is no state behind a bracket that closes nothing or another kind. -/
def read (state : State) (text : Bytes) : Option State := text.foldlM step state

@[simp]
theorem read_nil (state : State) : read state [] = some state := rfl

theorem read_cons (state : State) (b : UInt8) (text : Bytes) :
    read state (b :: text) = (step state b).bind (read · text) := List.foldlM_cons

theorem read_append (state : State) (front back : Bytes) :
    read state (front ++ back) = (read state front).bind (read · back) := List.foldlM_append

theorem read_append_of {state middle : State} {front : Bytes} (h : read state front = some middle)
    (back : Bytes) : read state (front ++ back) = read middle back := by
  rw [read_append, h, Option.bind_some]

/-! ## What is open below -/

/-- The state with further brackets open around everything. -/
def State.within (state : State) (outer : List Bracket) : State :=
  ⟨state.mode, state.pending ++ outer⟩

theorem close_within {bracket : Bracket} {pending : List Bracket} {next : State}
    (h : close bracket pending = some next) (outer : List Bracket) :
    close bracket (pending ++ outer) = some (next.within outer) := by
  cases pending with
  | nil => cases h
  | cons innermost pending =>
    rw [List.cons_append, close]
    rw [close] at h
    split at h
    · next hsame =>
      cases h
      rw [if_pos hsame]
      rfl
    · next hother =>
      rw [if_neg hother]
      split at h
      · next hsubstitution =>
        cases h
        rw [if_pos hsubstitution]
        rfl
      · cases h

theorem stepCode_within {pending : List Bracket} {b : UInt8} {next : State}
    (h : stepCode pending b = some next) (outer : List Bracket) :
    stepCode (pending ++ outer) b = some (next.within outer) := by
  unfold stepCode at h ⊢
  split at h
  · next hquote =>
    cases h
    rw [if_pos hquote]
    rfl
  next hquote =>
  rw [if_neg hquote]
  split at h
  · next hbacktick =>
    cases h
    rw [if_pos hbacktick]
    rfl
  next hbacktick =>
  rw [if_neg hbacktick]
  split at h
  · next hequals =>
    cases h
    rw [if_pos hequals]
    rfl
  next hequals =>
  rw [if_neg hequals]
  split at h
  · cases h
    rfl
  · exact close_within h outer
  · cases h
    rfl

theorem stepTemplate_within (pending : List Bracket) (b : UInt8) (outer : List Bracket) :
    stepTemplate (pending ++ outer) b = (stepTemplate pending b).within outer := by
  unfold stepTemplate
  split
  · rfl
  split
  · rfl
  split <;> rfl

theorem step_within {state next : State} {b : UInt8} (h : step state b = some next)
    (outer : List Bracket) : step (state.within outer) b = some (next.within outer) := by
  obtain ⟨mode, pending⟩ := state
  cases mode with
  | code => exact stepCode_within h outer
  | escaped _ | guarded =>
    cases h
    rfl
  | template =>
    cases h
    exact congrArg some (stepTemplate_within pending b outer)
  | equals =>
    simp only [step, State.within] at h ⊢
    split at h
    · next harrow =>
      cases h
      rw [if_pos harrow]
    · next harrow =>
      rw [if_neg harrow]
      exact stepCode_within h outer
  | quoted quote =>
    simp only [step, State.within] at h ⊢
    split at h
    · next hescape =>
      cases h
      rw [if_pos hescape]
    next hescape =>
    rw [if_neg hescape]
    split at h
    · next hquote =>
      cases h
      rw [if_pos hquote]
    · next hquote =>
      cases h
      rw [if_neg hquote]
  | dollar =>
    simp only [step, State.within] at h ⊢
    split at h
    · next hopen =>
      cases h
      rw [if_pos hopen]
      rfl
    · next hopen =>
      cases h
      rw [if_neg hopen]
      exact congrArg some (stepTemplate_within pending b outer)

/-- What is open around a text plays no part in reading it. -/
theorem read_within {state next : State} {text : Bytes} (h : read state text = some next)
    (outer : List Bracket) : read (state.within outer) text = some (next.within outer) := by
  induction text generalizing state with
  | nil =>
    cases h
    rfl
  | cons b text ih =>
    rw [read_cons] at h ⊢
    obtain ⟨middle, hstep, hread⟩ := Option.bind_eq_some_iff.mp h
    rw [step_within hstep, Option.bind_some]
    exact ih hread

end Bracket

/-! ## Bracketed texts -/

open Bracket

/-- Every bracket of a text is closed by one of its kind, and it ends in code. -/
def IsBracketed (text : Bytes) : Prop := read {} text = some {}

instance (text : Bytes) : Decidable (IsBracketed text) := inferInstanceAs (Decidable (_ = _))

namespace IsBracketed

variable {text front back : Bytes}

theorem read_eq (h : IsBracketed text) (pending : List Bracket) :
    read ⟨.code, pending⟩ text = some ⟨.code, pending⟩ := read_within h pending

theorem nil : IsBracketed [] := rfl

theorem append (hfront : IsBracketed front) (hback : IsBracketed back) :
    IsBracketed (front ++ back) := by
  rw [IsBracketed, read_append_of hfront]
  exact hback

/-- A bracketed text between an opening and a closing part. -/
theorem between {bracket : Bracket} (h : IsBracketed text)
    (hfront : read {} front = some ⟨.code, [bracket]⟩)
    (hback : read ⟨.code, [bracket]⟩ back = some {}) : IsBracketed (front ++ text ++ back) := by
  rw [IsBracketed, List.append_assoc, read_append_of hfront, read_append_of (h.read_eq _)]
  exact hback

/-- Bytes that change nothing in code make a bracketed text. -/
theorem of_forall (h : ∀ b ∈ text, stepCode [] b = some {}) : IsBracketed text := by
  induction text with
  | nil => exact nil
  | cons b text ih =>
    obtain ⟨hb, htext⟩ := List.forall_mem_cons.mp h
    rw [IsBracketed, read_cons, show step {} b = some {} from hb]
    exact ih htext

end IsBracketed

/-! ## Strings -/

theorem Bracket.read_escapeByte (b : UInt8) :
    read ⟨.quoted Quoted.singleQuote, []⟩ (Quoted.escapeByte Quoted.singleQuote b) =
      some ⟨.quoted Quoted.singleQuote, []⟩ := by
  have h : ∀ n : Fin 256, read ⟨.quoted Quoted.singleQuote, []⟩
      (Quoted.escapeByte Quoted.singleQuote (UInt8.ofFin n)) =
        some ⟨.quoted Quoted.singleQuote, []⟩ := by decide +kernel
  exact h b.toFin

theorem Bracket.read_escape (value : Bytes) :
    read ⟨.quoted Quoted.singleQuote, []⟩ (Quoted.escape Quoted.singleQuote value) =
      some ⟨.quoted Quoted.singleQuote, []⟩ := by
  induction value with
  | nil => rfl
  | cons b value ih =>
    rw [Quoted.escape, List.flatMap_cons, read_append_of (read_escapeByte b)]
    exact ih

/-- A string as it is written in the output. -/
theorem IsBracketed.quoted (value : Bytes) : IsBracketed (Quoted.quoted value) := by
  rw [IsBracketed, Quoted.quoted, Quoted.quoteWith, List.cons_append, read_cons]
  change read ⟨.quoted Quoted.singleQuote, []⟩ _ = _
  rw [read_append_of (Bracket.read_escape value)]
  rfl

/-! ## Templates -/

namespace Bracket

/-- Behind a text a template is open, and nothing else. -/
def OpensTemplate (state : State) (text : Bytes) : Prop :=
  read state text = some ⟨.template, []⟩ ∨ read state text = some ⟨.dollar, []⟩

/-- The raw text of a template up to its end or to a substitution. -/
def IsRaw (raw : Bytes) : Prop := OpensTemplate ⟨.template, []⟩ raw

variable {raw text hole : Bytes}

theorem IsRaw.open (h : IsRaw raw) : OpensTemplate {} (bytes "`" ++ raw) := h

/-- A substitution and the raw text behind it. -/
theorem OpensTemplate.substitution (h : OpensTemplate {} text) (hhole : IsBracketed hole)
    (hraw : IsRaw raw) :
    OpensTemplate {} (text ++ bytes "$\x7b" ++ hole ++ bytes "\x7d" ++ raw) := by
  have hopen : read {} (text ++ bytes "$\x7b") = some ⟨.code, [.substitution]⟩ := by
    rw [read_append]
    rcases h with h | h <;> rw [h] <;> rfl
  have hclosed : read {} (text ++ bytes "$\x7b" ++ hole ++ bytes "\x7d") =
      some ⟨.template, []⟩ := by
    rw [List.append_assoc, read_append_of hopen, read_append_of (hhole.read_eq _)]
    rfl
  rw [OpensTemplate, read_append_of hclosed]
  exact hraw

/-- The backtick at the end of a template. -/
theorem OpensTemplate.closed (h : OpensTemplate {} text) : IsBracketed (text ++ bytes "`") := by
  rw [IsBracketed, read_append]
  rcases h with h | h <;> rw [h] <;> rfl

end Bracket

/-! ## Texts with pieces -/

/-- A text is good, unless one of the pieces that stand in it is not bracketed. -/
def GoodUpTo (pieces good : Bytes → Prop) (text : Bytes) : Prop :=
  good text ∨ ∃ piece, pieces piece ∧ ¬ IsBracketed piece ∧ piece <:+: text

/-- What stands in a part stands in the whole. -/
theorem GoodUpTo.of_inner {pieces good good' : Bytes → Prop} {text whole : Bytes}
    (h : GoodUpTo pieces good text) (hwhole : good text → GoodUpTo pieces good' whole)
    (hwithin : text <:+: whole) : GoodUpTo pieces good' whole := by
  rcases h with h | ⟨piece, hpiece, hnot, hin⟩
  · exact hwhole h
  · exact .inr ⟨piece, hpiece, hnot, hin.trans hwithin⟩

/-- A text is bracketed, unless one of the pieces that stand in it is not. -/
abbrev BracketedUpTo (pieces : Bytes → Prop) : Bytes → Prop := GoodUpTo pieces IsBracketed

theorem IsBracketed.upTo {pieces : Bytes → Prop} {text : Bytes} (h : IsBracketed text) :
    BracketedUpTo pieces text := .inl h

namespace BracketedUpTo

variable {pieces : Bytes → Prop} {text front back : Bytes}

theorem of_piece (h : pieces text) : BracketedUpTo pieces text := by
  by_cases htext : IsBracketed text
  · exact .inl htext
  · exact .inr ⟨text, h, htext, List.infix_rfl⟩

theorem append (hfront : BracketedUpTo pieces front) (hback : BracketedUpTo pieces back) :
    BracketedUpTo pieces (front ++ back) := by
  refine hfront.of_inner (fun hfront ↦ ?_) (List.prefix_append front back).isInfix
  refine hback.of_inner (fun hback ↦ ?_) (List.suffix_append front back).isInfix
  exact .inl (hfront.append hback)

theorem followed (h : BracketedUpTo pieces text) (hback : IsBracketed back) :
    BracketedUpTo pieces (text ++ back) :=
  h.append hback.upTo

theorem behind (h : BracketedUpTo pieces text) (hfront : IsBracketed front) :
    BracketedUpTo pieces (front ++ text) :=
  hfront.upTo.append h

/-- A text between an opening and a closing part. -/
theorem between {bracket : Bracket} (h : BracketedUpTo pieces text)
    (hfront : read {} front = some ⟨.code, [bracket]⟩)
    (hback : read ⟨.code, [bracket]⟩ back = some {}) :
    BracketedUpTo pieces (front ++ text ++ back) :=
  h.of_inner (fun h ↦ .inl (h.between hfront hback)) (List.infix_append front text back)

theorem join {separator : Bytes} {parts : List Bytes} (hseparator : IsBracketed separator)
    (hparts : ∀ part ∈ parts, BracketedUpTo pieces part) :
    BracketedUpTo pieces (Bytes.join separator parts) := by
  unfold Bytes.join
  induction parts with
  | nil => exact IsBracketed.nil.upTo
  | cons part parts ih =>
    obtain ⟨hpart, hparts⟩ := List.forall_mem_cons.mp hparts
    cases parts with
    | nil => simpa using hpart
    | cons next parts =>
      rw [List.intercalate_cons_cons]
      exact (hpart.append hseparator.upTo).append (ih hparts)

theorem flatten {parts : List Bytes} (hparts : ∀ part ∈ parts, BracketedUpTo pieces part) :
    BracketedUpTo pieces parts.flatten := by
  induction parts with
  | nil => exact IsBracketed.nil.upTo
  | cons part parts ih =>
    obtain ⟨hpart, hparts⟩ := List.forall_mem_cons.mp hparts
    exact hpart.append (ih hparts)

end BracketedUpTo

end SignalView
