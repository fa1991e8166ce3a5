import SignalView.Proofs.Grammar.Attempts

/-!
# Readings end

Nothing that is read goes round in a circle. A construct that reads another one has moved on before
that, or the other one stands lower in the grammar, so that the number of tokens alone bounds how
deep constructs are nested and how often loops are run. A turn of a loop and going on after a
failure move on as well, and a strict reading that gives a program has come to the end.
-/

namespace SignalView

open Parse

/-! ## Entry points -/

/-- The constructs that others are built from. -/
inductive Entry where
  | statement | assignment | binary (least : Nat) | unary | primary | construction | element
  | bindingTarget | type | typeOperator

namespace Entry

/-- How high a construct stands in the grammar: it is at the front of those that are higher. -/
def rank : Entry → Nat
  | .statement => 7
  | .assignment => 6
  | .binary _ => 5
  | .unary => 4
  | .primary | .type => 3
  | .construction | .element | .bindingTarget | .typeOperator => 2

/-- The construct, built from the entry points of a grammar. -/
def step (g : Grammar) : Entry → Parse Unit
  | .statement => discard g.statementStep
  | .assignment => discard g.assignmentStep
  | .binary least => discard (g.binaryStep least)
  | .unary => discard g.unaryStep
  | .primary => discard g.primaryStep
  | .construction => discard g.constructionStep
  | .element => discard g.elementStep
  | .bindingTarget => discard g.bindingTargetStep
  | .type => discard g.typeStep
  | .typeOperator => discard g.typeOperatorStep

end Entry

/-- The action, which is exhausted outside of some places. -/
def Parse.onlyAt {α : Type} (allowed : Nat → Bool) (action : Parse α) : Parse α :=
  fun context cursor ↦
    if allowed cursor.before.length then action context cursor
    else .failed exhausted cursor

/-- The grammar with entry points that can only be called at some places each. -/
def Grammar.onlyAt (allowed : Entry → Nat → Bool) (g : Grammar) : Grammar where
  rounds := g.rounds
  statement := g.statement.onlyAt (allowed .statement)
  assignment := g.assignment.onlyAt (allowed .assignment)
  binary least := (g.binary least).onlyAt (allowed (.binary least))
  unary := g.unary.onlyAt (allowed .unary)
  construction := g.construction.onlyAt (allowed .construction)
  primary := g.primary.onlyAt (allowed .primary)
  element := g.element.onlyAt (allowed .element)
  bindingTarget := g.bindingTarget.onlyAt (allowed .bindingTarget)
  type := g.type.onlyAt (allowed .type)
  typeOperator := g.typeOperator.onlyAt (allowed .typeOperator)

/-- The calls that a construct may make: behind the place that it starts at, and there only of
constructs that stand lower. -/
def Entry.mayCall (entry : Entry) (p : Nat) (other : Entry) (q : Nat) : Bool :=
  p < q || q == p && other.rank < entry.rank

/-! ## Loops -/

/-- What the loops of a grammar repeat. -/
inductive Grammar.Turn (g : Grammar) : Parse Unit → Prop
  | statement : Turn g (discard g.statement)
  | switchCase (hasDefault : Bool) : Turn g (discard (g.switchCase hasDefault))
  | classMember : Turn g (discard g.classMember)
  | param : Turn g (discard g.param)
  | argument : Turn g (discard (Grammar.spreadOr g.assignment g.assignment))
  | literalProperty : Turn g (discard g.literalProperty)
  | patternProperty : Turn g (discard g.patternProperty)
  | markupAttribute : Turn g (discard g.markupAttribute)
  | child : Turn g (discard g.child)
  | typeMember : Turn g (discard g.typeMember)
  | decorator : Turn g (discard g.leftHandSide)
  | declarator (place : Grammar.VariablePlace) (keyword : Bytes) :
    Turn g (discard (g.declarator place keyword))
  | enumMember : Turn g (discard g.enumMember)
  | importSpecifier : Turn g (discard Grammar.importSpecifier)
  | exportSpecifier : Turn g (discard Grammar.exportSpecifier)
  | typeParameter : Turn g (discard g.typeParameter)
  | typeArgument : Turn g (discard g.type)
  | tupleElement : Turn g (discard g.tupleElement)

namespace Tape

variable {α : Type} {tape : Tape} {o p level : Nat} {action : Parse α} {K : α → Prop}

/-! ## Moving on -/

/-- From a place the action moves on, or it fails for a reason that lies in the program. -/
def Moves (tape : Tape) (p : Nat) (action : Parse α) : Prop :=
  ∀ context, context.final = tape.final →
    (∃ value q, p < q ∧ q ≤ tape.size ∧
      action context (tape.cursor p) = .ok value (tape.cursor q)) ∨
    ∃ failure q, p ≤ q ∧ q ≤ tape.size ∧ failure.code ≠ exhausted.code ∧
      action context (tape.cursor p) = .failed failure (tape.cursor q)

theorem Passes.moves (h : tape.Passes p p action K) (hp : p ≤ tape.size) :
    tape.Moves p (discard action) := by
  intro context hfinal
  have hbeside : tape.Beside context context := ⟨hfinal, hfinal, Int.le_refl _, rfl, rfl⟩
  obtain ⟨value, q, hrun, -, -, hq, _, hpq, -⟩ | ⟨failure, q, hrun, hpq, hq, hcode, -⟩ :=
    h.discard (Nat.le_refl p) hp hbeside
  · exact .inl ⟨value, q, hpq, hq, hrun⟩
  · exact .inr ⟨failure, q, hpq, hq, hcode, hrun⟩

theorem Reads.onlyAt {allowed : Nat → Bool} {Q : α → Nat → Prop}
    (h : p ≤ tape.size → allowed p = true ∧ tape.Reads o p action Q) :
    tape.Reads o p (action.onlyAt allowed) Q := by
  intro ho hp context deeper hbeside
  obtain ⟨hallowed, haction⟩ := h hp
  have hlength : (tape.cursor p).before.length = p := by
    rw [cursor, List.length_reverse, List.length_take_of_le hp]
  have hrun (context : ParseContext) :
      action.onlyAt allowed context (tape.cursor p) = action context (tape.cursor p) := by
    rw [Parse.onlyAt, hlength, if_pos hallowed]
  rw [hrun, hrun]
  exact haction ho hp hbeside

/-- The calls that a construct may make are enough for all that it needs. -/
theorem Serves.onlyAt {g : Grammar} {entry : Entry} (h : tape.Serves g level) (hp : p ≤ tape.size)
    (hlevel : 12 * (tape.size - p) + entry.rank ≤ level + 1) :
    tape.Serves (g.onlyAt (entry.mayCall p)) (12 * (tape.size - p) + entry.rank - 1) := by
  have hallowed {other : Entry} {q : Nat} (hq : q ≤ tape.size)
      (h : 12 * (tape.size - q) + other.rank ≤ 12 * (tape.size - p) + entry.rank - 1) :
      entry.mayCall p other q = true := by
    have hrank : entry.rank ≤ 7 := by cases entry <;> simp [Entry.rank]
    have hother : 0 < other.rank := by cases other <;> simp [Entry.rank]
    simp only [Entry.mayCall, Bool.or_eq_true, Bool.and_eq_true, decide_eq_true_eq, beq_iff_eq]
    omega
  have hrounds := h.rounds
  exact {
    rounds := by change _ ≤ g.rounds; omega
    statement := fun hq ↦ .onlyAt fun hsize ↦ ⟨hallowed hsize hq, h.statement (by omega)⟩
    assignment := fun hq ↦ .onlyAt fun hsize ↦ ⟨hallowed hsize hq, h.assignment (by omega)⟩
    binary := fun hq least ↦ .onlyAt fun hsize ↦ ⟨hallowed hsize hq, h.binary (by omega) least⟩
    unary := fun hq ↦ .onlyAt fun hsize ↦ ⟨hallowed hsize hq, h.unary (by omega)⟩
    primary := fun hq ↦ .onlyAt fun hsize ↦ ⟨hallowed hsize hq, h.primary (by omega)⟩
    construction := fun hq ↦ .onlyAt fun hsize ↦ ⟨hallowed hsize hq, h.construction (by omega)⟩
    element := fun hq ↦ .onlyAt fun hsize ↦ ⟨hallowed hsize hq, h.element (by omega)⟩
    bindingTarget := fun hq ↦ .onlyAt fun hsize ↦ ⟨hallowed hsize hq, h.bindingTarget (by omega)⟩
    type := fun hq ↦ .onlyAt fun hsize ↦ ⟨hallowed hsize hq, h.type (by omega)⟩
    typeOperator := fun hq ↦ .onlyAt fun hsize ↦ ⟨hallowed hsize hq, h.typeOperator (by omega)⟩ }

/-- Each construct moves on, given what it may call. -/
theorem step_moves {g : Grammar} (h : tape.Serves g level) (hp : p ≤ tape.size) (entry : Entry)
    (hlevel : 12 * (tape.size - p) + entry.rank ≤ level + 1) :
    tape.Moves p (entry.step (g.onlyAt (entry.mayCall p))) := by
  have hserves := h.onlyAt hp hlevel
  cases entry with
  | statement => exact (Grammar.statementStep_forms hserves (Nat.le_refl _)).moves hp
  | assignment => exact (Grammar.assignmentStep_forms hserves (Nat.le_refl _)).moves hp
  | binary least => exact (Grammar.binaryStep_forms hserves (Nat.le_refl _) least).moves hp
  | unary => exact (Grammar.unaryStep_forms hserves (Nat.le_refl _)).moves hp
  | primary => exact (Grammar.primaryStep_forms hserves (Nat.le_refl _)).moves hp
  | construction => exact (Grammar.constructionStep_forms hserves (Nat.le_refl _)).moves hp
  | element => exact (Grammar.elementStep_passes hserves (Nat.le_refl _)).moves hp
  | bindingTarget => exact (Grammar.bindingTargetStep_forms hserves (Nat.le_refl _)).moves hp
  | type => exact (Grammar.typeStep_passes hserves (Nat.le_refl _)).moves hp
  | typeOperator => exact (Grammar.typeOperatorStep_passes hserves (Nat.le_refl _)).moves hp

/-- Each turn of a loop moves on. -/
theorem turn_moves {g : Grammar} (h : tape.Serves g level) (hp : p ≤ tape.size)
    (hlevel : 12 * (tape.size - p) + 7 ≤ level) {turn : Parse Unit} (hturn : g.Turn turn) :
    tape.Moves p turn := by
  cases hturn with
  | statement => exact (h.statement hlevel).moves hp
  | switchCase => exact (Grammar.switchCase_passes h (by omega) _).moves hp
  | classMember => exact (Grammar.classMember_passes h (by omega)).moves hp
  | param => exact (Grammar.param_passes h (by omega)).moves hp
  | argument =>
    exact (Grammar.spreadOr_forms (fun _ ↦ h.assignment (by omega))
      (h.assignment (by omega))).moves hp
  | literalProperty => exact (Grammar.literalProperty_passes h (by omega)).moves hp
  | patternProperty => exact (Grammar.patternProperty_passes h (by omega)).moves hp
  | markupAttribute => exact (Grammar.markupAttribute_forms h (by omega)).moves hp
  | child => exact (Grammar.child_passes h (by omega)).moves hp
  | typeMember => exact (Grammar.typeMember_passes h (by omega)).moves hp
  | decorator => exact (Grammar.leftHandSide_forms h (by omega)).moves hp
  | declarator => exact (Grammar.declarator_passes h (by omega) _ _).moves hp
  | enumMember => exact (Grammar.enumMember_passes h (by omega)).moves hp
  | importSpecifier => exact Grammar.importSpecifier_passes.moves hp
  | exportSpecifier => exact Grammar.exportSpecifier_passes.moves hp
  | typeParameter => exact (Grammar.typeParameter_passes h (by omega)).moves hp
  | typeArgument => exact (h.type (by omega)).moves hp
  | tupleElement => exact (Grammar.tupleElement_passes h (by omega)).moves hp

end Tape

namespace Program

variable {tape : Tape} {statement : Parse Node} {options : Options} {context : ParseContext}
  {p failures last : Nat} {trace : List Attempt}

/-! ## Whole readings -/

theorem Course.code_ne (h : Course tape statement options context p failures trace last) :
    ∀ failure ∈ Attempt.failures trace, failure.code ≠ exhausted.code := by
  induction h with
  | done => simp
  | read _ _ _ _ _ ih => simpa using ih
  | stop _ _ _ hblames => simpa [exhausted] using hblames.1
  | resume _ _ _ _ hblames _ _ _ _ ih =>
    simpa using ⟨hblames.1, ih⟩

/-- A course comes to the end of the tape, unless a failure ends it. -/
theorem Course.ends (h : Course tape statement options context p failures trace last) :
    last = tape.size ∨ Attempt.failures trace ≠ [] ∧ (options.collectErrors = true →
      options.maxErrors ≤ failures + (Attempt.failures trace).length) := by
  induction h with
  | done => exact .inl rfl
  | read _ _ _ _ _ ih => simpa using ih
  | stop _ _ _ _ _ hstops => exact .inr (by simpa [Options.goesOn] using hstops)
  | resume _ _ _ _ _ _ _ _ _ ih =>
    refine ih.imp id fun h ↦ ⟨by simp, fun hcollect ↦ ?_⟩
    have hmax := h.2 hcollect
    rw [Attempt.failures_failed_cons, List.length_cons]
    omega

/-- A reading has ended for a reason: all tokens are read, or a failure that lies in the program
has ended a strict reading or is one too many. -/
structure Ends (options : Options) (result : Except Failure Progress) : Prop where
  failed : ∀ failure, result = .error failure →
    options.collectErrors = false ∧ failure.code ≠ exhausted.code
  kept : ∀ progress, result = .ok progress →
    ∀ failure ∈ progress.errors, failure.code ≠ exhausted.code
  strict : ∀ progress, result = .ok progress → options.collectErrors = false →
    progress.cursor.after = []
  collecting : ∀ progress, result = .ok progress → options.collectErrors = true →
    progress.cursor.after = [] ∨ options.maxErrors ≤ progress.errors.length

theorem Course.ends_after (h : Course tape statement options context p 0 trace last) :
    Ends options (Progress.after options { cursor := tape.cursor p } trace (tape.cursor last)) := by
  have hcodes := h.code_ne
  have hends := h.ends
  have hafter : (tape.cursor tape.size).after = [] := List.drop_length
  cases hcollect : options.collectErrors with
  | true =>
    rw [after_collecting hcollect]
    refine ⟨by simp, ?_, by simp [hcollect], ?_⟩
    · rintro _ ⟨⟩
      simpa using hcodes
    · rintro _ ⟨⟩ -
      refine hends.imp (fun hlast ↦ ?_) fun hmax ↦ ?_
      · rw [hlast, hafter]
      · simpa using hmax.2 hcollect
  | false =>
    cases hfailures : Attempt.failures trace with
    | nil =>
      rw [after_of_failures_nil hfailures]
      refine ⟨by simp, ?_, ?_, by simp [hcollect]⟩
      · rintro _ ⟨⟩
        simp
      · rintro _ ⟨⟩ -
        obtain hlast | ⟨hne, -⟩ := hends
        · rw [hlast, hafter]
        · exact absurd hfailures hne
    | cons failure more =>
      rw [after_of_failures_cons hcollect hfailures]
      refine ⟨?_, by simp, by simp, by simp⟩
      rintro _ ⟨⟩
      exact ⟨hcollect, hcodes failure (by simp [hfailures])⟩

end Program

open Program

end SignalView
