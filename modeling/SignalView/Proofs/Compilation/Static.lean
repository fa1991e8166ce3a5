import SignalView.Proofs.Compilation.Outcome
import SignalView.Proofs.Lowering.Facts.Statements
import SignalView.Proofs.View.Facts

/-!
# Static elements

The flag of an element tells that its attributes and those of some elements below it are settled
when the element is made.
-/

namespace SignalView

/-! ## What static elements are made of

Markup reaches elements and fragments through its children, and through expressions in braces that
are markup or choose between markup. An element that is static vouches for the elements that it
nests, as children or alone in braces. What it reaches behind a fragment, or behind parentheses or a
choice in braces, is not looked at.
-/

section

open Slot

/-- The expressions that one in parentheses, a conditional or a logical operator may come to. -/
def Plain.choices : Plain View → List View
  | .paren expression => [expression]
  | .conditional _ consequent alternate => [consequent, alternate]
  | .binary op left right => if Node.isLogical op then [left, right] else []
  | _ => []

namespace View

def isMarkup : View → Bool
  | .rendered _ _ (.element _) | .rendered _ _ (.fragment _) => true
  | _ => false

/-- Whether a view is a static element. -/
def isStatic : View → Bool
  | .rendered _ _ (.element e) => e.isStatic
  | _ => false

/-- The children of an element or a fragment. -/
def children : View → List View
  | .rendered _ _ (.element e) => e.children
  | .rendered _ _ (.fragment children) => children
  | _ => []

/-- A child without the braces around it. -/
def content : View → View
  | .rendered _ _ (.child _ expression) => expression
  | view => view

/-- Nothing is added to markup later on, and the expressions among its children are static. -/
def isQuiet : View → Bool
  | .rendered _ _ (.element e) =>
    e.listeners.isEmpty && e.bindings.isEmpty && e.children.all isConstant
  | .rendered _ _ (.fragment children) => children.all isConstant
  | _ => true
where
  isConstant : View → Bool
    | .rendered _ _ (.child c _) => c.category == .static
    | _ => true

/-- Nothing is added to an element itself later on, and its children, apart from the elements among
them, are text, calls, fragments, and expressions that are static and not empty. -/
def isBare : View → Bool
  | .rendered _ _ (.element e) =>
    e.listeners.isEmpty && e.bindings.isEmpty && e.children.all isFixed
  | _ => true
where
  isFixed : View → Bool
    | .rendered _ _ (.child c expression) =>
      expression.isElement || (c.category == .static && !c.isNullable)
    | .rendered _ _ (.text _) | .rendered _ _ (.element _) | .rendered _ _ (.fragment _)
    | .rendered _ _ (.componentCall _ _ _) => true
    | _ => false

/-- An expression is markup, or may come to markup. -/
inductive Shows : View → View → Prop
  | markup {view : View} (h : view.isMarkup = true) : Shows view view
  | choice {line column : Nat} {form : Plain View} {part markup : View}
      (hpart : part ∈ form.choices) (h : part.Shows markup) :
      Shows (.plain line column form) markup

/-- Markup below others, not through calls of components or through functions. -/
inductive Reaches : View → View → Prop
  | here (view : View) : Reaches view view
  | down {view child part inner : View} (hchild : child ∈ view.children)
      (hpart : child.content.Shows part) (h : part.Reaches inner) : Reaches view inner

/-- An element below others, through elements only that are children or stand alone in braces. -/
inductive Nests : View → View → Prop
  | here (view : View) : Nests view view
  | down {view child inner : View} (hchild : child ∈ view.children)
      (helement : child.content.isElement = true) (h : child.content.Nests inner) :
      Nests view inner

variable {view child inner : View}

theorem isMarkup_of_isElement (h : view.isElement = true) : view.isMarkup = true := by
  unfold isElement at h
  split at h
  · rfl
  · cases h

/-- Markup among the children is shown as it is. -/
theorem Shows.content_of_isMarkup (h : view.isMarkup = true) : view.content.Shows view := by
  have hcontent : view.content = view := by
    unfold isMarkup at h
    split at h
    · rfl
    · rfl
    · cases h
  rw [hcontent]
  exact .markup h

theorem Nests.reaches (h : view.Nests inner) : view.Reaches inner := by
  induction h with
  | here view => exact .here view
  | down hchild helement _ ih => exact .down hchild (.markup (isMarkup_of_isElement helement)) ih

theorem nests_iff : view.Nests inner ↔ inner = view ∨
    ∃ child ∈ view.children, child.content.isElement = true ∧ child.content.Nests inner := by
  constructor
  · intro h
    cases h with
    | here => exact .inl rfl
    | down hchild helement h => exact .inr ⟨_, hchild, helement, h⟩
  · rintro (rfl | ⟨child, hchild, helement, h⟩)
    · exact .here inner
    · exact .down hchild helement h

/-! ### Places in the tree -/

theorem mem_parts_of_mem_children (h : child ∈ view.children) : child ∈ parts view.slots := by
  unfold children at h
  split at h
  · simpa [slots, Rendered.slots, ElementShape.slots] using .inr (.inr (.inr h))
  · simpa [slots, Rendered.slots] using h
  · cases h

theorem content_mem_subviews (view : View) : view.content ∈ view.subviews := by
  unfold content
  split
  · next line column c expression =>
    rw [subviews_eq]
    refine Multiset.mem_cons_of_mem (mem_subviews.mpr ⟨expression, ?_, mem_subviews_self _⟩)
    simp [slots, Rendered.slots]
  · exact mem_subviews_self _

theorem sizeOf_content_le (view : View) : sizeOf view.content ≤ sizeOf view := by
  unfold content
  split
  · simp
    omega
  · exact le_rfl

theorem mem_subviews_of_mem_children (h : child ∈ view.children) : child ∈ view.subviews := by
  rw [subviews_eq, Multiset.mem_cons]
  exact .inr (mem_subviews.mpr ⟨child, mem_parts_of_mem_children h, child.mem_subviews_self⟩)

theorem Nests.mem_subviews (h : view.Nests inner) : inner ∈ view.subviews := by
  induction h with
  | here view => exact view.mem_subviews_self
  | @down view child inner hchild _ _ ih =>
    exact subviews_subset (mem_subviews_of_mem_children hchild)
      (subviews_subset child.content_mem_subviews ih)

/-! ### Static elements -/

/-- A child counts as static if it is fixed, and static in case it is an element. -/
theorem isStaticChild_iff : child.isStaticChild = true ↔ isBare.isFixed child = true ∧
    (child.content.isElement = true → child.content.isStatic = true) := by
  unfold isStaticChild
  split <;> simp_all [isBare.isFixed, content, isElement, isStatic]

theorem isStatic_iff_children (h : view.Settled) (helement : view.isElement = true) :
    view.isStatic = true ↔ view.isBare = true ∧
      ∀ child ∈ view.children, child.content.isElement = true → child.content.isStatic = true := by
  unfold isElement at helement
  split at helement
  · next line column e =>
    have hstatic : e.Settled := h
    rw [ElementShape.Settled] at hstatic
    simp only [isStatic, hstatic, isBare, children, Bool.and_eq_true, List.all_eq_true,
      isStaticChild_iff, forall_and, and_assoc]
  · cases helement

/-- An element is static exactly when all elements that it nests are bare. -/
theorem isStatic_iff_nests {view : View} (h : ∀ inner, view.Nests inner → inner.Settled)
    (helement : view.isElement = true) :
    view.isStatic = true ↔ ∀ inner, view.Nests inner → inner.isBare = true := by
  -- the elements among the children are smaller, and each answers for what it nests
  have hchildren : ∀ child ∈ view.children, child.content.isElement = true →
      (child.content.isStatic = true ↔
        ∀ inner, child.content.Nests inner → inner.isBare = true) := by
    intro child hchild hcontent
    exact isStatic_iff_nests (fun inner hinner ↦ h inner (.down hchild hcontent hinner)) hcontent
  rw [isStatic_iff_children (h view (.here view)) helement]
  constructor
  · rintro ⟨hbare, hstatic⟩ inner hinner
    obtain rfl | ⟨child, hchild, hcontent, hinner⟩ := nests_iff.mp hinner
    · exact hbare
    · exact (hchildren child hchild hcontent).mp (hstatic child hchild hcontent) inner hinner
  · intro hbare
    refine ⟨hbare view (.here view), fun child hchild hcontent ↦ ?_⟩
    refine (hchildren child hchild hcontent).mpr fun inner hinner ↦ ?_
    exact hbare inner (.down hchild hcontent hinner)
termination_by sizeOf view
decreasing_by
  have hpart := sizeOf_lt_of_mem_parts (mem_parts_of_mem_children hchild)
  have hcontent := child.sizeOf_content_le
  omega

/-- An element in braces is static, as all markup is. -/
theorem isConstant_of_isFixed (h : child.Settled) (hfixed : isBare.isFixed child = true) :
    isQuiet.isConstant child = true := by
  unfold isQuiet.isConstant
  split
  · next c expression =>
    simp only [isBare.isFixed, Bool.or_eq_true, Bool.and_eq_true] at hfixed
    obtain helement | ⟨hstatic, -⟩ := hfixed
    · exact beq_iff_eq.mpr (h helement)
    · exact hstatic
  · rfl

theorem isQuiet_of_isBare (h : ∀ child ∈ view.children, child.Settled)
    (helement : view.isElement = true) (hbare : view.isBare = true) : view.isQuiet = true := by
  unfold isElement at helement
  split at helement
  · simp only [isBare, Bool.and_eq_true, List.all_eq_true] at hbare
    simp only [isQuiet, Bool.and_eq_true, List.all_eq_true]
    exact ⟨hbare.1, fun child hchild ↦
      isConstant_of_isFixed (h child hchild) (hbare.2 child hchild)⟩
  · cases helement

theorem Nests.isElement (h : view.Nests inner) (helement : view.isElement = true) :
    inner.isElement = true := by
  induction h with
  | here view => exact helement
  | down _ hcontent _ ih => exact ih hcontent

end View

end

/-! ## The static elements of a program

The flag of a lowered element tells exactly whether the elements that it nests are bare. So nothing
that is nested in a static element changes, but behind fragments, parentheses and choices something
may.
-/

namespace ViewProgram

open View

variable {options : Options} {root : Node} {program : ViewProgram} {state : LoweringState}

theorem subviews_subset {view : View} (h : view ∈ program.subviews) :
    view.subviews ⊆ program.subviews := by
  obtain ⟨item, hitem, hview⟩ := mem_sum_map.mp h
  exact fun inner hinner ↦ mem_sum_map.mpr ⟨item, hitem, View.subviews_subset hview hinner⟩

/-- An element is static exactly when all elements that it nests, as children or alone in braces,
are bare. It reaches these, and they are quiet then, so that everything it reaches is quiet exactly
when what it reaches in another way is. -/
theorem element_isStatic_iff (hrun : ofNode options root = (.ok program, state))
    {line column : Nat} {e : ElementShape View}
    (he : .rendered line column (.element e) ∈ program.subviews) :
    (e.isStatic = true ↔
      ∀ inner, (View.rendered line column (.element e)).Nests inner → inner.isBare = true) ∧
    (e.isStatic = true →
      (∀ inner, (View.rendered line column (.element e)).Nests inner →
        (View.rendered line column (.element e)).Reaches inner ∧ inner.isQuiet = true) ∧
      ((∀ inner, (View.rendered line column (.element e)).Reaches inner → inner.isQuiet = true) ↔
        ∀ inner, (View.rendered line column (.element e)).Reaches inner →
          ¬(View.rendered line column (.element e)).Nests inner → inner.isQuiet = true)) := by
  -- what is known about views goes by the view, and not by its shape
  generalize hview : View.rendered line column (.element e) = view at he ⊢
  have helement : view.isElement = true := by
    rw [← hview]
    rfl
  have hbelow : ∀ inner, view.Nests inner → inner ∈ program.subviews :=
    fun inner hinner ↦ subviews_subset he hinner.mem_subviews
  have hsettled := (ofNode_settled hrun).2
  have hstatic : e.isStatic = true ↔ ∀ inner, view.Nests inner → inner.isBare = true := by
    have hiff := isStatic_iff_nests (fun inner hinner ↦ hsettled _ (hbelow inner hinner)) helement
    rwa [← hview] at hiff ⊢
  have hquiet (h : e.isStatic = true) (inner : View) (hinner : view.Nests inner) :
      inner.isQuiet = true := by
    refine isQuiet_of_isBare (fun child hchild ↦ hsettled child ?_) (hinner.isElement helement)
      (hstatic.mp h inner hinner)
    exact subviews_subset (hbelow inner hinner) (mem_subviews_of_mem_children hchild)
  refine ⟨hstatic, fun h ↦ ⟨fun inner hinner ↦ ⟨hinner.reaches, hquiet h inner hinner⟩, ?_⟩⟩
  refine ⟨fun hall inner hinner _ ↦ hall inner hinner, fun hrest inner hinner ↦ ?_⟩
  by_cases hnests : view.Nests inner
  · exact hquiet h inner hnests
  · exact hrest inner hinner hnests

/-- Whether a static view has markup among its children that is not quiet. -/
def hidesChange (view : View) : Bool :=
  view.isStatic && view.children.any fun child ↦ child.isMarkup && !child.isQuiet

open Compilation in
/-- A static element with a call behind a fragment. -/
theorem element_isStatic_iff_fragment :
    ∃ tokens root program state line column e,
      ReadAs {} (bytes "<p><>{f()}</></p>;") tokens root ∧
      ofNode {} root = (.ok program, state) ∧
      .rendered line column (.element e) ∈ program.subviews ∧ e.isStatic = true ∧
      (∀ inner, (View.rendered line column (.element e)).Nests inner → inner.isBare = true) ∧
      ∃ inner, (View.rendered line column (.element e)).Reaches inner ∧ inner.isQuiet = false := by
  have hlowers : lowers (bytes "<p><>{f()}</></p>;")
      (fun program ↦ decide (0 < program.subviews.countP fun view ↦ hidesChange view = true)) =
        true := by
    decide +kernel
  obtain ⟨tokens, root, program, state, hread, hlowered, hhides⟩ := exists_of_lowers hlowers
  obtain ⟨view, hview, hhides⟩ := Multiset.countP_pos.mp (of_decide_eq_true hhides)
  simp only [hidesChange, Bool.and_eq_true, List.any_eq_true, Bool.not_eq_true'] at hhides
  obtain ⟨hstatic, child, hchild, hmarkup, hquiet⟩ := hhides
  unfold isStatic at hstatic
  split at hstatic
  · next line column e =>
    obtain ⟨hbare, -⟩ := element_isStatic_iff hlowered hview
    exact ⟨tokens, root, program, state, line, column, e, hread, hlowered, hview, hstatic,
      hbare.mp hstatic, child, .down hchild (.content_of_isMarkup hmarkup) (.here child), hquiet⟩
  · cases hstatic

end ViewProgram

end SignalView
