import SignalView.Proofs.Reactive.Calls

/-!
# How attributes are realised

The category of an expression decides how it is realised, up to one question: whether it is a
conditional or a logical operator that may yield markup. An attribute is assigned and never
appended, so what a child would be appended for is wired instead. This is done for what changes over
time only; a static choice of markup is still to be appended under a guard.
-/

namespace SignalView

open Node

/-- How an expression of a category is realised as a child, when it chooses between markup and when
it does not. -/
def Category.realization (choosesMarkup : Bool) : Category → Realization
  | .static => if choosesMarkup then .guarded else .direct
  | .dynamic => .wired
  | .event => .listener
  | .conditional => if choosesMarkup then .guarded else .wired
  | .loop => .list

namespace Classification

/-- A conditional or a logical operator, perhaps in parentheses, with markup in what may be its
value. -/
def choosesMarkup (node : Node) : Bool :=
  (alternatives? node.unwrap).any fun (_, values) ↦ values.any holdsMarkup

variable {symbols : Option SymbolTable} {node : Node}

theorem alternatives?_of_isMarkup (h : node.isMarkup = true) : alternatives? node = none := by
  cases node with
  | plain => cases h
  | surface => rfl

theorem ofAlternatives_realization {facts : Classification} (operands values : List Node)
    (hcategory : facts.category = .static) (hrealization : facts.realization = .direct) :
    (ofAlternatives facts operands values).realization =
      (ofAlternatives facts operands values).category.realization (values.any holdsMarkup) := by
  cases hdynamic : operands.any isDynamic <;> cases hmarkup : values.any holdsMarkup <;>
    simp [ofAlternatives, Category.realization, hdynamic, hmarkup, hcategory, hrealization]

theorem ofAlternatives_category_ne {facts : Classification} (operands values : List Node)
    (hcategory : facts.category = .static) :
    (ofAlternatives facts operands values).category ≠ .event := by
  cases hdynamic : operands.any isDynamic <;> cases hmarkup : values.any holdsMarkup <;>
    simp [ofAlternatives, hdynamic, hmarkup, hcategory]

/-- The category of an expression tells how it is realised, except whether a choice is guarded. -/
theorem classify_realization : (classify symbols node).realization =
    (classify symbols node).category.realization (choosesMarkup node) := by
  simp only [classify]
  split
  · next hmarkup => simp [choosesMarkup, alternatives?_of_isMarkup hmarkup, Category.realization]
  · split
    · rfl
    · split
      · next operands values halternatives =>
        simpa [choosesMarkup, halternatives] using
          ofAlternatives_realization operands values rfl rfl
      · next halternatives =>
        split
        · rfl
        · simp [choosesMarkup, halternatives, Category.realization]

/-- Only attributes are listeners. -/
theorem classify_category_ne : (classify symbols node).category ≠ .event := by
  simp only [classify]
  split
  · simp
  · split
    · simp
    · split
      · exact ofAlternatives_category_ne _ _ rfl
      · split <;> simp

/-- An attribute that is no listener is assigned once when it is static, and wired when it is not.
The exception is a static value that chooses between markup: it is guarded, as a child would be. -/
theorem classifyAttribute_realization {name : Bytes} {value : Option Node} {c : Classification}
    (hname : Attribute.isEvent name = false) (hc : c = classifyAttribute symbols name value) :
    c.category ≠ .loop ∧ c.category ≠ .event ∧
      (c.category ≠ .static → c.realization = .wired) ∧
      (c.category = .static → c.realization =
        if (value.bind contained).any choosesMarkup then .guarded else .direct) := by
  subst hc
  simp only [classifyAttribute, hname, Bool.false_eq_true, if_false]
  split
  · next hvalue => simp [hvalue]
  · next range text hvalue => simp [hvalue, choosesMarkup, unwrap, alternatives?]
  · next node _ hvalue =>
    have hevent := @classify_category_ne symbols node
    have hrealization := @classify_realization symbols node
    simp only [hvalue, Option.any_some]
    split <;> cases hcategory : (classify symbols node).category <;>
      simp_all [Category.realization]

/-- Assigned once when nothing changes it, and wired when something does. -/
def IsAssigned (c : Classification) : Prop :=
  c.category ≠ .loop ∧ c.realization = if c.category = .static then .direct else .wired

/-- An attribute that is no listener is assigned, unless it is a static choice between markup. Such
a choice is guarded, and nothing else is. No attribute is a list, and what changes is wired. -/
theorem attribute_isAssigned_iff (symbols : Option SymbolTable) {name : Bytes}
    (value : Option Node) (hname : Attribute.isEvent name = false) :
    let c := classifyAttribute symbols name value
    let isGuarded := c.category = .static ∧ (value.bind contained).any choosesMarkup = true
    (c.IsAssigned ↔ ¬isGuarded) ∧ (c.realization = .guarded ↔ isGuarded) ∧
      c.realization ≠ .list ∧ c.realization ≠ .listener ∧ c.category ≠ .loop ∧
      (c.category ≠ .static → c.realization = .wired) := by
  intro c isGuarded
  obtain ⟨hloop, -, hwired, hstatic⟩ := classifyAttribute_realization (c := c) hname rfl
  by_cases hcategory : c.category = .static
  · cases hmarkup : (value.bind contained).any choosesMarkup <;>
      simp [IsAssigned, isGuarded, hcategory, hstatic hcategory, hmarkup]
  · simp [IsAssigned, isGuarded, hcategory, hwired hcategory, hloop]

/-- A title that is one element or another is guarded, although it is static. -/
theorem attribute_isAssigned_iff_choice :
    let element (tag : Bytes) : Node := .surface {} (.element tag [] [] true)
    let choice : Node := .plain {} (.conditional (.plain {} (.identifier (bytes "a")))
      (element (bytes "b")) (element (bytes "i")))
    let c := classifyAttribute none (bytes "title") (some (.surface {} (.container (some choice))))
    Attribute.isEvent (bytes "title") = false ∧ c.category = .static ∧ c.realization = .guarded ∧
      ¬c.IsAssigned := by
  intro element choice c
  have hname : Attribute.isEvent (bytes "title") = false := by decide
  have hchoice : choosesMarkup choice = true := rfl
  have hcalls (tag : Bytes) : ¬(element tag).Calls := not_calls_of_isMarkup rfl
  have hcategory : c.category = .static := by
    refine (classifyAttribute_category_iff hname).mpr ?_
    rintro _ ⟨⟩
    have halternatives : alternatives? choice = some (_, _) := rfl
    rw [calls_iff_of_alternatives halternatives]
    have htest : ¬(Node.plain {} (.identifier (bytes "a"))).Calls := by
      rw [calls_iff_children rfl rfl]
      simp [children, Plain.children]
    simp [htest, hcalls]
  obtain ⟨hassigned, hguarded, -⟩ := attribute_isAssigned_iff none
    (some (.surface {} (.container (some choice)))) hname
  exact ⟨hname, hcategory, hguarded.mpr ⟨hcategory, hchoice⟩,
    fun h ↦ hassigned.mp h ⟨hcategory, hchoice⟩⟩

end Classification

end SignalView
