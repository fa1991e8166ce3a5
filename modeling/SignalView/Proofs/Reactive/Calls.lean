import SignalView.Proofs.Syntax.Ways
import SignalView.Reactive.Classification

/-!
# What makes an expression static

An expression is static exactly when no call lies on a way down from it that passes through no
function and no markup. The classification asks this in several places: of the expression, of the
operands of a conditional or a logical operator, and of what is in parentheses; a list is known by
its call. All of these agree.
-/

namespace SignalView

namespace Node

/-- Calls below functions and markup do not count: functions run later, and markup is lowered as an
element of its own. -/
def isShielding (node : Node) : Bool := node.isFunctionLike || node.isMarkup

/-- A call or a tagged template lies on a way that passes through no function and no markup. -/
def Calls (node : Node) : Prop := ∃ call, call.isCall = true ∧ node.Way isShielding call

variable {node : Node} {range : Range}

theorem isShielding_of_isCall (h : node.isCall = true) : node.isShielding = false := by
  cases node with
  | plain _ form => cases form <;> first | rfl | cases h
  | surface => cases h

theorem calls_iff : node.Calls ↔
    node.isShielding = false ∧ (node.isCall = true ∨ ∃ part ∈ node.children, part.Calls) := by
  constructor
  · intro ⟨call, hcall, hway⟩
    obtain ⟨hnode, rfl | ⟨part, hpart, hway⟩⟩ := way_iff.mp hway
    · exact ⟨hnode, .inl hcall⟩
    · exact ⟨hnode, .inr ⟨part, hpart, call, hcall, hway⟩⟩
  · intro ⟨hnode, hcalls⟩
    obtain hcall | ⟨part, hpart, call, hcall, hway⟩ := hcalls
    · exact ⟨node, hcall, .here hnode⟩
    · exact ⟨call, hcall, .down hnode hpart hway⟩

theorem Calls.of_isCall (h : node.isCall = true) : node.Calls :=
  calls_iff.mpr ⟨isShielding_of_isCall h, .inl h⟩

theorem not_calls_of_isMarkup (h : node.isMarkup = true) : ¬ node.Calls := by
  intro hcalls
  simpa [isShielding, h] using (calls_iff.mp hcalls).1

/-- What neither is a call nor hides any has the calls of its parts. -/
theorem calls_iff_children (hnode : node.isShielding = false) (hcall : node.isCall = false) :
    node.Calls ↔ ∃ part ∈ node.children, part.Calls := by
  rw [calls_iff, hnode, hcall]
  simp

theorem containsCall_iff : node.containsCall = true ↔ ∃ part ∈ node.children, part.Calls := by
  have hwalk (call : Node) (hcall : call.isCall = true) :
      (∃ visit ∈ node.reach (fun part ↦ !part.isFunctionLike && !part.isMarkup) false,
        visit.node = call) ↔ ∃ part ∈ node.children, part.Way isShielding call :=
    exists_visit_iff (fun part ↦ (Bool.not_or ..).symm) (isShielding_of_isCall hcall)
  rw [containsCall, List.any_eq_true]
  constructor
  · intro ⟨visit, hvisit, hcall⟩
    obtain ⟨part, hpart, hway⟩ := (hwalk visit.node hcall).mp ⟨visit, hvisit, rfl⟩
    exact ⟨part, hpart, visit.node, hcall, hway⟩
  · intro ⟨part, hpart, call, hcall, hway⟩
    obtain ⟨visit, hvisit, rfl⟩ := (hwalk call hcall).mpr ⟨part, hpart, hway⟩
    exact ⟨visit, hvisit, hcall⟩

theorem isDynamic_iff : node.isDynamic = true ↔ node.Calls := by
  rw [calls_iff, ← containsCall_iff]
  cases hcall : node.isCall with
  | false => simp [isDynamic, hcall, isShielding, and_comm]
  | true => simp [isDynamic, hcall, isShielding_of_isCall hcall]

/-- Parentheses do not matter. -/
theorem calls_unwrap (node : Node) : node.unwrap.Calls ↔ node.Calls := by
  fun_induction unwrap node with
  | case1 range inner ih =>
    have hparen : (Node.plain range (.paren inner)).Calls ↔ ∃ part ∈ [inner], part.Calls :=
      calls_iff_children rfl rfl
    simpa [ih] using hparen.symm
  | case2 => rfl

end Node

namespace Classification

open Node

variable {symbols : Option SymbolTable} {node : Node} {operands values : List Node}

/-- A conditional or a logical operator has the calls of its operands. -/
theorem calls_iff_of_alternatives (h : alternatives? node = some (operands, values)) :
    node.Calls ↔ ∃ operand ∈ operands, operand.Calls := by
  unfold alternatives? at h
  split at h
  · cases h
    exact calls_iff_children rfl rfl
  · split at h
    · cases h
      exact calls_iff_children rfl rfl
    · cases h
  · cases h

theorem calls_of_isLoop (h : isLoop symbols node = true) : node.Calls := by
  unfold isLoop at h
  split at h
  · exact .of_isCall rfl
  · cases h

/-- The alternatives of a static expression are static, and no others are. -/
theorem ofAlternatives_category_iff {facts : Classification} (hfacts : facts.category = .static) :
    (ofAlternatives facts operands values).category = .static ↔
      ¬ ∃ operand ∈ operands, operand.Calls := by
  simp only [← isDynamic_iff, ← List.any_eq_true]
  cases hdynamic : operands.any isDynamic with
  | true => simp [ofAlternatives, hdynamic]
  | false =>
    simp only [ofAlternatives, hdynamic]
    split
    · next h => cases h
    · split <;> simp [hfacts]

/-- An expression is static exactly when it has no calls. -/
theorem classify_category_iff : (classify symbols node).category = .static ↔ ¬ node.Calls := by
  rw [← calls_unwrap]
  simp only [classify]
  split
  · next hmarkup => simp [not_calls_of_isMarkup hmarkup]
  · split
    · next hloop => simp [calls_of_isLoop hloop]
    · split
      · next operands values halternatives =>
        rw [calls_iff_of_alternatives halternatives]
        exact ofAlternatives_category_iff rfl
      · cases hdynamic : node.unwrap.isDynamic with
        | true => simp [isDynamic_iff.mp hdynamic]
        | false => simp [← isDynamic_iff, hdynamic]

/-- The value of an attribute is classified like a child, but wired. -/
theorem classifyAttribute_category_iff {name : Bytes} {value : Option Node}
    (hname : Attribute.isEvent name = false) :
    (classifyAttribute symbols name value).category = .static ↔
      ∀ node ∈ value.bind contained, ¬ node.Calls := by
  simp only [classifyAttribute, hname, Bool.false_eq_true, if_false]
  split
  · next hvalue => simp [hvalue]
  · next range text hvalue =>
    have hcalls : ¬ (Node.plain range (.string text)).Calls :=
      fun h ↦ by simpa [children, Plain.children] using (calls_iff_children rfl rfl).mp h
    simp [hvalue, hcalls]
  · next node _ hvalue =>
    have hcategory := @classify_category_iff symbols node
    simp only [hvalue, Option.mem_some_iff, forall_eq', ← hcategory]
    split <;> simp_all

/-- What makes an expression static, as a child and as the value of an attribute that is no
listener. -/
theorem category_static_iff (symbols : Option SymbolTable) :
    (∀ node, (classify symbols node).category = .static ↔ ¬ node.Calls) ∧
      ∀ name value, Attribute.isEvent name = false →
        ((classifyAttribute symbols name value).category = .static ↔
          ∀ node ∈ value.bind contained, ¬ node.Calls) :=
  ⟨fun _ ↦ classify_category_iff, fun _ _ ↦ classifyAttribute_category_iff⟩

/-- A function that calls another one is static, here as the value of a title. -/
theorem category_static_iff_arrow :
    Attribute.isEvent (bytes "title") = false ∧
      (classifyAttribute none (bytes "title") (some (.surface {} (.container (some
        (.plain {} (.arrow { body := .expression (.plain {} (.call
          (.plain {} (.identifier (bytes "f"))) [] [] false)) }))))))).category = .static := by
  refine ⟨by decide, ((category_static_iff none).2 _ _ (by decide)).mpr ?_⟩
  rintro _ ⟨⟩ hcalls
  cases (calls_iff.mp hcalls).1

end Classification

end SignalView
