import SignalView.Proofs.Component.Verdict

/-!
# Return types that detection fills in

Detection may leave a function with another return type than it had: a type that is missing is
filled in where the rule on variables decides. When the function is detected again, the rule on
return types is the one that decides, with the same verdict, and there is nothing left to fill in.
-/

namespace SignalView

/-- The return type of a function, empty when none is written. -/
def Node.returnType? : Node → Option Bytes
  | .plain _ (.functionDeclaration f _) => some f.returnType
  | .plain _ (.function f) => some f.returnType
  | .plain _ (.arrow f) => some f.returnType
  | _ => none

/-- A node as detection leaves it. -/
def Detection.leaves (found : Detection) (node : Node) : Node :=
  match found.returnType with
  | some type => node.withReturnType type
  | none => node

/-- The return type of a function can be replaced, in the tree as in the view, and nothing else
changes. -/
theorem FunctionView.ofNode?_withReturnType {binding : Bytes} {node : Node} {f : FunctionView}
    (hf : ofNode? binding node = some f) :
    node.returnType? = some f.returnType ∧ node.withReturnType f.returnType = node ∧
      ∀ type, ofNode? binding (node.withReturnType type) = some { f with returnType := type } := by
  unfold ofNode? at hf
  split at hf
  · cases hf
    exact ⟨rfl, rfl, fun _ ↦ rfl⟩
  · cases hf
    exact ⟨rfl, rfl, fun _ ↦ rfl⟩
  · next arrow =>
    cases hbody : arrow.body with
    | block | expression =>
      simp only [hbody, Option.some.injEq] at hf
      subst hf
      refine ⟨rfl, rfl, fun type ↦ ?_⟩
      simp only [Node.withReturnType, ofNode?, hbody]
      rfl
  · cases hf

namespace Detection

variable {place : DetectionPlace} {node : Node} {f : FunctionView} {rule : DetectionRule}

theorem filledType_ne_nil : filledType ≠ [] := by decide

/-- Only the rule on return types looks at the return type. -/
theorem fits_withReturnType (hrule : rule ≠ .returnType) (type : Bytes) :
    fits place { f with returnType := type } rule = fits place f rule := by
  cases rule with
  | returnType => contradiction
  | _ => rfl

/-- The type that is filled in names an element, so the rule on return types fits from then on. The
rule on callbacks, the only one before it, does not fit where one behind it has decided. -/
theorem find?_filledType (h : DetectionRule.all.find? (fits place f) = some .variableReturn) :
    DetectionRule.all.find? (fits place { f with returnType := filledType }) =
      some .returnType := by
  have hcallback : fits place f .anonymousCallback = false := by
    cases hfits : fits place f .anonymousCallback with
    | false => rfl
    | true => simp [DetectionRule.all, hfits] at h
  have hfilled : fits place { f with returnType := filledType } .returnType = true := by
    have helement : ElementType.isElementType filledType = true := by decide
    exact helement
  rw [← fits_withReturnType (by decide) filledType] at hcallback
  simp [DetectionRule.all, hcallback, hfilled]

/-- Detection goes by the name of the rule on variables only when that rule decides. -/
theorem strategy_eq_variableReturn :
    (ofRules DetectionRule.all place f).strategy = DetectionRule.variableReturn.name ↔
      DetectionRule.all.find? (fits place f) = some .variableReturn := by
  refine ⟨fun h ↦ ?_, strategy_of_find?⟩
  cases hfind : DetectionRule.all.find? (fits place f) with
  | none =>
    simp only [ofRules, hfind] at h
    revert h
    decide
  | some rule =>
    rw [strategy_of_find? hfind] at h
    revert h
    cases rule <;> decide

/-- What is no function has no return type, and is left alone. -/
theorem leaves_of_ofNode?_none (hf : FunctionView.ofNode? place.binding node = none) :
    (detect place node).leaves node = node := by
  simp only [detect, hf, leaves]

/-- A function without a return type gets one where the rule on variables decides. -/
theorem leaves_of_variableReturn (hf : FunctionView.ofNode? place.binding node = some f)
    (hfind : DetectionRule.all.find? (fits place f) = some .variableReturn)
    (htype : f.returnType = []) (hplace : place.autoAnnotate = true) :
    (detect place node).leaves node = node.withReturnType filledType := by
  have hreturn : (ofRules DetectionRule.all place f).returnType = some filledType := by
    simp [ofRules, hfind, ofRule, htype, hplace]
  simp only [detect_eq_ofRules hf, leaves, hreturn]

/-- All other functions keep the return type that they have. -/
theorem leaves_of_not_fills (hf : FunctionView.ofNode? place.binding node = some f)
    (h : ¬(f.returnType = [] ∧ place.autoAnnotate = true ∧
      DetectionRule.all.find? (fits place f) = some .variableReturn)) :
    (detect place node).leaves node = node := by
  obtain ⟨-, hsame, -⟩ := FunctionView.ofNode?_withReturnType hf
  have hreturn : (ofRules DetectionRule.all place f).returnType = some f.returnType := by
    by_cases hfind : DetectionRule.all.find? (fits place f) = some .variableReturn
    · simp only [ofRules, hfind, ofRule]
      simp only [hfind, and_true] at h
      simp [h]
    · refine (ofRules_of_ne_variableReturn ?_).1
      rintro rule hrule rfl
      exact hfind hrule
  simp only [detect_eq_ofRules hf, leaves, hreturn, hsame]

/-- What detection leaves behind, by what it was given and what it says. -/
theorem leaves_eq (place : DetectionPlace) (node : Node) :
    (detect place node).leaves node =
      if node.returnType? = some [] ∧ place.autoAnnotate = true ∧
          (detect place node).strategy = DetectionRule.variableReturn.name then
        node.withReturnType filledType
      else node := by
  cases hf : FunctionView.ofNode? place.binding node with
  | none =>
    have hstrategy : (detect place node).strategy = bytes "None" := by simp only [detect, hf]
    have hname : bytes "None" ≠ DetectionRule.variableReturn.name := by decide
    rw [leaves_of_ofNode?_none hf, if_neg]
    rintro ⟨-, -, h⟩
    exact hname (hstrategy.symm.trans h)
  | some f =>
    obtain ⟨htype, -, -⟩ := FunctionView.ofNode?_withReturnType hf
    simp only [htype, Option.some.injEq, detect_eq_ofRules hf, strategy_eq_variableReturn]
    split
    · next h => exact detect_eq_ofRules hf ▸ leaves_of_variableReturn hf h.2.2 h.1 h.2.1
    · next h => exact detect_eq_ofRules hf ▸ leaves_of_not_fills hf h

end Detection

open Detection in
/-- Detection leaves a node as it is, unless it is a function without a return type, one is to be
filled in, and the rule on variables decides. What it leaves it takes for the same thing again, with
the same confidence and under the same name, and leaves as it is. -/
theorem detect_again (place : DetectionPlace) (node : Node) :
    let found := detect place node
    let left := found.leaves node
    let again := detect place left
    (left =
      if node.returnType? = some [] ∧ place.autoAnnotate = true ∧
          found.strategy = DetectionRule.variableReturn.name then
        node.withReturnType (bytes "HTMLElement")
      else node) ∧
      again.isComponent = found.isComponent ∧ again.confidence = found.confidence ∧
      again.name = found.name ∧ again.leaves left = left := by
  intro found left again
  have hleft : left = _ := leaves_eq place node
  refine ⟨hleft, ?_⟩
  by_cases hsame : left = node
  · have hagain : again = found := congrArg (detect place) hsame
    rw [hagain, hsame]
    exact ⟨rfl, rfl, rfl, hsame⟩
  · -- the node has another type now, and the rule on return types decides
    have hfills := Classical.not_not.mp fun h ↦ hsame (hleft.trans (if_neg h))
    rw [if_pos hfills] at hleft
    obtain ⟨f, hf⟩ := Option.ne_none_iff_exists'.mp fun hnone ↦
      hsame (leaves_of_ofNode?_none hnone)
    obtain ⟨-, -, hview⟩ := FunctionView.ofNode?_withReturnType hf
    have hfound : found = ofRules DetectionRule.all place f := detect_eq_ofRules hf
    have hfind : DetectionRule.all.find? (fits place f) = some .variableReturn :=
      strategy_eq_variableReturn.mp (hfound ▸ hfills.2.2)
    have hagain : again = ofRules DetectionRule.all place { f with returnType := filledType } := by
      rw [← detect_eq_ofRules (hview filledType)]
      exact congrArg (detect place) hleft
    have hkept : again.leaves left = left := by
      simp only [again, hleft]
      exact leaves_of_not_fills (hview filledType) fun h ↦ filledType_ne_nil h.1
    refine ⟨?_, ?_, ?_, hkept⟩
    · simp only [hfound, hagain, ofRules, hfind, find?_filledType hfind, ofRule]
      rfl
    · simp only [hfound, hagain, ofRules, hfind, find?_filledType hfind, ofRule]
      rfl
    · rw [hfound, hagain, ofRules_name, ofRules_name]

/-- In `() => { const view = <p/>; return view; }` the type is filled in. -/
example :
    let view : Node := .plain {} (.identifier (bytes "view"))
    let element : Node := .surface {} (.element (bytes "p") [] [] true)
    let constant : Node := .plain {} (.variableDeclaration (bytes "const") [{
      target := view, init := some element }] false)
    let block : Node := .plain {} (.block [constant, .plain {} (.returnValue (some view))])
    let arrow : Node := .plain {} (.arrow { body := .block block })
    ((detect {} arrow).leaves arrow).returnType? = some (bytes "HTMLElement") := by cbv
end SignalView
