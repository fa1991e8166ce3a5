import SignalView.Component.Detection
import SignalView.Proofs.Syntax.Ways

/-!
# What is taken for a component

The rules of detection are tried in order, and the first one that fits decides. The three rules on
what a function returns fit only when there is markup in its body, for which there is a rule as
well. So they tell how a component was found, and not whether there is one.
-/

namespace SignalView

namespace Node

/-! ## Positions in a tree -/

/-- A node stands in a tree below some ancestors, the nearest first, each with the index of the part
that leads on. -/
inductive Stands (root : Node) : List (Node × Nat) → Node → Prop
  | root : Stands root [] root
  | part {ancestors : List (Node × Nat)} {parent part : Node} {index : Nat}
    (h : Stands root ancestors parent) (hpart : parent.children[index]? = some part) :
    Stands root ((parent, index) :: ancestors) part

/-- Whether a node below some ancestors is handed over: as an argument, an element of an array, a
property value or a spread. Parentheses around it do not matter. -/
def handedOver (ancestors : List (Node × Nat)) : Bool :=
  match ancestors with
  | [] => false
  | (.plain _ (.paren _), _) :: outer => handedOver outer
  | (.plain _ (.call _ _ _ _), index) :: _ | (.plain _ (.new _ _ _), index) :: _ => index != 0
  | (.plain _ (.array _), _) :: _ | (.plain _ (.object _), _) :: _
  | (.plain _ (.spread _), _) :: _ => true
  | _ => false

variable {root node parent part inner : Node} {ancestors : List (Node × Nat)} {index : Nat}
  {isCallback outer : Bool}

theorem handedOver_cons (parent : Node) (index : Nat) (ancestors : List (Node × Nat)) :
    handedOver ((parent, index) :: ancestors) =
      callbackPlace (handedOver ancestors) parent index := by
  cases parent with
  | plain range form => cases form <;> rfl
  | surface => rfl

/-- A walk that enters everything comes by the parts of what it comes by. -/
theorem mem_reach_part (h : ⟨parent, isCallback⟩ ∈ root.reach (fun _ ↦ true) outer)
    (hpart : parent.children[index]? = some part) :
    ⟨part, callbackPlace isCallback parent index⟩ ∈ root.reach (fun _ ↦ true) outer := by
  induction root using induction_children generalizing outer with
  | step root ih =>
    obtain ⟨next, i, hi, hvisit⟩ := mem_reach_iff.mp h
    refine mem_reach_iff.mpr ⟨next, i, hi, .inr ⟨rfl, ?_⟩⟩
    rcases hvisit with hvisit | ⟨-, hvisit⟩
    · cases hvisit
      exact mem_reach_iff.mpr ⟨part, index, hpart, .inl rfl⟩
    · exact ih next (List.mem_of_getElem? hi) hvisit

/-- The walk over a tree comes by every position below its root, and knows whether what stands
there is handed over. -/
theorem Stands.mem_reach (h : root.Stands ancestors node) (hbelow : ancestors ≠ []) :
    ⟨node, handedOver ancestors⟩ ∈ root.reach (fun _ ↦ true) false := by
  induction h with
  | root => contradiction
  | @part ancestors parent part index h hpart ih =>
    rw [handedOver_cons]
    cases h with
    | root => exact mem_reach_iff.mpr ⟨part, index, hpart, .inl rfl⟩
    | part => exact mem_reach_part (ih (by simp)) hpart

/-! ## Markup in a tree -/

/-- There is markup in the tree. -/
def HoldsMarkup (node : Node) : Prop :=
  ∃ markup, markup.isMarkup = true ∧ node.Way (fun _ ↦ false) markup

theorem HoldsMarkup.of_isMarkup (h : node.isMarkup = true) : node.HoldsMarkup :=
  ⟨node, h, .here rfl⟩

theorem HoldsMarkup.of_part (hpart : part ∈ node.children) (h : part.HoldsMarkup) :
    node.HoldsMarkup := by
  obtain ⟨markup, hmarkup, hway⟩ := h
  exact ⟨markup, hmarkup, .down rfl hpart hway⟩

theorem exists_descendant_isMarkup :
    (∃ inner ∈ node.descendants, inner.isMarkup = true) ↔
      ∃ part ∈ node.children, part.HoldsMarkup := by
  simp only [mem_descendants_iff, HoldsMarkup]
  constructor
  · rintro ⟨markup, ⟨part, hpart, hway⟩, hmarkup⟩
    exact ⟨part, hpart, markup, hmarkup, hway⟩
  · rintro ⟨part, hpart, markup, hmarkup, hway⟩
    exact ⟨markup, ⟨part, hpart, hway⟩, hmarkup⟩

theorem holdsMarkup_iff : node.HoldsMarkup ↔
    node.isMarkup = true ∨ ∃ inner ∈ node.descendants, inner.isMarkup = true := by
  rw [exists_descendant_isMarkup]
  constructor
  · rintro ⟨markup, hmarkup, hway⟩
    obtain ⟨-, rfl | ⟨part, hpart, hway⟩⟩ := way_iff.mp hway
    · exact .inl hmarkup
    · exact .inr ⟨part, hpart, markup, hmarkup, hway⟩
  · rintro (hmarkup | ⟨part, hpart, hholds⟩)
    · exact .of_isMarkup hmarkup
    · exact .of_part hpart hholds

theorem HoldsMarkup.of_way {avoid : Node → Bool} (hway : node.Way avoid inner)
    (h : inner.HoldsMarkup) : node.HoldsMarkup := by
  induction hway with
  | here => exact h
  | down _ hpart _ ih => exact .of_part hpart (ih h)

/-- What the walk through a function's own part comes by lies in one of its parts. -/
theorem HoldsMarkup.of_own (hinner : inner ∈ node.ownDescendants)
    (hfunction : inner.isFunctionLike = false) (h : inner.HoldsMarkup) :
    ∃ part ∈ node.children, part.HoldsMarkup := by
  obtain ⟨part, hpart, hway⟩ :=
    (exists_visit_iff (fun _ ↦ rfl) hfunction).mp (List.mem_map.mp hinner)
  exact ⟨part, hpart, .of_way hway h⟩

theorem holdsMarkup_of_isMarkupValue (h : node.isMarkupValue = true) : node.HoldsMarkup :=
  of_unwrap (.of_isMarkup h) fun _ _ hinner ↦ .of_part List.mem_cons_self hinner

/-- One of two parts is markup, or may yield some. -/
theorem holdsMarkup_of_either {first second : Node} (hfirst : first ∈ node.children)
    (hsecond : second ∈ node.children)
    (h : (first.isMarkupValue || second.isMarkupValue || first.mayYieldMarkup ||
      second.mayYieldMarkup) = true)
    (ihFirst : first.mayYieldMarkup = true → first.HoldsMarkup)
    (ihSecond : second.mayYieldMarkup = true → second.HoldsMarkup) : node.HoldsMarkup := by
  simp only [Bool.or_eq_true] at h
  obtain ((hvalue | hvalue) | hyields) | hyields := h
  · exact .of_part hfirst (holdsMarkup_of_isMarkupValue hvalue)
  · exact .of_part hsecond (holdsMarkup_of_isMarkupValue hvalue)
  · exact .of_part hfirst (ihFirst hyields)
  · exact .of_part hsecond (ihSecond hyields)

theorem holdsMarkup_of_mayYieldMarkup (h : node.mayYieldMarkup = true) : node.HoldsMarkup := by
  fun_induction mayYieldMarkup node with
  | case1 range inner ih => exact .of_part List.mem_cons_self (ih h)
  | case2 range test consequent alternate ihConsequent ihAlternate =>
    exact holdsMarkup_of_either (by simp [children, Plain.children])
      (by simp [children, Plain.children]) h ihConsequent ihAlternate
  | case3 range op left right ihLeft ihRight =>
    exact holdsMarkup_of_either (by simp [children, Plain.children])
      (by simp [children, Plain.children]) (Bool.and_eq_true_iff.mp h).2 ihLeft ihRight
  | case4 => cases h

theorem holdsMarkup_of_markupConstants {statement : Node} {name : Bytes}
    (h : name ∈ statement.markupConstants) : statement.HoldsMarkup := by
  unfold markupConstants at h
  split at h
  · next range keyword declarators isDeclare =>
    split at h
    · obtain ⟨d, hd, hname⟩ := List.mem_filterMap.mp h
      split at hname
      · next hinit =>
        obtain ⟨value, hvalue, hmarkup⟩ := (Option.any_eq_true _ _).mp hinit
        refine .of_part (List.mem_flatMap.mpr ⟨d, hd, ?_⟩) (holdsMarkup_of_isMarkupValue hmarkup)
        simp [Declarator.children, hvalue]
      · cases hname
    · cases h
  · cases h

end Node

namespace FunctionView

open Node

variable {binding : Bytes} {node : Node} {f : FunctionView}

/-- What the body of a function consists of: its value, or the statements of its block. -/
def roots (f : FunctionView) : List Node := f.value.toList ++ f.block.toList.flatMap children

/-- A body is a value or a block, if there is one. -/
theorem block_eq_none_of_ofNode? (hf : ofNode? binding node = some f) (hvalue : f.value.isSome) :
    f.block = none := by
  unfold ofNode? at hf
  split at hf
  · cases hf
    cases hvalue
  · cases hf
    cases hvalue
  · dsimp only at hf
    split at hf
    · cases hf
      cases hvalue
    · cases hf
      rfl
  · cases hf

/-- The last rule asks for markup anywhere in the body. -/
theorem hasMarkup_iff (hf : ofNode? binding node = some f) :
    f.hasMarkup = true ↔ ∃ root ∈ f.roots, root.HoldsMarkup := by
  unfold hasMarkup roots
  cases hvalue : f.value with
  | some value =>
    have hblock : f.block = none := block_eq_none_of_ofNode? hf (by simp [hvalue])
    simp [hblock, holdsMarkup_iff]
  | none =>
    cases hblock : f.block with
    | none => simp
    | some block => simp [exists_descendant_isMarkup]

/-! ## The rules on what is returned -/

theorem holdsMarkup_of_statement {statement : Node} (hmem : statement ∈ f.statements)
    (h : statement.HoldsMarkup) : ∃ root ∈ f.roots, root.HoldsMarkup := by
  refine ⟨statement, List.mem_append_right _ ?_, h⟩
  unfold statements at hmem
  split at hmem
  · next hblock => simpa [hblock, children, Plain.children] using hmem
  · cases hmem

theorem holdsMarkup_of_returned {argument : Node} (hmem : argument ∈ f.returned)
    (h : argument.HoldsMarkup) : ∃ root ∈ f.roots, root.HoldsMarkup := by
  obtain ⟨block, hblock, hmem⟩ := List.mem_flatMap.mp hmem
  obtain ⟨statement, hstatement, hreturn⟩ := List.mem_filterMap.mp hmem
  split at hreturn
  · next range returned =>
    subst hreturn
    obtain ⟨part, hpart, hholds⟩ := HoldsMarkup.of_own hstatement rfl
      (.of_part (by simp [children, Plain.children]) h)
    refine ⟨part, List.mem_append_right _ ?_, hholds⟩
    exact List.mem_flatMap.mpr ⟨block, hblock, hpart⟩
  · cases hreturn

theorem holdsMarkup_of_returnsDirectly (h : f.returnsDirectly = true) :
    ∃ root ∈ f.roots, root.HoldsMarkup := by
  unfold returnsDirectly at h
  split at h
  · next value hvalue =>
    exact ⟨value, by simp [roots, hvalue], holdsMarkup_of_isMarkupValue h⟩
  · obtain ⟨statement, hmem, hreturns⟩ := List.any_eq_true.mp h
    refine holdsMarkup_of_statement hmem ?_
    split at hreturns
    · next range argument =>
      obtain ⟨value, rfl, hvalue⟩ := (Option.any_eq_true _ _).mp hreturns
      exact .of_part (by simp [children, Plain.children]) (holdsMarkup_of_isMarkupValue hvalue)
    · cases hreturns

/-- A constant that is set to markup stands among the statements. -/
theorem holdsMarkup_of_returnsVariable (h : f.returnsVariable = true) :
    ∃ root ∈ f.roots, root.HoldsMarkup := by
  obtain ⟨argument, -, hargument⟩ := List.any_eq_true.mp h
  obtain ⟨name, -, hname⟩ := (Option.any_eq_true _ _).mp hargument
  obtain ⟨statement, hstatement, hname⟩ := List.mem_flatMap.mp (List.contains_iff_mem.mp hname)
  exact holdsMarkup_of_statement hstatement (holdsMarkup_of_markupConstants hname)

theorem holdsMarkup_of_returnsConditionally (h : f.returnsConditionally = true) :
    ∃ root ∈ f.roots, root.HoldsMarkup := by
  unfold returnsConditionally at h
  split at h
  · next value hvalue =>
    exact ⟨value, by simp [roots, hvalue], holdsMarkup_of_mayYieldMarkup h⟩
  · obtain ⟨argument, hmem, hmarkup⟩ := List.any_eq_true.mp h
    refine holdsMarkup_of_returned hmem ?_
    exact (Bool.or_eq_true_iff.mp hmarkup).elim holdsMarkup_of_isMarkupValue
      holdsMarkup_of_mayYieldMarkup

end FunctionView

/-! ## Verdicts -/

namespace DetectionRule

/-- The rules on what a function returns. -/
def asksReturns : DetectionRule → Bool
  | .directReturn | .variableReturn | .conditionalReturn => true
  | _ => false

/-- The rules without those on what a function returns. -/
def others : List DetectionRule := all.filter (!·.asksReturns)

end DetectionRule

namespace Detection

variable {place : DetectionPlace} {binding : Bytes} {node : Node} {f : FunctionView}
  {rules : List DetectionRule} {rule : DetectionRule}

/-- What some rules say about a function: the first one that fits decides. -/
def ofRules (rules : List DetectionRule) (place : DetectionPlace) (f : FunctionView) : Detection :=
  match rules.find? (fits place f) with
  | some rule => .ofRule place f rule
  | none =>
    { rationale := bytes "no strategy matched", name := f.name, returnType := some f.returnType }

theorem detect_eq_ofRules (hf : FunctionView.ofNode? place.binding node = some f) :
    detect place node = ofRules DetectionRule.all place f := by
  simp only [detect, hf]
  rfl

theorem ofRules_name : (ofRules rules place f).name = f.name := by
  unfold ofRules
  split <;> rfl

/-- When the rule on callbacks comes first, a function that it does not fit is a component just when
one of the other rules fits. -/
theorem ofRules_isComponent_iff (hrules : ∀ rule ∈ rules, rule.isNegative = false) :
    (ofRules (.anonymousCallback :: rules) place f).isComponent = true ↔
      fits place f .anonymousCallback = false ∧ ∃ rule ∈ rules, fits place f rule = true := by
  unfold ofRules
  rw [List.find?_cons]
  cases hcallback : fits place f .anonymousCallback with
  | true => simp [ofRule, DetectionRule.isNegative]
  | false =>
    cases hfind : rules.find? (fits place f) with
    | none => simpa using hfind
    | some rule =>
      have hmem : rule ∈ rules := List.mem_of_find?_eq_some hfind
      have hfits : fits place f rule = true := List.find?_some hfind
      simpa [ofRule, hrules rule hmem] using ⟨rule, hmem, hfits⟩

/-- A rule on what a function returns fits only where the rule on markup in the body does. -/
theorem fits_markupInBody (hf : FunctionView.ofNode? binding node = some f)
    (hrule : rule.asksReturns = true) (h : fits place f rule = true) :
    fits place f .markupInBody = true := by
  refine (FunctionView.hasMarkup_iff hf).mpr ?_
  cases rule with
  | directReturn => exact FunctionView.holdsMarkup_of_returnsDirectly h
  | variableReturn => exact FunctionView.holdsMarkup_of_returnsVariable h
  | conditionalReturn => exact FunctionView.holdsMarkup_of_returnsConditionally h
  | _ => cases hrule

/-- Where the rules on types, names and bodies are among the rules, the others do not matter. -/
theorem ofRules_isComponent_iff_fits (hf : FunctionView.ofNode? binding node = some f)
    (hrules : ∀ rule ∈ rules, rule.isNegative = false)
    (hbasic : [.returnType, .pascalCase, .markupInBody] ⊆ rules) :
    (ofRules (.anonymousCallback :: rules) place f).isComponent = true ↔
      fits place f .anonymousCallback = false ∧ (fits place f .returnType = true ∨
        fits place f .pascalCase = true ∨ fits place f .markupInBody = true) := by
  rw [ofRules_isComponent_iff hrules]
  refine and_congr_right fun _ ↦ ⟨?_, ?_⟩
  · rintro ⟨rule, hmem, hfits⟩
    cases hrule : rule.asksReturns with
    | true => exact .inr (.inr (fits_markupInBody hf hrule hfits))
    | false =>
      cases rule with
      | anonymousCallback => cases hrules _ hmem
      | returnType => exact .inl hfits
      | pascalCase => exact .inr (.inl hfits)
      | markupInBody => exact .inr (.inr hfits)
      | _ => cases hrule
  · rintro (hfits | hfits | hfits)
    · exact ⟨_, hbasic (by simp), hfits⟩
    · exact ⟨_, hbasic (by simp), hfits⟩
    · exact ⟨_, hbasic (by simp), hfits⟩

/-- Only the rule on variables fills in a type or complains about one. -/
theorem ofRules_of_ne_variableReturn
    (h : ∀ rule, rules.find? (fits place f) = some rule → rule ≠ .variableReturn) :
    (ofRules rules place f).returnType = some f.returnType ∧
      (ofRules rules place f).diagnostics = [] := by
  unfold ofRules
  split
  · next rule hfind => simp [ofRule, h rule hfind]
  · exact ⟨rfl, rfl⟩

theorem strategy_of_find? (h : rules.find? (fits place f) = some rule) :
    (ofRules rules place f).strategy = rule.name := by
  simp only [ofRules, h]
  rfl

end Detection

open Detection in
/-- A function of a tree is a component just when it is not handed over without a name, and its
return type names an element, it has the name of a component, or there is markup in its body. The
rules on what it returns do not matter for that, nor for its name; the one on variables may fill in
its type or complain about it. -/
theorem detect_isComponent_iff {root node : Node} {ancestors : List (Node × Nat)}
    (hstands : root.Stands ancestors node) (binding : Bytes) (autoAnnotate : Bool)
    {f : FunctionView} (hf : FunctionView.ofNode? binding node = some f) :
    let place : DetectionPlace :=
      { binding := binding, isCallback := Node.handedOver ancestors, autoAnnotate := autoAnnotate }
    let found := detect place node
    let found' := Detection.ofRules DetectionRule.others place f
    (ancestors ≠ [] → ⟨node, place.isCallback⟩ ∈ root.reach (fun _ ↦ true) false) ∧
      (found.isComponent = true ↔
        ¬(binding = [] ∧ f.isExpression = true ∧ Node.handedOver ancestors = true) ∧
          (ElementType.isElementType f.returnType = true ∨ Name.isPascalCase f.name = true ∨
            ∃ part ∈ f.roots, part.HoldsMarkup)) ∧
      found'.isComponent = found.isComponent ∧ found'.name = found.name ∧
      (found.strategy ≠ DetectionRule.variableReturn.name →
        found'.returnType = found.returnType ∧ found'.diagnostics = found.diagnostics) := by
  intro place found found'
  have hfound : found = ofRules DetectionRule.all place f := detect_eq_ofRules hf
  have hall := @ofRules_isComponent_iff_fits place binding node f DetectionRule.all.tail hf
    (by decide) (by decide)
  have hothers := @ofRules_isComponent_iff_fits place binding node f DetectionRule.others.tail hf
    (by decide) (by decide)
  have hvariable : (ofRules DetectionRule.others place f).returnType = some f.returnType ∧
      (ofRules DetectionRule.others place f).diagnostics = [] := by
    refine ofRules_of_ne_variableReturn fun rule hfind ↦ ?_
    rintro rfl
    have hmem := List.mem_of_find?_eq_some hfind
    revert hmem
    decide
  refine ⟨fun hbelow ↦ hstands.mem_reach hbelow, ?_, ?_, ?_, fun hstrategy ↦ ?_⟩
  · rw [hfound]
    refine hall.trans (and_congr ?_ ?_)
    · simp [fits, place, List.isEmpty_iff]
    · exact or_congr_right (or_congr_right (FunctionView.hasMarkup_iff hf))
  · rw [hfound, Bool.eq_iff_iff]
    exact hothers.trans hall.symm
  · rw [hfound]
    exact ofRules_name.trans ofRules_name.symm
  · rw [hfound] at hstrategy ⊢
    obtain ⟨htype, hdiagnostics⟩ := @ofRules_of_ne_variableReturn place f DetectionRule.all
      fun rule hfind heq ↦ hstrategy (by rw [strategy_of_find? hfind, heq])
    exact ⟨hvariable.1.trans htype.symm, hvariable.2.trans hdiagnostics.symm⟩

/-- In `const list = () => { if (x) return x && <p/>; };` there is a component. The same function as
an element of an array is none. -/
theorem detect_isComponent_iff_branch :
    let x : Node := .plain {} (.identifier (bytes "x"))
    let element : Node := .surface {} (.element (bytes "p") [] [] true)
    let value : Node := .plain {} (.binary (bytes "&&") x element)
    let branch : Node := .plain {} (.ifElse x (.plain {} (.returnValue (some value))) none)
    let arrow : Node := .plain {} (.arrow { body := .block (.plain {} (.block [branch])) })
    let declaration : Node := .plain {} (.variableDeclaration (bytes "const") [{
      target := .plain {} (.identifier (bytes "list")), init := some arrow }] false)
    let root : Node := .surface {} (.program [declaration])
    let array : Node := .plain {} (.array [arrow])
    root.Stands [(declaration, 1), (root, 0)] arrow ∧
      (detect { binding := bytes "list" } arrow).isComponent = true ∧
      array.Stands [(array, 0)] arrow ∧
      (detect { isCallback := true } arrow).isComponent = false := by
  intro x element value branch arrow declaration root array
  have hstands : root.Stands [(declaration, 1), (root, 0)] arrow := .part (.part .root rfl) rfl
  have harray : array.Stands [(array, 0)] arrow := .part .root rfl
  have helement : element.HoldsMarkup := .of_isMarkup rfl
  have hvalue : value.HoldsMarkup := .of_part (.tail _ (.head _)) helement
  have hbranch : branch.HoldsMarkup := .of_part (.tail _ (.head _)) (.of_part (.head _) hvalue)
  obtain ⟨-, hcomponent, -⟩ := detect_isComponent_iff hstands (bytes "list") true rfl
  obtain ⟨-, hcallback, -⟩ := detect_isComponent_iff harray [] true rfl
  refine ⟨hstands, hcomponent.mpr ⟨?_, .inr (.inr ⟨branch, .head _, hbranch⟩)⟩, harray, ?_⟩
  · rintro ⟨hbinding, -⟩
    cases hbinding
  · exact Bool.eq_false_iff.mpr fun h ↦ (hcallback.mp h).1 ⟨rfl, rfl, rfl⟩

end SignalView
