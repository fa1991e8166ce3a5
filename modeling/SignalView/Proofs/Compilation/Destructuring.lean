import SignalView.Proofs.Grammar.Levels
import SignalView.Proofs.Lowering.Patterns
import SignalView.Proofs.Script.Statements

/-!
# Exported patterns

What a declaration binds is read off the tree of the source when its names are declared, and off the
output tree when they are exported as assignments. For the patterns that can be read the two agree,
unless one of the names was imported before.
-/

namespace SignalView

/-! ## Patterns that are read -/

/-- A binding target can be read as the pattern. -/
def Node.IsTarget (pattern : Node) : Prop :=
  ∃ level context cursor rest, (grammar level).bindingTarget context cursor = .ok pattern rest

namespace Node.Explicit

/-- In forms other than objects only the parts matter. -/
theorem of_parts {range : Range} {form : Plain Node}
    (hform : ∀ properties, form ≠ .object properties)
    (hparts : ∀ part ∈ form.subpatterns (·.bindingPart), part.Explicit) :
    Explicit (.plain range form) :=
  .plain (fun properties heq ↦ absurd heq (hform properties)) hparts

theorem object {range : Range} {properties : List (Property Node)}
    (h : ∀ p ∈ properties, ∃ value, p.value = some value ∧ value.Explicit) :
    Explicit (.plain range (.object properties)) := by
  refine .plain ?_ fun part hpart ↦ ?_
  · rintro _ ⟨⟩ p hp
    obtain ⟨value, hvalue, -⟩ := h p hp
    rw [hvalue, Option.isSome_some]
  · obtain ⟨p, hp, hpart⟩ := List.mem_flatMap.mp hpart
    obtain ⟨value, hvalue, hexplicit⟩ := h p hp
    obtain rfl : part = value := by simpa [Property.bindingPart, hvalue] using hpart
    exact hexplicit

end Node.Explicit

namespace Grammar

open Parse

section BindingTarget

variable {g : Grammar} {levels : Nat} (h : g.bindingTarget.Under levels Node.Explicit)

theorem withDefault_explicit (start : Token) {target : Node} (htarget : target.Explicit) :
    (g.withDefault start target).Under levels Node.Explicit := by
  refine .guard (.skip fun initial ↦ .node fun range ↦ .of_parts (by simp) ?_) (.pure htarget)
  simpa [Plain.subpatterns] using htarget

theorem shorthandProperty_explicit (start : Token) (key : Node) (computed : Bool)
    (message : String) : (g.shorthandProperty start key computed message).Under levels fun p ↦
      ∃ value, p.value = some value ∧ value.Explicit := by
  unfold shorthandProperty
  split
  · have htarget (name : Bytes) : (node start (.identifier name)).Under levels Node.Explicit :=
      .node fun range ↦ .of_parts (by simp) (by simp [Plain.subpatterns])
    refine (htarget _).bind fun target htarget ↦ ?_
    exact (withDefault_explicit start htarget).bind fun value hvalue ↦ .pure ⟨value, rfl, hvalue⟩
  · exact .fail _ _

include h

theorem bindingElement_explicit : g.bindingElement.Under levels Node.Explicit :=
  .skip fun start ↦ h.bind fun _ htarget ↦ withDefault_explicit start htarget

theorem patternProperty_explicit : g.patternProperty.Under levels fun p ↦
    ∃ value, p.value = some value ∧ value.Explicit := by
  unfold patternProperty
  refine .guard (h.bind fun value hvalue ↦ .pure ⟨value, rfl, hvalue⟩) (.skip fun start ↦ ?_)
  refine .skip fun (key, computed) ↦ .guard ?_ (shorthandProperty_explicit start key computed _)
  exact (bindingElement_explicit h).bind fun value hvalue ↦ .pure ⟨value, rfl, hvalue⟩

/-- Every property of a pattern that is read has a value. -/
theorem bindingTargetStep_explicit : g.bindingTargetStep.Under levels Node.Explicit := by
  unfold bindingTargetStep
  refine .skip fun start ↦ .guard ?_ (.guard ?_ (.skip fun name ↦ .node fun range ↦ ?_))
  · have hrest : (spreadOr g.bindingTarget g.bindingElement).Under levels Node.Explicit := by
      refine .skip fun start ↦ .guard (h.bind fun argument hargument ↦ ?_)
        (bindingElement_explicit h)
      refine .node fun range ↦ .of_parts (by simp) ?_
      simpa [Plain.subpatterns] using hargument
    have helement : (g.arrayElements (spreadOr g.bindingTarget g.bindingElement)).Under levels
        fun nodes ↦ ∀ node ∈ nodes, node.Explicit := by
      have hhole (start : Token) : (node start .omitted).Under levels Node.Explicit :=
        .node fun range ↦ .of_parts (by simp) (by simp [Plain.subpatterns])
      refine .looseList (.skip fun start ↦ .guard ?_ ?_)
      · exact (hhole start).bind fun _ hnode ↦ .pure hnode
      · exact hrest.bind fun _ hnode ↦ .pure hnode
    refine helement.bind fun elements helements ↦ .skip fun _ ↦ .node fun range ↦ ?_
    exact .of_parts (by simp) helements
  · refine (Under.commaList (patternProperty_explicit h)).bind fun properties hproperties ↦ ?_
    exact .skip fun _ ↦ .node fun range ↦ .object hproperties
  · exact .of_parts (by simp) (by simp [Plain.subpatterns])

end BindingTarget

theorem bindingTarget_explicit (level levels : Nat) :
    (grammar level).bindingTarget.Under levels Node.Explicit := by
  induction level with
  | zero => exact .failWith _
  | succ level ih => exact bindingTargetStep_explicit ih

end Grammar

theorem Node.IsTarget.explicit {pattern : Node} (h : pattern.IsTarget) : pattern.Explicit := by
  obtain ⟨level, context, cursor, rest, hrun⟩ := h
  exact Grammar.bindingTarget_explicit level _ rfl hrun

/-! ## Declarations -/

open LoweringState

variable {all : List Bytes}

namespace Lower

theorem declareSignalPair_settling (keyword type : Bytes) (index : Nat) {elements : List Node}
    (hnames : ∀ name ∈ elements.flatMap Node.boundNames, name ∈ all) :
    Settling all (elements.flatMap Node.boundNames)
      (declareSignalPair keyword type index elements) := by
  induction elements generalizing index with
  | nil => exact .pure ()
  | cons element rest ih =>
    rw [List.flatMap_cons, List.forall_mem_append] at hnames
    have hkeeps (_ : Unit) : (declareSignalPair keyword type (index + 1) rest).Keeps Set.univ :=
      declareSignalPair_keeps _ _ _ fun _ _ _ _ ↦ Set.mem_univ _
    have hdeclare {name : Bytes} (hname : element.name? = some name) {kind : SymbolKind}
        (hkind : kind ≠ .import_) (type : Bytes) : Settling all element.boundNames
          (declare keyword name kind type element.line element.column) := by
      have hfirst := hnames.1 name (Node.mem_boundNames_of_name? hname)
      rw [Node.boundNames_of_name? hname]
      exact declare_settling _ hfirst hkind _ _ _
    rw [List.flatMap_cons]
    unfold declareSignalPair
    split
    · next hname => exact (hdeclare hname (by decide) _).bind (fun _ ↦ ih _ hnames.2) hkeeps
    · next hname => exact (hdeclare hname (by decide) _).bind (fun _ ↦ ih _ hnames.2) hkeeps
    · exact (declarePattern_settling _ (by decide) _ hnames.1).bind (fun _ ↦ ih _ hnames.2) hkeeps

/-- Where the current scope has none of the names of a list as an import, the action tells whether
it has declared some names, none of them as an import. -/
def TellsSettling (all names : List Bytes) (action : Lower Bool) : Prop :=
  ∀ ⦃s told t⦄, s.Admits all → action s = (.ok told, t) →
    t.Admits all ∧ (told = true → t.Settles names)

theorem TellsSettling.no {names : List Bytes} : TellsSettling all names (Pure.pure false) := by
  intro s told t hs hrun
  cases hrun
  exact ⟨hs, nofun⟩

theorem TellsSettling.state {names : List Bytes} {next : LoweringState → Lower Bool}
    (h : ∀ s, TellsSettling all names (next s)) : TellsSettling all names (state >>= next) := by
  intro s told t hs hrun
  obtain ⟨_, _, ⟨⟩, hrun⟩ := bind_eq_ok.mp hrun
  exact h s hs hrun

theorem Settling.yes {names : List Bytes} {action : Lower Unit} (h : Settling all names action) :
    TellsSettling all names (action >>= fun _ ↦ Pure.pure true) := by
  intro s told t hs hrun
  obtain ⟨_, _, haction, hrun⟩ := bind_eq_ok.mp hrun
  cases hrun
  exact (h hs haction).imp_right fun hsettles _ ↦ hsettles

/-- A declarator that calls a primitive has its names declared when that is found out. -/
theorem declareSignals_settling (keyword : Bytes) {d : Declarator Node}
    (hnames : ∀ name ∈ d.target.boundNames, name ∈ all) :
    TellsSettling all d.target.boundNames (declareSignals keyword d) := by
  unfold declareSignals
  split
  · refine .state fun s ↦ ?_
    split
    · next htarget =>
      rw [htarget, Node.boundNames_array] at hnames ⊢
      exact (declareSignalPair_settling _ _ _ hnames).yes
    · next htarget =>
      rw [htarget, Node.boundNames_identifier] at hnames ⊢
      exact (declare_settling _ (hnames _ List.mem_cons_self) (by decide) _ _ _).yes
    · exact .no
  · exact .no

end Lower

namespace Lowering

open Lower

variable {l : Lowering} (h : l.ReadsPatterns) {d : Declarator Node}

include h

/-- A target whose names have been declared is lowered to one that gives values to them. -/
theorem target_ensures {target : Node} (htarget : target.Explicit) {s t : LoweringState}
    {view : View} (hs : s.Admits all) (hsettles : s.Settles target.boundNames)
    (hrun : l.expression target s = (.ok view, t)) :
    t.Admits all ∧ view.boundNames = target.boundNames :=
  ⟨hs.extends (h.restores.expression target hrun),
    (h.expression htarget (fun _ ↦ id) hsettles.resolves hrun).2⟩

theorem plainDeclarator_ensures (keyword : Bytes) (htarget : d.target.Explicit)
    (hnames : ∀ name ∈ d.target.boundNames, name ∈ all) :
    Ensures (Admits all) (l.plainDeclarator keyword d) fun lowered ↦
      lowered.target.boundNames = d.target.boundNames := by
  intro s lowered t hs hrun
  obtain ⟨found, middle, hfound, hrun⟩ := bind_eq_ok.mp hrun
  obtain ⟨hmiddle, hsettles⟩ := declareSignals_settling keyword hnames hs hfound
  have hrest {u : LoweringState} (hu : u.Admits all) (hsettles : u.Settles d.target.boundNames)
      (hrun : (do
        let target ← l.expression d.target
        let init ← l.optionalExpression d.init
        return { target := target, type := d.type, init := init, definite := d.definite } :
          Lower (Declarator View)) u = (.ok lowered, t)) :
      t.Admits all ∧ lowered.target.boundNames = d.target.boundNames := by
    obtain ⟨target, after, hview, hrun⟩ := bind_eq_ok.mp hrun
    obtain ⟨hafter, hbound⟩ := target_ensures h htarget hu hsettles hview
    obtain ⟨init, last, hinit, hrun⟩ := bind_eq_ok.mp hrun
    cases hrun
    exact ⟨hafter.extends (optionalExpression_keeps h.restores _ hinit), hbound⟩
  cases found with
  | true => exact hrest hmiddle (hsettles rfl) hrun
  | false =>
    obtain ⟨_, declared, hdeclare, hrun⟩ := bind_eq_ok.mp hrun
    have hkind : (if keyword == bytes "const" then SymbolKind.constant else .variable_) ≠
        .import_ := by split <;> decide
    obtain ⟨hdeclared, hsettles⟩ := declarePattern_settling keyword hkind _ hnames hmiddle hdeclare
    exact hrest hdeclared hsettles hrun

theorem componentDeclarator_ensures (keyword : Bytes) (htarget : d.target.Explicit)
    (hnames : ∀ name ∈ d.target.boundNames, name ∈ all) :
    Ensures (Admits all) (l.componentDeclarator? keyword d) fun found ↦
      ∀ lowered ∈ found, lowered.target.boundNames = d.target.boundNames := by
  unfold componentDeclarator?
  split
  · next name init hname _ =>
    refine .ite (fun _ ↦ .pure (by simp)) fun _ ↦ ?_
    refine (acceptDetected_keeps _ _).admits.bind fun found _ ↦ ?_
    cases found with
    | none => exact .pure (by simp)
    | some detection =>
      intro s found t hs hrun
      obtain ⟨_, declared, hdeclare, hrun⟩ := bind_eq_ok.mp hrun
      obtain ⟨hdeclared, hsettles⟩ := declare_settling _
        (hnames name (Node.mem_boundNames_of_name? hname)) (by decide) _ _ _ hs hdeclare
      rw [← Node.boundNames_of_name? hname] at hsettles
      obtain ⟨value, middle, hvalue, hrun⟩ := bind_eq_ok.mp hrun
      have hkeeps : declared.Extends ∅ middle := boundComponent_keeps h.restores _ _ _ hvalue
      obtain ⟨target, last, hview, hrun⟩ := bind_eq_ok.mp hrun
      obtain ⟨hlast, hbound⟩ := target_ensures h htarget (hdeclared.extends hkeeps)
        (hsettles.extends hkeeps) hview
      cases hrun
      exact ⟨hlast, by simpa using hbound⟩
  · exact .pure (by simp)

theorem declarator_ensures (atModule : Bool) (keyword : Bytes) (htarget : d.target.Explicit)
    (hnames : ∀ name ∈ d.target.boundNames, name ∈ all) :
    Ensures (Admits all) (l.declarator atModule keyword d) fun lowered ↦
      lowered.target.boundNames = d.target.boundNames := by
  have hplain := plainDeclarator_ensures h keyword htarget hnames
  refine .ite (fun _ ↦ ?_) fun _ ↦ hplain
  refine (componentDeclarator_ensures h keyword htarget hnames).bind fun found hfound ↦ ?_
  cases found with
  | none => exact hplain
  | some lowered => exact .pure (hfound lowered rfl)

theorem variableDeclaration_ensures (atModule : Bool) (keyword : Bytes)
    {declarators : List (Declarator Node)} (isDeclare : Bool)
    (htargets : ∀ d ∈ declarators, d.target.Explicit) :
    Ensures (Admits (declarators.flatMap (·.target.boundNames)))
      (l.variableDeclaration atModule keyword declarators isDeclare) fun form ↦
        ∃ lowered, form = .variableDeclaration keyword lowered isDeclare ∧
          lowered.flatMap (·.target.boundNames) = declarators.flatMap (·.target.boundNames) := by
  refine (Ensures.mapM fun d hd ↦ declarator_ensures h atModule keyword (htargets d hd)
    fun name hname ↦ List.mem_flatMap.mpr ⟨d, hd, hname⟩).bind fun lowered hlowered ↦ .pure ?_
  exact ⟨lowered, rfl, List.Forall₂.flatMap_eq hlowered⟩

end Lowering

/-! ## Exports -/

namespace Emission

open Emit

/-- The text of an exported declaration, with an assignment of each of its names on a line of its
own. -/
def exportText (margin declared : Bytes) (names : List Bytes) : Bytes :=
  if names.isEmpty then bytes "export " ++ declared
  else declared ++ names.flatMap fun name ↦
    bytes "\n" ++ margin ++ exportTarget name ++ bytes " = " ++ name ++ bytes ";"

theorem exportDeclaration_eq_ok {e : Emission} (hformat : e.options.format = .commonjs)
    {declaration : View} {indent : Nat} {state state' : EmitState} {text : Bytes}
    (hrun : e.exportDeclaration declaration indent state = .ok (text, state')) :
    ∃ declared, e.statement declaration indent state = .ok (declared, state') ∧
      text = exportText (Bytes.repeated indent e.options.indent) declared
        (valueNames declaration) := by
  obtain ⟨declared, middle, hdeclared, hrun⟩ := bind_eq_ok.mp hrun
  simp only [hformat, beq_self_eq_true, if_true] at hrun
  by_cases hnames : (valueNames declaration).isEmpty = true
  · rw [if_pos hnames] at hrun
    cases hrun
    refine ⟨declared, hdeclared, ?_⟩
    rw [exportText, if_pos hnames]
  · rw [if_neg hnames] at hrun
    obtain ⟨margin, _, hmargin, hrun⟩ := bind_eq_ok.mp hrun
    cases hmargin
    cases hrun
    refine ⟨declared, hdeclared, ?_⟩
    rw [exportText, if_neg hnames]

end Emission

/-- The names that a variable declaration binds, none of them when it only declares types. -/
def Declarator.valueNames (declarators : List (Declarator Node)) (isDeclare : Bool) : List Bytes :=
  if isDeclare then [] else declarators.flatMap (·.target.boundNames)

open Lower Emission

section Lowered

variable {runtimeModule : Bytes} {limit : Int} {levels : Nat} {s t : LoweringState} {view : View}

/-- An exported declaration gives values to the names that it binds. -/
theorem moduleItem_valueNames {range inner : Range} {keyword : Bytes}
    {declarators : List (Declarator Node)} {isDeclare : Bool}
    {specifiers : List ExportSpecifier} {source : Bytes} {typeOnly : Bool}
    (htargets : ∀ d ∈ declarators, d.target.IsTarget)
    (hadmits : s.Admits (declarators.flatMap (·.target.boundNames)))
    (hrun : (lowering runtimeModule limit levels).moduleItem (.plain range (.exportNamed
      (some (.plain inner (.variableDeclaration keyword declarators isDeclare)))
      specifiers source typeOnly)) s = (.ok view, t)) :
    ∃ declaration line column,
      view = .plain line column (.exportNamed (some declaration) specifiers source typeOnly) ∧
      valueNames declaration = Declarator.valueNames declarators isDeclare := by
  have h := lowering_readsPatterns runtimeModule limit levels
  unfold Lowering.moduleItem at hrun
  obtain ⟨lowered, middle, hitem, hrun⟩ := bind_eq_ok.mp hrun
  unfold Lowering.moduleItem at hitem
  obtain ⟨form, declared, hform, hitem⟩ := bind_eq_ok.mp hitem
  obtain ⟨-, ds, rfl, hnames⟩ := Lowering.variableDeclaration_ensures h true keyword isDeclare
    (fun d hd ↦ (htargets d hd).explicit) hadmits hform
  cases hitem
  obtain ⟨_, _, ⟨⟩, hrun⟩ := bind_eq_ok.mp hrun
  obtain ⟨_, _, -, hrun⟩ := bind_eq_ok.mp hrun
  cases hrun
  refine ⟨_, _, _, rfl, ?_⟩
  rw [valueNames, Declarator.valueNames, hnames]

theorem expression_boundNames {pattern : Node} (htarget : pattern.IsTarget)
    (hnames : ∀ name ∈ pattern.boundNames, ∃ symbol,
      s.symbols.lookup name = some symbol ∧ symbol.kind ≠ .import_)
    (hrun : (lowering runtimeModule limit levels).expression pattern s = (.ok view, t)) :
    view.boundNames = pattern.boundNames := by
  have hresolves : s.Resolves pattern.boundNames := fun name hname ↦ .inr (hnames name hname)
  exact ((lowering_readsPatterns runtimeModule limit levels).expression htarget.explicit
    (fun _ ↦ id) hresolves hrun).2

end Lowered

/-- A pattern with declared names is lowered to one that gives values to the names it binds. So an
exported declaration is followed by assignments of the names that its patterns bind. -/
theorem boundNames_lowered (runtimeModule : Bytes) (limit : Int) (levels : Nat)
    (s t : LoweringState) (view : View) :
    (∀ pattern : Node, pattern.IsTarget →
      (∀ name ∈ pattern.boundNames, ∃ symbol,
        s.symbols.lookup name = some symbol ∧ symbol.kind ≠ .import_) →
      (lowering runtimeModule limit levels).expression pattern s = (.ok view, t) →
      view.boundNames = pattern.boundNames) ∧
    ∀ (range inner : Range) (keyword : Bytes) (declarators : List (Declarator Node))
      (isDeclare : Bool) (specifiers : List ExportSpecifier) (source : Bytes) (typeOnly : Bool),
      (∀ d ∈ declarators, d.target.IsTarget) →
      s.Admits (declarators.flatMap (·.target.boundNames)) →
      (lowering runtimeModule limit levels).moduleItem (.plain range (.exportNamed
        (some (.plain inner (.variableDeclaration keyword declarators isDeclare)))
        specifiers source typeOnly)) s = (.ok view, t) →
      ∀ (options : ScriptOptions) (level indent : Nat) (state state' : EmitState) (text : Bytes),
        options.format = .commonjs →
        (emission options (level + 1)).statement view indent state = .ok (text, state') →
        ∃ line column declaration declared,
          view = .plain line column
            (.exportNamed (some declaration) specifiers source typeOnly) ∧
          (emission options level).statement declaration indent state = .ok (declared, state') ∧
          text = exportText (Bytes.repeated indent options.indent) declared
            (Declarator.valueNames declarators isDeclare) := by
  refine ⟨fun pattern htarget hnames hrun ↦ expression_boundNames htarget hnames hrun, ?_⟩
  intro range inner keyword declarators isDeclare specifiers source typeOnly htargets hadmits hrun
    options level indent state state' text hformat hwritten
  obtain ⟨declaration, line, column, rfl, hvalues⟩ := moduleItem_valueNames htargets hadmits hrun
  have hoptions := emission_options options level
  rw [← hoptions] at hformat
  obtain ⟨declared, hdeclared, htext⟩ := exportDeclaration_eq_ok hformat hwritten
  rw [hvalues, hoptions] at htext
  exact ⟨line, column, declaration, declared, rfl, hdeclared, htext⟩

/-- A pattern with a renamed property and one that only names a binding. -/
theorem boundNames_lowered_renamed :
    ∃ (pattern : Node) (view exported : View) (s t u : LoweringState) (state : EmitState)
      (declared : Bytes),
      pattern.IsTarget ∧ pattern.boundNames = [bytes "a", bytes "b"] ∧
      (lowering [] 100 4).expression pattern s = (.ok view, t) ∧
      view.boundNames = [bytes "a", bytes "b"] ∧
      (lowering [] 100 4).moduleItem (.plain {} (.exportNamed (some (.plain {}
        (.variableDeclaration (bytes "const") [{ target := pattern }] false))) [] [] false)) s =
          (.ok exported, u) ∧
      (emission { runtimeModule := [], format := .commonjs } 4).statement exported 0 {} =
        .ok (exportText [] declared [bytes "a", bytes "b"], state) := by
  let name (text : String) : Node := .plain ⟨⟨1, 1, 0⟩, ⟨1, 1, 0⟩⟩ (.identifier (bytes text))
  let pattern : Node := .plain ⟨⟨1, 1, 0⟩, ⟨1, 1, 0⟩⟩ (.object [
    { key := some (name "k"), value := some (name "a") },
    { kind := .shorthand, key := some (name "b"), value := some (name "b") }])
  let s : LoweringState := { symbols := { current := { kind := .global, symbols := [
    { name := bytes "a", kind := .constant }, { name := bytes "b", kind := .constant }] } } }
  have htarget : pattern.IsTarget :=
    ⟨3, { final := { kind := .eof }, maxDepth := 100 },
      ⟨[], [{ kind := .mark .openBrace }, { kind := .identifier, value := bytes "k" },
        { kind := .mark .colon }, { kind := .identifier, value := bytes "a" },
        { kind := .mark .comma }, { kind := .identifier, value := bytes "b" },
        { kind := .mark .closeBrace }]⟩, _, rfl⟩
  have hnames : pattern.boundNames = [bytes "a", bytes "b"] := by
    simp [pattern, name, Node.boundNames_plain, Plain.bindings, Plain.subpatterns,
      Property.bindingPart]
  have hdeclared : ∀ name ∈ pattern.boundNames, ∃ symbol,
      s.symbols.lookup name = some symbol ∧ symbol.kind ≠ .import_ := by
    rw [hnames, List.forall_mem_cons, List.forall_mem_singleton]
    exact ⟨⟨_, rfl, by decide⟩, ⟨_, rfl, by decide⟩⟩
  have hadmits : s.Admits ([({ target := pattern } : Declarator Node)].flatMap
      (·.target.boundNames)) := by
    intro name _ symbol hfind
    have hsymbol := List.mem_of_find?_eq_some hfind
    simp only [s, List.mem_cons, List.not_mem_nil, or_false] at hsymbol
    rcases hsymbol with rfl | rfl <;> decide
  have hview : ((lowering [] 100 4).expression pattern s).1.toOption.isSome = true := by
    decide +kernel
  let options : ScriptOptions := { runtimeModule := [], format := .commonjs }
  have hwritten : ((lowering [] 100 4).moduleItem (.plain {} (.exportNamed (some (.plain {}
      (.variableDeclaration (bytes "const") [{ target := pattern }] false))) [] [] false))
      s).1.toOption.any (fun exported ↦
        ((emission options 4).statement exported 0 {}).toOption.isSome) = true := by
    decide +kernel
  generalize hlowered : (lowering [] 100 4).expression pattern s = lowered at hview
  obtain ⟨_ | view, t⟩ := lowered
  · cases hview
  generalize hexported : (lowering [] 100 4).moduleItem _ s = item at hwritten
  obtain ⟨_ | exported, u⟩ := item
  · cases hwritten
  simp only [Except.toOption, Option.any_some] at hwritten
  generalize htext : (emission options 4).statement exported 0 {} = written at hwritten
  obtain _ | ⟨text, state⟩ := written
  · cases hwritten
  have hbound := (boundNames_lowered [] 100 4 s t view).1 pattern htarget hdeclared hlowered
  obtain ⟨_, _, _, declared, -, -, rfl⟩ := (boundNames_lowered [] 100 4 s u exported).2 {} {} _
    _ _ _ _ _ (by simpa using htarget) hadmits hexported _ 3 0 {} state text rfl htext
  refine ⟨pattern, view, exported, s, t, u, state, declared, htarget, hnames, hlowered, ?_,
    hexported, ?_⟩
  · rw [hbound, hnames]
  · rw [htext, Declarator.valueNames, if_neg Bool.false_ne_true, List.flatMap_singleton, hnames]
    rfl

end SignalView
