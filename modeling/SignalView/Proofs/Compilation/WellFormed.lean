import Mathlib.Logic.Basic
import SignalView.Proofs.Compilation.Reading
import SignalView.Proofs.Lowering.Outcome
import SignalView.Proofs.Syntax.Parts

/-!
# Well-formed trees

What lowering and writing rely on without a check of their own holds of every node of a tree that
was read from a source, for literals and patterns alike. The parser settles it construct by
construct, and whatever the tree contains stands in a place where it fits.
-/

namespace SignalView

open Slot

namespace Node

/-- The node stands where statements do. -/
def IsStatement (node : Node) : Prop := ∃ Tag, node.Fits Tag .statement

/-- The node stands where expressions do. -/
def IsExpression (node : Node) : Prop := ∃ Tag, node.Fits Tag .expression

/-- A node is well-formed on its own, and so are the constants among its parts. -/
structure WellFormed (node : Node) : Prop where
  template : ∀ range quasis holes, node = .plain range (.template quasis holes) →
    quasis.length = holes.length + 1
  arrow : ∀ range f, node = .plain range (.arrow f) →
    Xor (∃ body, f.body = .block body ∧ body.IsStatement)
      (∃ value, f.body = .expression value ∧ value.IsExpression)
  shorthand : ∀ range properties, node = .plain range (.object properties) → ∀ p ∈ properties,
    p.kind = .shorthand → p.computed = false ∧ ∃ name key value, p.key = some key ∧
      key.name? = some name ∧ p.value = some value ∧ value.BindsPlainly name
  function : ∀ range properties, node = .plain range (.object properties) → ∀ p ∈ properties,
    p.kind = .method ∨ p.kind = .getter ∨ p.kind = .setter →
      ∃ value, p.value = some value ∧ value.HasBody
  constant : ∀ place range declarators,
    ⟨place, some (.plain range (.variableDeclaration (bytes "const") declarators false))⟩ ∈
      node.slots → place ≠ .loopHead → ∀ d ∈ declarators, d.init.isSome
  switch : ∀ range discriminant cases, node = .plain range (.switch discriminant cases) →
    cases.countP (·.test.isNone) ≤ 1
  tryCatch : ∀ range t, node = .plain range (.tryCatch t) → t.handler.isSome ∨ t.finalizer.isSome
  text : ∀ range raw value, node = .surface range (.text raw value) → value ≠ []

variable {Tag : Bytes → Prop} {node : Node} {place : Place}

/-- A constant that stands in a place outside of the heads of loops has a value. -/
theorem Fits.isSome_init {range : Range} {declarators : List (Declarator Node)}
    (h : (Node.plain range (.variableDeclaration (bytes "const") declarators false)).Fits Tag place)
    (hplace : place ≠ .loopHead) : ∀ d ∈ declarators, d.init.isSome := by
  cases h with
  | plain hstands hregular =>
    cases place with
    | statement => exact hregular rfl rfl rfl
    | loopHead => exact absurd rfl hplace
    | _ => cases hstands

theorem Fits.xor_body {range : Range} {f : Arrow Node}
    (h : (Node.plain range (.arrow f)).Fits Tag place) :
    Xor (∃ body, f.body = .block body ∧ body.IsStatement)
      (∃ value, f.body = .expression value ∧ value.IsExpression) := by
  have hslot {place' : Place} {part : Node} (hbody : ⟨place', some part⟩ ∈ f.body.slots) :
      part.Fits Tag place' :=
    h.of_slot (List.mem_append_right _ hbody)
  cases hbody : f.body with
  | block body =>
    have hfits : body.Fits Tag .statement := hslot (hbody ▸ List.mem_singleton_self _)
    refine .inl ⟨⟨body, rfl, Tag, hfits⟩, ?_⟩
    rintro ⟨value, ⟨⟩, -⟩
  | expression value =>
    have hfits : value.Fits Tag .expression := hslot (hbody ▸ List.mem_singleton_self _)
    refine .inr ⟨⟨value, rfl, Tag, hfits⟩, ?_⟩
    rintro ⟨body, ⟨⟩, -⟩

theorem Fits.regular_property {range : Range} {properties : List (Property Node)}
    (h : (Node.plain range (.object properties)).Fits Tag place) {p : Property Node}
    (hp : p ∈ properties) : p.Regular ∧ (p.kind ≠ .spread → p.key.isSome) ∧ p.value.isSome := by
  obtain ⟨-, hregular, hslots⟩ := fits_plain_iff.mp h
  have hparts := allHold_flatMap.mp hslots p hp
  rw [Property.slots, allHold_append, allHold_held, allHold_held] at hparts
  refine ⟨hregular p hp, fun hkind ↦ hparts.1.1 ?_, hparts.2.1 rfl⟩
  exact bne_iff_ne.mpr hkind

theorem Fits.wellFormed (h : node.Fits Tag place) : node.WellFormed where
  template := by
    rintro range quasis holes rfl
    exact (fits_plain_iff.mp h).2.1
  arrow := by
    rintro range f rfl
    exact h.xor_body
  shorthand := by
    rintro range properties rfl p hp hkind
    obtain ⟨hregular, -, hvalue⟩ := h.regular_property hp
    obtain ⟨value, hvalue⟩ := Option.isSome_iff_exists.mp hvalue
    rw [Property.Regular, hkind] at hregular
    obtain ⟨hcomputed, name, hname, hbinds⟩ := hregular
    obtain ⟨key, hkey, hname⟩ := Option.bind_eq_some_iff.mp hname
    exact ⟨hcomputed, name, key, value, hkey, hname, hvalue, hbinds value hvalue⟩
  function := by
    rintro range properties rfl p hp hkind
    obtain ⟨hregular, -, hvalue⟩ := h.regular_property hp
    obtain ⟨value, hvalue⟩ := Option.isSome_iff_exists.mp hvalue
    unfold Property.Regular at hregular
    rcases hkind with hkind | hkind | hkind <;> rw [hkind] at hregular
    all_goals exact ⟨value, hvalue, hregular value hvalue⟩
  constant := by
    intro place range declarators hslot hplace
    exact (h.of_slot hslot).isSome_init hplace
  switch := by
    rintro range discriminant cases rfl
    exact (fits_plain_iff.mp h).2.1
  tryCatch := by
    rintro range t rfl
    exact (fits_plain_iff.mp h).2.1
  text := by
    rintro range raw value rfl
    exact (fits_surface_iff.mp h).2.1

/-- A program of statements that fit is well-formed itself. -/
theorem wellFormed_program {range : Range} {body : List Node}
    (hbody : ∀ item ∈ body, item.Fits Tag .statement) :
    (Node.surface range (.program body)).WellFormed where
  template := nofun
  arrow := nofun
  shorthand := nofun
  function := nofun
  constant := by
    intro place range declarators hslot hplace
    obtain ⟨rfl, hitem⟩ := mem_filled.mp hslot
    exact (hbody _ hitem).isSome_init hplace
  switch := nofun
  tryCatch := nofun
  text := nofun

theorem WellFormed.hasComputedShorthand (h : node.WellFormed) :
    Lowering.hasComputedShorthand node = false := by
  unfold Lowering.hasComputedShorthand
  split
  · next range properties =>
    refine List.any_eq_false.mpr fun p hp ↦ ?_
    rw [Bool.and_eq_true, beq_iff_eq]
    rintro ⟨hcomputed, hkind⟩
    have hplain := (h.shorthand range properties rfl p hp hkind).1
    rw [hcomputed] at hplain
    cases hplain
  · rfl

end Node

namespace Lowering

/-- The complaint about parameters that bind no name under a computed key. -/
def namelessProp : Bytes := bytes "computed prop key needs a binding name"

theorem not_namelessProp_of_getLast? {message : Bytes} (h : message.getLast? ≠ some (byte 'e')) :
    ¬namelessProp <:+ message := by
  rintro ⟨front, rfl⟩
  have hlast : namelessProp.getLast? = some (byte 'e') := by decide
  rw [List.getLast?_append, hlast, Option.some_or] at h
  exact h rfl

/-- Without a computed shorthand the check of parameters has other complaints only. -/
theorem not_namelessProp_of_checkParams {name : Bytes} {line column : Nat} {seen : List Bytes}
    {params : List (Param Node)} {s t : LoweringState} {failure : Failure}
    (hparams : ∀ p ∈ params, ∀ pattern ∈ p.pattern, hasComputedShorthand pattern = false)
    (hrun : checkParams name line column seen params s = (.error failure, t)) :
    ¬namelessProp <:+ failure.message := by
  have hmalformed {complaint : Bytes} {line column : Nat} {last : UInt8}
      (hlast : complaint.getLast? = some last) (hne : last ≠ byte 'e')
      (hrun : (malformed name complaint line column : Lower Unit) s = (.error failure, t)) :
      ¬namelessProp <:+ failure.message := by
    obtain rfl := Except.error.inj (Prod.mk.inj hrun).1
    apply not_namelessProp_of_getLast?
    rw [List.getLast?_append, hlast, Option.some_or]
    exact fun heq ↦ hne (Option.some.inj heq)
  induction params generalizing seen with
  | nil => cases hrun
  | cons param rest ih =>
    obtain ⟨hparam, hrest⟩ := List.forall_mem_cons.mp hparams
    unfold checkParams at hrun
    cases hpattern : param.pattern with
    | none =>
      simp only [hpattern] at hrun
      exact hmalformed rfl (by decide) hrun
    | some pattern =>
      simp only [hpattern] at hrun
      by_cases hlast : (param.rest && !rest.isEmpty) = true
      · rw [if_pos hlast] at hrun
        exact hmalformed rfl (by decide) hrun
      rw [if_neg hlast, if_neg (Bool.not_eq_true _ ▸ hparam pattern hpattern)] at hrun
      cases hrepeated : firstRepeated seen pattern.boundNames with
      | some bound =>
        simp only [hrepeated] at hrun
        exact hmalformed List.getLast?_concat (by decide) hrun
      | none =>
        simp only [hrepeated] at hrun
        exact ih hrest hrun

end Lowering

/-- Every node of a tree that was read from a source in strict mode is well-formed, and the check
of the parameters of a component does not find a key without a name in it. -/
theorem Program.parse_wellFormed {lexing : LexerOptions} {options : Options} {source : Bytes}
    {tokens : List Token} {parsed : Parsed} (hstrict : lexing.mode = .strict)
    (htokens : (tokenize lexing source).result = .ok tokens)
    (hparse : parse options tokens = .ok parsed) :
    (∀ node, parsed.root.Contains node ∨ node ∈ parsed.root.descendants → node.WellFormed) ∧
    ∀ params : List (Param Node),
      (∀ p ∈ params, ∀ pattern ∈ p.pattern, parsed.root.Contains pattern) →
      ∀ name line column seen s t failure,
        Lowering.checkParams name line column seen params s = (.error failure, t) →
          ¬Lowering.namelessProp <:+ failure.message := by
  have hstream : Token.IsStream tokens := (tokenize_isTiling hstrict htokens).isStream
  obtain ⟨range, body, hroot, hbody⟩ := parse_root hstream hparse
  have hcontained (node : Node) (h : parsed.root.Contains node) : node.WellFormed := by
    rw [hroot] at h
    cases h with
    | self => exact Node.wellFormed_program hbody
    | surface hpart hinner =>
      obtain ⟨rfl, hitem⟩ := mem_filled.mp hpart
      obtain ⟨place, hfits⟩ := hinner.fits (hbody _ hitem)
      exact hfits.wellFormed
  refine ⟨fun node h ↦ ?_, fun params hparams name line column seen s t failure hrun ↦ ?_⟩
  · exact hcontained node (h.elim id .of_mem_descendants)
  · refine Lowering.not_namelessProp_of_checkParams (fun p hp pattern hpattern ↦ ?_) hrun
    exact (hcontained pattern (hparams p hp pattern hpattern)).hasComputedShorthand

theorem Node.exists_arrow {node : Node} (h : node.kindName = "ARROW_FUNCTION") :
    ∃ range f, node = .plain range (.arrow f) := by
  cases node with
  | plain range form =>
    cases form with
    | arrow f => exact ⟨range, f, rfl⟩
    | jump isBreak => cases isBreak <;> simp [kindName] at h
    | _ => simp [kindName] at h
  | surface _ form => cases form <;> simp [kindName] at h

/-- A function whose parameter is a shorthand with a default. The check of its parameters is one of
those that the tree allows for. -/
theorem Program.parse_wellFormed_shorthand :
    let lexed := (tokenize {} (bytes "const f = ({ a = 1 }) => a;")).result
    ∃ tokens, lexed = .ok tokens ∧ ∃ parsed, parse {} tokens = .ok parsed ∧
      ∃ range f, .plain range (.arrow f) ∈ parsed.root.descendants ∧
        (Node.plain range (.arrow f)).WellFormed ∧
        ∀ name line column seen s t failure,
          Lowering.checkParams name line column seen f.params s = (.error failure, t) →
            ¬Lowering.namelessProp <:+ failure.message := by
  intro lexed
  have hfound : ((lexed.toOption.bind fun tokens ↦ (parse {} tokens).toOption).any fun parsed ↦
      parsed.root.descendants.any (·.kindName == "ARROW_FUNCTION")) = true := by decide +kernel
  cases hlexed : lexed with
  | error => simp [hlexed, Except.toOption] at hfound
  | ok tokens =>
    cases hparsed : parse {} tokens with
    | error => simp [hlexed, hparsed, Except.toOption] at hfound
    | ok parsed =>
      simp only [hlexed, hparsed, Except.toOption, Option.bind_some, Option.any_some,
        List.any_eq_true] at hfound
      obtain ⟨node, hnode, hkind⟩ := hfound
      obtain ⟨range, f, rfl⟩ := Node.exists_arrow (beq_iff_eq.mp hkind)
      have hcontained := Node.Contains.of_mem_descendants hnode
      refine ⟨tokens, rfl, parsed, hparsed, range, f, hnode, ?_, ?_⟩
      · exact (parse_wellFormed rfl hlexed hparsed).1 _ (.inr hnode)
      · refine (parse_wellFormed rfl hlexed hparsed).2 f.params fun p hp pattern hpattern ↦ ?_
        have hslot : ⟨.expression, some pattern⟩ ∈ p.slots := by
          simp only [Param.slots, List.mem_append, mem_held]
          exact .inl (.inr ⟨trivial, hpattern⟩)
        have harrow : ⟨.expression, some pattern⟩ ∈ f.slots :=
          List.mem_append_left _ (List.mem_flatMap.mpr ⟨p, hp, hslot⟩)
        exact hcontained.trans (.plain harrow (.self pattern))

end SignalView
