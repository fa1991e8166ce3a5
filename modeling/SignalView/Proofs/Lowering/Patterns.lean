import SignalView.Proofs.Lowering.Scopes
import SignalView.Proofs.View.Sound

/-!
# Lowering patterns

A pattern whose names are declared, none of them as an import, gives values to the names that it
bound when it has been lowered. Parameters are declared before their patterns are lowered, and they
are the only names in their scope, so this is the case of them.
-/

namespace SignalView

open Slot

/-! ## Bound names -/

namespace Plain

variable {α : Type}

/-- The name of an identifier, or those of the patterns that another pattern is made of. -/
def bindings (rule : Property α → Option α) (names : α → List Bytes) : Plain α → List Bytes
  | .identifier name => [name]
  | form => (form.subpatterns rule).flatMap names

end Plain

theorem Node.boundNames_plain (range : Range) (form : Plain Node) :
    (Node.plain range form).boundNames = form.bindings (·.bindingPart) Node.boundNames := by
  cases form <;> simp [Node.boundNames, Plain.bindings, Plain.subpatterns]

theorem View.boundNames_plain (line column : Nat) (form : Plain View) :
    (View.plain line column form).boundNames = form.bindings (·.assignedPart) View.boundNames := by
  cases form <;> simp [View.boundNames, Plain.bindings, Plain.subpatterns]

theorem View.boundNames_rendered (line column : Nat) (form : Rendered View) :
    (View.rendered line column form).boundNames = [] := by
  rw [boundNames]

theorem Node.boundNames_surface (range : Range) (form : Surface Node) :
    (Node.surface range form).boundNames = [] := by
  rw [boundNames]

/-- A pattern in which every property has a value, and which does not stand in braces of markup. -/
inductive Node.Explicit : Node → Prop
  | plain {range : Range} {form : Plain Node}
    (hvalues : ∀ properties, form = .object properties → ∀ p ∈ properties, p.value.isSome)
    (hparts : ∀ part ∈ form.subpatterns (·.bindingPart), part.Explicit) :
    Explicit (.plain range form)
  | surface {range : Range} {form : Surface Node} (h : ∀ inner, form ≠ .container inner) :
    Explicit (.surface range form)

/-- What stands as an expression or as the value of a property has a value in every property. -/
theorem Node.Fits.explicit {Tag : Bytes → Prop} {place : Place} {node : Node}
    (h : node.Fits Tag place)
    (hplace : place = .expression ∨ place = .function ∨ place = .key) : node.Explicit := by
  cases node with
  | plain range form =>
    obtain ⟨-, -, hslots⟩ := Node.fits_plain_iff.mp h
    have hvalues : ∀ properties, form = .object properties →
        ∀ p ∈ properties, ∃ value, p.value = some value ∧ value.Fits Tag p.kind.valuePlace := by
      rintro properties rfl p hp
      simp only [Plain.slots, allHold_flatMap, Property.slots, allHold_append,
        allHold_held] at hslots
      obtain ⟨value, hvalue⟩ := Option.isSome_iff_exists.mp ((hslots p hp).2.1 trivial)
      exact ⟨value, hvalue, (hslots p hp).2.2 value hvalue⟩
    refine .plain (fun properties hform p hp ↦ ?_) fun part hpart ↦ ?_
    · obtain ⟨value, hvalue, -⟩ := hvalues properties hform p hp
      rw [hvalue, Option.isSome_some]
    · have hsize := Plain.sizeOf_lt_of_mem_subpatterns Property.eq_or_eq_of_bindingPart hpart
      cases form with
      | array elements =>
        simp only [Plain.slots, allHold_filled] at hslots
        exact (hslots part hpart).explicit (.inl rfl)
      | object properties =>
        obtain ⟨p, hp, hpart⟩ := List.mem_flatMap.mp hpart
        obtain ⟨value, hvalue, hfits⟩ := hvalues properties rfl p hp
        obtain rfl : part = value := by simpa [Property.bindingPart, hvalue] using hpart
        refine hfits.explicit ?_
        cases p.kind <;> simp [PropertyKind.valuePlace]
      | spread argument =>
        obtain rfl := List.mem_singleton.mp hpart
        simp only [Plain.slots, allHold_filled, List.forall_mem_singleton] at hslots
        exact hslots.explicit (.inl rfl)
      | assignmentPattern target initial =>
        obtain rfl := List.mem_singleton.mp hpart
        simp only [Plain.slots, allHold_filled, List.forall_mem_cons] at hslots
        exact hslots.1.explicit (.inl rfl)
      | _ => cases hpart
  | surface range form =>
    obtain ⟨hstands, -, -⟩ := Node.fits_surface_iff.mp h
    refine .surface fun inner hform ↦ ?_
    subst hform
    rcases hplace with rfl | rfl | rfl <;> cases hstands
termination_by sizeOf node
decreasing_by
  all_goals
    simp_all
    omega

/-- Lists of patterns that bind the same names one by one bind the same names. -/
theorem List.Forall₂.flatMap_eq {α β γ : Type} {f : α → List γ} {g : β → List γ} {as : List α}
    {bs : List β} (h : List.Forall₂ (fun a b ↦ g b = f a) as bs) : bs.flatMap g = as.flatMap f := by
  induction h with
  | nil => rfl
  | cons hab _ ih => rw [List.flatMap_cons, List.flatMap_cons, hab, ih]

/-! ## Partial correctness -/

namespace Lower

variable {α β : Type} {P : LoweringState → Prop} {action : Lower α} {next : α → Lower β}
  {Q : α → Prop} {R : β → Prop}

/-- From a state with a property the action leads to one that has it as well, when it gives a value,
and the value is of a kind. -/
def Ensures (P : LoweringState → Prop) (action : Lower α) (Q : α → Prop) : Prop :=
  ∀ ⦃s value t⦄, P s → action s = (.ok value, t) → P t ∧ Q value

namespace Ensures

theorem pure {value : α} (h : Q value) : Ensures P (Pure.pure value) Q := by
  intro s _ t hs hrun
  cases hrun
  exact ⟨hs, h⟩

theorem bind (h : Ensures P action Q) (hnext : ∀ value, Q value → Ensures P (next value) R) :
    Ensures P (action >>= next) R := by
  intro s result t hs hrun
  obtain ⟨value, middle, hvalue, hresult⟩ := bind_eq_ok.mp hrun
  obtain ⟨hmiddle, hvalue⟩ := h hs hvalue
  exact hnext value hvalue hmiddle hresult

theorem ite {c : Prop} [Decidable c] {other : Lower α} (h : c → Ensures P action Q)
    (hother : ¬c → Ensures P other Q) : Ensures P (if c then action else other) Q := by
  split
  · next hc => exact h hc
  · next hc => exact hother hc

theorem fail (failure : Failure) : Ensures P (Lower.fail failure) Q := by
  intro s _ t _ hrun
  cases hrun

theorem mapM {S : α → β → Prop} {f : α → Lower β} {items : List α}
    (h : ∀ item ∈ items, Ensures P (f item) (S item)) :
    Ensures P (items.mapM f) (List.Forall₂ S items) := by
  induction items with
  | nil => exact pure .nil
  | cons item items ih =>
    rw [List.mapM_cons]
    refine (h item List.mem_cons_self).bind fun value hvalue ↦ ?_
    refine (ih fun _ hmem ↦ h _ (List.mem_cons_of_mem _ hmem)).bind fun values hvalues ↦ ?_
    exact pure (.cons hvalue hvalues)

theorem optionMapM {S : α → β → Prop} {f : α → Lower β} {item : Option α}
    (h : ∀ value ∈ item, Ensures P (f value) (S value)) :
    Ensures P (item.mapM f) (Option.Rel S item) := by
  cases item with
  | none => exact pure .none
  | some item => exact (h item rfl).bind fun _ hvalue ↦ pure (.some hvalue)

end Ensures

end Lower

/-! ## Names that stay -/

open Lower

/-- The names are declared, none of them as an import. A name without characters is never declared,
and never stands for anything else. -/
def LoweringState.Resolves (names : List Bytes) (s : LoweringState) : Prop :=
  ∀ name ∈ names, name = [] ∨
    ∃ symbol, s.symbols.lookup name = some symbol ∧ symbol.kind ≠ .import_

variable {names : List Bytes}

theorem LoweringState.Resolves.extends {s t : LoweringState} (h : s.Resolves names)
    (hextends : s.Extends ∅ t) : t.Resolves names := by
  refine fun name hname ↦ (h name hname).imp id ?_
  rintro ⟨symbol, hlookup, hkind⟩
  have hlater := hextends.symbols.lookup (Set.notMem_empty name)
  rw [hlookup] at hlater
  generalize t.symbols.lookup name = later at hlater
  cases hlater with
  | some hmarks => exact ⟨_, rfl, hmarks.kind_eq ▸ hkind⟩

namespace Lower

variable {α : Type} {action : Lower α}

/-- Whatever keeps the scopes keeps the meaning of names. -/
theorem Keeps.resolves (h : action.Keeps ∅) :
    Ensures (LoweringState.Resolves names) action fun _ ↦ True :=
  fun _ _ _ hs hrun ↦ ⟨hs.extends (h hrun), trivial⟩

/-- A name that is declared is replaced only where it was imported and is that of a primitive. -/
theorem resolve_declared {s t : LoweringState} {name value : Bytes} {symbol : Symbol}
    (hlookup : s.symbols.lookup name = some symbol)
    (hname : symbol.kind ≠ .import_ ∨ Primitive.ofName? name = none)
    (h : resolve name s = (.ok value, t)) : value = name := by
  obtain ⟨_, _, ⟨⟩, h⟩ := bind_eq_ok.mp h
  simp only [hlookup] at h
  obtain ⟨_, _, ⟨⟩, h⟩ := bind_eq_ok.mp h
  cases hruntime : s.runtimeNames.lookup name with
  | none =>
    simp only [hruntime] at h
    cases h
    rfl
  | some canonical =>
    simp only [hruntime] at h
    by_cases himport : symbol.kind = .import_
    · rw [if_pos (by simpa using himport)] at h
      obtain ⟨_, _, -, h⟩ := bind_eq_ok.mp h
      rw [hname.resolve_left (not_not.mpr himport)] at h
      cases h
      rfl
    · rw [if_neg (by simpa using himport)] at h
      cases h
      rfl

theorem resolve_undeclared {s t : LoweringState} {name value : Bytes}
    (hlookup : s.symbols.lookup name = none) (hname : Primitive.isImplicit name = false)
    (h : resolve name s = (.ok value, t)) : value = name := by
  obtain ⟨_, _, ⟨⟩, h⟩ := bind_eq_ok.mp h
  simp only [hlookup, hname] at h
  cases h
  rfl

/-- A name that is declared is written as it is. -/
theorem resolve_ensures {name : Bytes} (hname : name ∈ names) :
    Ensures (LoweringState.Resolves names) (resolve name) (· = name) := by
  intro s value t hs hrun
  refine ⟨(resolve_keeps name).resolves hs hrun |>.1, ?_⟩
  obtain rfl | ⟨symbol, hlookup, hkind⟩ := hs name hname
  · cases hlookup : s.symbols.lookup [] with
    | none => exact resolve_undeclared hlookup rfl hrun
    | some symbol => exact resolve_declared hlookup (.inr rfl) hrun
  · exact resolve_declared hlookup (.inl hkind) hrun

end Lower

/-! ## Patterns -/

namespace Lowering

/-- The entry points keep scopes, and patterns with declared names bind what they bound. -/
structure ReadsPatterns (l : Lowering) : Prop where
  restores : l.Restores
  expression {node : Node} (h : node.Explicit) {names : List Bytes}
    (hnames : ∀ name ∈ node.boundNames, name ∈ names) :
    Ensures (LoweringState.Resolves names) (l.expression node) (·.boundNames = node.boundNames)
  element (node : Node) {names : List Bytes} :
    Ensures (LoweringState.Resolves names) (l.element node) (·.boundNames = [])

variable {l : Lowering} (h : l.ReadsPatterns)

include h

theorem patterns_ensures {nodes : List Node} (hnodes : ∀ node ∈ nodes, node.Explicit)
    (hnames : ∀ name ∈ nodes.flatMap Node.boundNames, name ∈ names) :
    Ensures (LoweringState.Resolves names) (l.expressions nodes) fun views ↦
      views.flatMap View.boundNames = nodes.flatMap Node.boundNames := by
  intro s views t hs hrun
  have hrun := Ensures.mapM (S := fun node view ↦ View.boundNames view = Node.boundNames node)
    (fun node hnode ↦ h.expression (hnodes node hnode) fun name hname ↦
      hnames name (List.mem_flatMap.mpr ⟨node, hnode, hname⟩)) hs hrun
  exact ⟨hrun.1, List.Forall₂.flatMap_eq hrun.2⟩

/-- What a property binds is in its value, and its lowered value is assigned to. -/
theorem property_ensures {p : Property Node} {value : Node} (hvalue : p.value = some value)
    (hexplicit : value.Explicit)
    (hnames : ∀ name ∈ p.bindingPart.toList.flatMap Node.boundNames, name ∈ names) :
    Ensures (LoweringState.Resolves names) (l.property p) fun q ↦
      q.assignedPart.toList.flatMap View.boundNames =
        p.bindingPart.toList.flatMap Node.boundNames := by
  simp only [Property.bindingPart, hvalue, Option.toList_some, List.flatMap_singleton] at hnames ⊢
  have hkeeps : (p.key.mapM (l.propertyKey p.computed)).Keeps ∅ :=
    .optionMapM fun key _ ↦ propertyKey_keeps h.restores _ key
  refine hkeeps.resolves.bind fun key _ ↦ ?_
  refine (Ensures.optionMapM (S := fun node view ↦ View.boundNames view = Node.boundNames node)
    fun part hpart ↦ ?_).bind fun lowered hlowered ↦ ?_
  · obtain rfl : value = part := Option.some.inj (hvalue.symm.trans hpart)
    exact h.expression hexplicit hnames
  · rw [hvalue] at hlowered
    cases hlowered with
    | some hbound => exact .pure (by simpa [Property.assignedPart] using hbound)

theorem plainExpression_ensures {node : Node} {form : Plain Node}
    (hvalues : ∀ properties, form = .object properties → ∀ p ∈ properties, p.value.isSome)
    (hparts : ∀ part ∈ form.subpatterns (·.bindingPart), part.Explicit)
    (hnames : ∀ name ∈ form.bindings (·.bindingPart) Node.boundNames, name ∈ names) :
    Ensures (LoweringState.Resolves names) (l.plainExpression node form) fun lowered ↦
      lowered.bindings (·.assignedPart) View.boundNames =
        form.bindings (·.bindingPart) Node.boundNames := by
  have hvalue (node : Node) :
      Ensures (LoweringState.Resolves names) (l.expression node) fun _ ↦ True :=
    (h.restores.expression node).resolves
  have hlist (nodes : List Node) :
      Ensures (LoweringState.Resolves names) (l.expressions nodes) fun _ ↦ True :=
    (expressions_keeps h.restores nodes).resolves
  cases form with
  | identifier name =>
    exact (resolve_ensures (hnames name List.mem_cons_self)).bind fun _ hname ↦
      .pure (by simp [Plain.bindings, hname])
  | array elements =>
    exact (patterns_ensures h hparts hnames).bind fun _ hviews ↦ .pure hviews
  | object properties =>
    simp only [Plain.bindings, Plain.subpatterns, List.flatMap_assoc] at hnames ⊢
    have hproperty (p : Property Node) (hp : p ∈ properties) :
        Ensures (LoweringState.Resolves names) (l.property p) fun q ↦
          q.assignedPart.toList.flatMap View.boundNames =
            p.bindingPart.toList.flatMap Node.boundNames := by
      obtain ⟨value, hvalue⟩ := Option.isSome_iff_exists.mp (hvalues properties rfl p hp)
      refine property_ensures h hvalue (hparts value (List.mem_flatMap.mpr ⟨p, hp, ?_⟩))
        fun name hname ↦ hnames name (List.mem_flatMap.mpr ⟨p, hp, hname⟩)
      simp [Property.bindingPart, hvalue]
    refine (Ensures.mapM hproperty).bind fun lowered hlowered ↦ .pure ?_
    simpa only [List.flatMap_assoc] using List.Forall₂.flatMap_eq hlowered
  | spread argument =>
    simp only [Plain.bindings, Plain.subpatterns, List.flatMap_singleton] at hnames ⊢
    have hargument := hparts argument List.mem_cons_self
    refine (h.expression hargument hnames).bind fun view hview ↦ .pure ?_
    simpa using hview
  | assignmentPattern target initial =>
    simp only [Plain.bindings, Plain.subpatterns, List.flatMap_singleton] at hnames ⊢
    have htarget := hparts target List.mem_cons_self
    refine (h.expression htarget hnames).bind fun view hview ↦ ?_
    exact (hvalue initial).bind fun _ _ ↦ .pure (by simpa using hview)
  -- the other forms bind nothing, and neither does what they are lowered to
  | number | string | regex | boolean | null | this | super | omitted => exact .pure rfl
  | unary | await | paren | cast | nonNull => exact (hvalue _).bind fun _ _ ↦ .pure rfl
  | taggedTemplate | binary | assignment =>
    exact (hvalue _).bind fun _ _ ↦ (hvalue _).bind fun _ _ ↦ .pure rfl
  | template | sequence => exact (hlist _).bind fun _ _ ↦ .pure rfl
  | function f =>
    exact (functionExpression_keeps h.restores _ _ f).resolves.bind fun _ _ ↦ .pure rfl
  | arrow f => exact (arrow_keeps h.restores f).resolves.bind fun _ _ ↦ .pure rfl
  | yield => exact (optionalExpression_keeps h.restores _).resolves.bind fun _ _ ↦ .pure rfl
  | conditional =>
    refine (hvalue _).bind fun _ _ ↦ (hvalue _).bind fun _ _ ↦ ?_
    exact (hvalue _).bind fun _ _ ↦ .pure rfl
  | call => exact (hvalue _).bind fun _ _ ↦ (hlist _).bind fun _ _ ↦ .pure rfl
  | new callee _ args =>
    have hargs : (args.mapM l.expressions).Keeps ∅ :=
      .optionMapM fun args _ ↦ expressions_keeps h.restores args
    exact (hvalue _).bind fun _ _ ↦ hargs.resolves.bind fun _ _ ↦ .pure rfl
  | member receiver key =>
    exact (hvalue _).bind fun _ _ ↦ (memberKey_keeps h.restores key).resolves.bind fun _ _ ↦
      .pure rfl
  | _ => exact .fail _

theorem expressionStep_ensures {node : Node} (hnode : node.Explicit)
    (hnames : ∀ name ∈ node.boundNames, name ∈ names) :
    Ensures (LoweringState.Resolves names) (l.expressionStep node)
      (·.boundNames = node.boundNames) := by
  cases hnode with
  | @plain range form hvalues hparts =>
    rw [Node.boundNames_plain] at hnames ⊢
    refine (plainExpression_ensures h hvalues hparts hnames).bind fun lowered hlowered ↦ .pure ?_
    rw [View.boundNames_plain, hlowered]
  | @surface range form hform =>
    rw [Node.boundNames_surface]
    unfold expressionStep
    split
    · next hplain => cases hplain
    · next hsurface =>
      cases hsurface
      split
      · refine (classShape_keeps h.restores _).resolves.bind fun _ _ ↦ .pure ?_
        exact View.boundNames_rendered _ _ _
      · exact h.element _
      · exact h.element _
      · exact .pure (View.boundNames_rendered _ _ _)
      · exact absurd rfl (hform _)
      · exact absurd rfl (hform _)
      · exact .fail _

theorem elementStep_ensures (node : Node) :
    Ensures (LoweringState.Resolves names) (l.elementStep node) (·.boundNames = []) := by
  intro s view t hs hrun
  refine ⟨((elementStep_keeps h.restores node).resolves hs hrun).1, ?_⟩
  have hrendered : Ensures (fun _ ↦ True) (l.elementStep node) fun view ↦
      ∃ line column form, view = .rendered line column form := by
    have hany {α : Type} (action : Lower α) : Ensures (fun _ ↦ True) action fun _ ↦ True :=
      fun _ _ _ _ _ ↦ ⟨trivial, trivial⟩
    unfold elementStep
    split
    · refine .ite (fun _ ↦ .bind (Q := fun _ ↦ False) (.fail _) nofun) fun _ ↦ ?_
      exact (hany _).bind fun _ _ ↦ .ite (fun _ ↦ (hany _).bind fun _ _ ↦ .pure ⟨_, _, _, rfl⟩)
        fun _ ↦ (hany _).bind fun _ _ ↦ .pure ⟨_, _, _, rfl⟩
    · exact (hany _).bind fun _ _ ↦ (hany _).bind fun _ _ ↦ .pure ⟨_, _, _, rfl⟩
    · exact .fail _
  obtain ⟨-, line, column, form, rfl⟩ := hrendered trivial hrun
  exact View.boundNames_rendered _ _ _

end Lowering

theorem lowering_readsPatterns (runtimeModule : Bytes) (limit : Int) (level : Nat) :
    (lowering runtimeModule limit level).ReadsPatterns := by
  induction level with
  | zero => exact ⟨lowering_restores _ _ _, fun _ _ _ ↦ .fail _, fun _ _ ↦ .fail _⟩
  | succ level ih =>
    exact {
      restores := lowering_restores _ _ _
      expression := fun hnode _ ↦ Lowering.expressionStep_ensures ih hnode
      element := fun node _ ↦ Lowering.elementStep_ensures ih node }

/-! ## Declaring names -/

namespace LoweringState

/-- The current scope declares the names, none of them as an import. -/
def Settles (names : List Bytes) (s : LoweringState) : Prop :=
  ∀ name ∈ names, name = [] ∨
    ∃ symbol, s.symbols.current.find? name = some symbol ∧ symbol.kind ≠ .import_

/-- The current scope has none of the names as an import. -/
def Admits (names : List Bytes) (s : LoweringState) : Prop :=
  ∀ name ∈ names, ∀ symbol, s.symbols.current.find? name = some symbol → symbol.kind ≠ .import_

variable {s t : LoweringState}

theorem Settles.extends {more : Set Bytes} (h : s.Settles names) (hextends : s.Extends more t) :
    t.Settles names := by
  refine fun name hname ↦ (h name hname).imp id ?_
  rintro ⟨symbol, hfind, hkind⟩
  obtain ⟨marked, hmarked, hmarks⟩ := hextends.symbols.current.find?_some hfind
  exact ⟨marked, hmarked, hmarks.kind_eq ▸ hkind⟩

theorem Settles.resolves (h : s.Settles names) : s.Resolves names := by
  refine fun name hname ↦ (h name hname).imp id ?_
  rintro ⟨symbol, hfind, hkind⟩
  refine ⟨symbol, ?_, hkind⟩
  rw [SymbolTable.lookup_eq, hfind, Option.some_or]

theorem Admits.extends (h : s.Admits names) (hextends : s.Extends ∅ t) : t.Admits names := by
  intro name hname symbol hfind
  cases hbefore : s.symbols.current.find? name with
  | none =>
    rw [hextends.symbols.current.find?_none (Set.notMem_empty name) hbefore] at hfind
    cases hfind
  | some before =>
    obtain ⟨marked, hmarked, hmarks⟩ := hextends.symbols.current.find?_some hbefore
    obtain rfl := Option.some.inj (hfind.symm.trans hmarked)
    exact hmarks.kind_eq ▸ h name hname before hbefore

end LoweringState

namespace Lower

variable {α β : Type} {all more : List Bytes}

theorem Keeps.admits {action : Lower α} (h : action.Keeps ∅) :
    Ensures (LoweringState.Admits all) action fun _ ↦ True :=
  fun _ _ _ hs hrun ↦ ⟨hs.extends (h hrun), trivial⟩

/-- Where the current scope has none of the names of a list as an import, the action declares some
names, none of them as an import. -/
def Settling (all names : List Bytes) (action : Lower α) : Prop :=
  ∀ ⦃s value t⦄, s.Admits all → action s = (.ok value, t) → t.Admits all ∧ t.Settles names

theorem Settling.bind {first : Lower α} {next : α → Lower β} (h : Settling all names first)
    (hnext : ∀ value, Settling all more (next value))
    (hkeeps : ∀ value, (next value).Keeps Set.univ) :
    Settling all (names ++ more) (first >>= next) := by
  intro s result t hs hrun
  obtain ⟨value, middle, hfirst, hrun⟩ := bind_eq_ok.mp hrun
  obtain ⟨hmiddle, hnames⟩ := h hs hfirst
  obtain ⟨ht, hmore⟩ := hnext value hmiddle hrun
  refine ⟨ht, fun name hname ↦ ?_⟩
  obtain hname | hname := List.mem_append.mp hname
  · exact hnames.extends (hkeeps value hrun) name hname
  · exact hmore name hname

theorem Settling.pure (value : α) : Settling all [] (Pure.pure value) := by
  intro s _ t hs hrun
  cases hrun
  exact ⟨hs, by simp [LoweringState.Settles]⟩

theorem Settling.forM {items : List α} {names : α → List Bytes} {f : α → Lower Unit}
    (h : ∀ item ∈ items, Settling all (names item) (f item))
    (hkeeps : ∀ item ∈ items, (f item).Keeps Set.univ) :
    Settling all (items.flatMap names) (items.forM f) := by
  induction items with
  | nil => exact .pure ()
  | cons item items ih =>
    rw [List.forall_mem_cons] at h hkeeps
    exact h.1.bind (fun _ ↦ ih h.2 hkeeps.2) fun _ ↦ .forM hkeeps.2

theorem declare_settling (keyword : Bytes) {name : Bytes} (hname : name ∈ all) {kind : SymbolKind}
    (hkind : kind ≠ .import_) (type : Bytes) (line column : Nat) :
    Settling all [name] (declare keyword name kind type line column) := by
  intro s _ t hs hrun
  simp only [LoweringState.Settles, List.forall_mem_singleton]
  unfold declare at hrun
  split at hrun
  · next hempty =>
    cases hrun
    exact ⟨hs, .inl (List.isEmpty_iff.mp hempty)⟩
  · obtain ⟨_, _, ⟨⟩, hrun⟩ := bind_eq_ok.mp hrun
    unfold SymbolTable.declare? at hrun
    by_cases hdeclares : s.symbols.current.declares name = true
    · simp only [hdeclares, if_true] at hrun
      have hsame : t.symbols = s.symbols := by
        split at hrun
        · cases hrun
          rfl
        · cases hrun
          rfl
      obtain ⟨symbol, hfind⟩ := Option.isSome_iff_exists.mp hdeclares
      rw [LoweringState.Admits, hsame]
      exact ⟨hs, .inr ⟨symbol, hfind, hs name hname symbol hfind⟩⟩
    · simp only [hdeclares] at hrun
      cases hrun
      have hnone : s.symbols.current.find? name = none := by
        simpa [Scope.declares] using hdeclares
      let new : Symbol :=
        { name, kind, type, line, column, serial := s.symbols.declarations }
      refine ⟨fun other hother symbol hfind ↦ ?_, .inr ⟨new, ?_, hkind⟩⟩
      · simp only [Scope.find?, List.find?_append, List.find?_singleton] at hfind
        obtain hfind | ⟨-, hfind⟩ := Option.or_eq_some_iff.mp hfind
        · exact hs other hother symbol hfind
        · split at hfind
          · cases hfind
            exact hkind
          · cases hfind
      · simp only [Scope.find?] at hnone
        simp [Scope.find?, hnone, new]

theorem declarePattern_settling (keyword : Bytes) {kind : SymbolKind} (hkind : kind ≠ .import_)
    (type : Bytes) {pattern : Node} (hnames : ∀ name ∈ pattern.boundNames, name ∈ all) :
    Settling all pattern.boundNames (declarePattern keyword kind type pattern) := by
  unfold declarePattern
  split
  · next name hname =>
    rw [Node.boundNames_of_name? hname] at hnames ⊢
    exact declare_settling _ (hnames name List.mem_cons_self) hkind _ _ _
  · have hsettling : Settling all (pattern.boundNames.flatMap fun name ↦ [name])
        (pattern.boundNames.forM fun name ↦
          declare keyword name kind [] pattern.line pattern.column) :=
      .forM (fun name hname ↦ declare_settling _ (hnames name hname) hkind _ _ _) fun _ _ ↦
        declare_keeps _ (Set.mem_univ _) _ _ _ _
    simpa only [List.flatMap_singleton'] using hsettling

theorem declareParams_settling {params : List (Param Node)}
    (hnames : ∀ name ∈ params.flatMap (·.boundNames Node.boundNames), name ∈ all) :
    Settling all (params.flatMap (·.boundNames Node.boundNames)) (declareParams params) := by
  refine .forM (fun p hp ↦ ?_) fun p _ ↦ .optionForM fun _ _ ↦
    declarePattern_keeps _ _ _ fun _ _ ↦ Set.mem_univ _
  have hp (name : Bytes) (hname : name ∈ p.boundNames Node.boundNames) : name ∈ all :=
    hnames name (List.mem_flatMap.mpr ⟨p, hp, hname⟩)
  rw [Param.boundNames] at hp ⊢
  cases hpattern : p.pattern with
  | none => exact .pure ()
  | some pattern =>
    rw [hpattern] at hp
    rw [Option.toList_some, List.flatMap_singleton] at hp ⊢
    exact declarePattern_settling _ (by decide) _ hp

end Lower

/-! ## Parameters -/

namespace Lowering

variable {l : Lowering} (h : l.ReadsPatterns)

include h

/-- Parameters with declared names are lowered to ones that bind the same names. -/
theorem params_ensures {Tag : Bytes → Prop} {ps : List (Param Node)}
    (hps : ∀ p ∈ ps, AllHold (Node.Fits Tag) p.slots)
    (hnames : ∀ name ∈ ps.flatMap (·.boundNames Node.boundNames), name ∈ names) :
    Ensures (LoweringState.Resolves names) (l.params ps) (List.Forall₂ (fun p q ↦
      q.rest = p.rest ∧ q.boundNames View.boundNames = p.boundNames Node.boundNames) ps) := by
  refine .mapM fun p hp ↦ ?_
  obtain ⟨-, ⟨-, hpattern⟩, -⟩ := by simpa [Param.slots] using hps p hp
  refine (expressions_keeps h.restores _).resolves.bind fun _ _ ↦ ?_
  refine (Ensures.optionMapM (S := fun node view ↦ View.boundNames view = Node.boundNames node)
    fun part hpart ↦ h.expression ((hpattern part hpart).explicit (.inl rfl)) fun name hname ↦
      hnames name (List.mem_flatMap.mpr ⟨p, hp, ?_⟩)).bind fun pattern hbound ↦ ?_
  · simpa [Param.boundNames, Option.mem_def.mp hpart] using hname
  refine (optionalExpression_keeps h.restores _).resolves.bind fun _ _ ↦ .pure ⟨rfl, ?_⟩
  simp only [Param.boundNames]
  generalize p.pattern = original at hbound
  cases hbound with
  | none => rfl
  | some hbound => simpa using hbound

end Lowering

end SignalView
