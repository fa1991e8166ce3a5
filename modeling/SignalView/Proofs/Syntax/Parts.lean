import SignalView.Proofs.Syntax.Places
import SignalView.Proofs.Syntax.Ways

/-!
# What a tree contains

A construct contains whatever stands in its slots, and what these contain. The walk over the
descendants of a node comes by all of it, apart from keys that are plain names. Every child of a
construct stands in one of its slots. So a tree contains all descendants of its root, and what holds
of everything that it contains holds of these.
-/

namespace SignalView

open Slot

/-! ## Slots and children -/

namespace Slot

variable {α : Type} {place place' : Place} {part : α}

@[simp]
theorem mem_filled {parts : List α} :
    ⟨place', some part⟩ ∈ filled place parts ↔ place' = place ∧ part ∈ parts := by
  simp only [filled, List.mem_map, Slot.mk.injEq, Option.some.injEq]
  constructor
  · rintro ⟨_, hmem, rfl, rfl⟩
    exact ⟨rfl, hmem⟩
  · rintro ⟨rfl, hmem⟩
    exact ⟨part, hmem, rfl, rfl⟩

@[simp]
theorem mem_held {required : Bool} {content : Option α} :
    ⟨place', some part⟩ ∈ held required place content ↔ place' = place ∧ content = some part := by
  unfold held
  split
  · simp [eq_comm]
  · simp

end Slot

section Children

variable {α : Type} {place : Place} {part : α}

theorem Param.mem_children {p : Param α} (h : ⟨place, some part⟩ ∈ p.slots) :
    part ∈ p.children := by
  simp only [Param.slots, List.mem_append, mem_filled, mem_held, Option.mem_toList] at h
  simp only [Param.children, List.mem_append, Option.mem_toList]
  grind

theorem Callable.mem_children {f : Callable α} (h : ⟨place, some part⟩ ∈ f.slots) :
    part ∈ f.children := by
  rw [Callable.slots, List.mem_append, List.mem_flatMap] at h
  rw [Callable.children, List.mem_append, List.mem_flatMap]
  obtain ⟨p, hp, hslot⟩ | hbody := h
  · exact .inl ⟨p, hp, p.mem_children hslot⟩
  · exact .inr (mem_filled.mp hbody).2

theorem Arrow.mem_children {f : Arrow α} (h : ⟨place, some part⟩ ∈ f.slots) :
    part ∈ f.children := by
  rw [Arrow.slots, List.mem_append, List.mem_flatMap] at h
  rw [Arrow.children, List.mem_append, List.mem_flatMap]
  obtain ⟨p, hp, hslot⟩ | hbody := h
  · exact .inl ⟨p, hp, p.mem_children hslot⟩
  · cases hform : f.body <;> simp_all [ArrowBody.slots, ArrowBody.node]

theorem Property.mem_children {p : Property α} (h : ⟨place, some part⟩ ∈ p.slots) :
    part ∈ p.children ∨ place = .key := by
  simp only [Property.slots, List.mem_append, mem_held] at h
  simp only [Property.children, List.mem_append, Option.mem_toList]
  obtain ⟨rfl, hkey⟩ | ⟨rfl, hvalue⟩ := h
  · cases hcomputed : p.computed <;> simp [keyPlace, hkey]
  · exact .inl (.inr hvalue)

theorem ClassMember.mem_children {m : ClassMember α} (h : ⟨place, some part⟩ ∈ m.slots) :
    part ∈ m.children ∨ place = .key := by
  simp only [ClassMember.slots, List.mem_append, mem_filled, mem_held] at h
  simp only [ClassMember.children, List.mem_append, Option.mem_toList]
  obtain ((⟨rfl, hmem⟩ | ⟨rfl, hkey⟩) | ⟨rfl, hvalue⟩) | ⟨rfl, hblock⟩ := h
  · exact .inl (.inl (.inl (.inl hmem)))
  · cases hcomputed : m.computed <;> simp [keyPlace, hkey]
  · exact .inl (.inl (.inr hvalue))
  · exact .inl (.inr hblock)

theorem ClassShape.mem_children {c : ClassShape α} (h : ⟨place, some part⟩ ∈ c.slots) :
    part ∈ c.children ∨ place = .key := by
  simp only [ClassShape.slots, List.mem_append, mem_filled, List.mem_flatMap,
    Option.mem_toList] at h
  simp only [ClassShape.children, List.mem_append, List.mem_flatMap, Option.mem_toList]
  obtain (⟨-, hmem⟩ | ⟨-, hsuper⟩) | ⟨m, hm, hslot⟩ := h
  · exact .inl (.inl (.inl hmem))
  · exact .inl (.inl (.inr hsuper))
  · exact (m.mem_children hslot).imp (fun hpart ↦ .inr ⟨m, hm, hpart⟩) id

/-- The parts of a plain construct that stand in slots are its children, apart from plain keys. -/
theorem Plain.mem_children {form : Plain α} (h : ⟨place, some part⟩ ∈ form.slots) :
    part ∈ form.children ∨ place = .key := by
  cases form with
  | object properties =>
    obtain ⟨p, hp, hslot⟩ := List.mem_flatMap.mp h
    exact (p.mem_children hslot).imp (fun hpart ↦ List.mem_flatMap.mpr ⟨p, hp, hpart⟩) id
  | function f | functionDeclaration f => exact .inl (f.mem_children h)
  | arrow f => exact .inl (f.mem_children h)
  | classDeclaration c => exact c.mem_children h
  | member receiver key optional =>
    cases key <;> simp_all [Plain.slots, Plain.children, MemberKey.slots, MemberKey.children]
    grind
  | exportDefault value =>
    cases value <;>
      simp_all [Plain.slots, Plain.children, DefaultExport.slots, DefaultExport.node]
  | variableDeclaration | switch | enum =>
    simp_all [Plain.slots, Plain.children, Declarator.slots, Declarator.children, SwitchCase.slots,
      SwitchCase.children]
    grind
  | tryCatch t =>
    simp_all [Plain.slots, Plain.children, TryShape.slots, TryShape.children]
    grind
  | forLoop | forIn | whileLoop | doWhile | ifElse =>
    simp_all [Plain.slots, Plain.children]
    grind
  | _ => simp_all [Plain.slots, Plain.children]

theorem Surface.mem_children {form : Surface α} (h : ⟨place, some part⟩ ∈ form.slots) :
    part ∈ form.children := by
  cases form with
  | component f =>
    rw [Surface.slots, List.mem_append, List.mem_flatMap] at h
    rw [Surface.children, Callable.children, List.mem_append, List.mem_flatMap]
    obtain ⟨p, hp, hslot⟩ | hbody := h
    · exact .inl ⟨p, hp, p.mem_children hslot⟩
    · exact .inr (by simpa using (mem_held.mp hbody).2)
  | element tag attributes children selfClosing =>
    simp_all [Surface.slots, Surface.children]
    grind
  | _ => simp_all [Surface.slots, Surface.children]

end Children

section Slots

variable {α : Type} {part : α}

theorem Slot.exists_place_filled {place : Place} {parts : List α} (h : part ∈ parts) :
    ∃ place', ⟨place', some part⟩ ∈ filled place parts :=
  ⟨place, mem_filled.mpr ⟨rfl, h⟩⟩

theorem Param.exists_place {p : Param α} (h : part ∈ p.children) :
    ∃ place, ⟨place, some part⟩ ∈ p.slots := by
  simp only [Param.children, List.mem_append, Option.mem_toList] at h
  simp only [Param.slots, List.mem_append, mem_filled, mem_held, Option.mem_toList]
  grind

theorem Callable.exists_place {f : Callable α} (h : part ∈ f.children) :
    ∃ place, ⟨place, some part⟩ ∈ f.slots := by
  rw [Callable.children, List.mem_append, List.mem_flatMap] at h
  simp only [Callable.slots, List.mem_append, List.mem_flatMap]
  obtain ⟨p, hp, hpart⟩ | hbody := h
  · obtain ⟨place, hslot⟩ := p.exists_place hpart
    exact ⟨place, .inl ⟨p, hp, hslot⟩⟩
  · exact ⟨_, .inr (mem_filled.mpr ⟨rfl, hbody⟩)⟩

theorem Arrow.exists_place {f : Arrow α} (h : part ∈ f.children) :
    ∃ place, ⟨place, some part⟩ ∈ f.slots := by
  rw [Arrow.children, List.mem_append, List.mem_flatMap, List.mem_singleton] at h
  simp only [Arrow.slots, List.mem_append, List.mem_flatMap]
  obtain ⟨p, hp, hpart⟩ | rfl := h
  · obtain ⟨place, hslot⟩ := p.exists_place hpart
    exact ⟨place, .inl ⟨p, hp, hslot⟩⟩
  · cases f.body with
    | block body => exact ⟨_, .inr (mem_filled.mpr ⟨rfl, List.mem_singleton_self _⟩)⟩
    | expression value => exact ⟨_, .inr (mem_filled.mpr ⟨rfl, List.mem_singleton_self _⟩)⟩

theorem Property.exists_place {p : Property α} (h : part ∈ p.children) :
    ∃ place, ⟨place, some part⟩ ∈ p.slots := by
  simp only [Property.children, List.mem_append, Option.mem_toList] at h
  simp only [Property.slots, List.mem_append, mem_held]
  obtain hkey | hvalue := h
  · split at hkey
    · exact ⟨_, .inl ⟨rfl, Option.mem_toList.mp hkey⟩⟩
    · cases hkey
  · exact ⟨_, .inr ⟨rfl, hvalue⟩⟩

theorem ClassMember.exists_place {m : ClassMember α} (h : part ∈ m.children) :
    ∃ place, ⟨place, some part⟩ ∈ m.slots := by
  simp only [ClassMember.children, List.mem_append, Option.mem_toList] at h
  simp only [ClassMember.slots, List.mem_append, mem_filled, mem_held]
  obtain ((hdecorator | hkey) | hvalue) | hblock := h
  · exact ⟨_, .inl (.inl (.inl ⟨rfl, hdecorator⟩))⟩
  · split at hkey
    · exact ⟨_, .inl (.inl (.inr ⟨rfl, Option.mem_toList.mp hkey⟩))⟩
    · cases hkey
  · exact ⟨_, .inl (.inr ⟨rfl, hvalue⟩)⟩
  · exact ⟨_, .inr ⟨rfl, hblock⟩⟩

theorem ClassShape.exists_place {c : ClassShape α} (h : part ∈ c.children) :
    ∃ place, ⟨place, some part⟩ ∈ c.slots := by
  simp only [ClassShape.children, List.mem_append, List.mem_flatMap] at h
  simp only [ClassShape.slots, List.mem_append, mem_filled, List.mem_flatMap]
  obtain (hdecorator | hsuper) | ⟨m, hm, hpart⟩ := h
  · exact ⟨_, .inl (.inl ⟨rfl, hdecorator⟩)⟩
  · exact ⟨_, .inl (.inr ⟨rfl, hsuper⟩)⟩
  · obtain ⟨place, hslot⟩ := m.exists_place hpart
    exact ⟨place, .inr ⟨m, hm, hslot⟩⟩

theorem Declarator.exists_place {d : Declarator α} (h : part ∈ d.children) :
    ∃ place, ⟨place, some part⟩ ∈ d.slots :=
  exists_place_filled h

theorem SwitchCase.exists_place {c : SwitchCase α} (h : part ∈ c.children) :
    ∃ place, ⟨place, some part⟩ ∈ c.slots := by
  simp only [SwitchCase.children, List.mem_append] at h
  simp only [SwitchCase.slots, List.mem_append, mem_filled]
  grind

theorem TryShape.exists_place {t : TryShape α} (h : part ∈ t.children) :
    ∃ place, ⟨place, some part⟩ ∈ t.slots := by
  simp only [TryShape.children, List.mem_append, List.mem_cons] at h
  simp only [TryShape.slots, List.mem_append, mem_filled, List.mem_cons]
  grind

/-- What stands in the slots of some items stands in those of all of them. -/
theorem exists_place_flatMap {β : Type} {items : List β} {children : β → List α}
    {slots : β → List (Slot α)}
    (hitem : ∀ item, part ∈ children item → ∃ place, ⟨place, some part⟩ ∈ slots item)
    (h : part ∈ items.flatMap children) : ∃ place, ⟨place, some part⟩ ∈ items.flatMap slots := by
  obtain ⟨item, hmem, hpart⟩ := List.mem_flatMap.mp h
  obtain ⟨place, hslot⟩ := hitem item hpart
  exact ⟨place, List.mem_flatMap.mpr ⟨item, hmem, hslot⟩⟩

/-- Every child of a plain construct stands in one of its slots. -/
theorem Plain.exists_place {form : Plain α} (h : part ∈ form.children) :
    ∃ place, ⟨place, some part⟩ ∈ form.slots := by
  cases form with
  | object properties => exact exists_place_flatMap (fun p ↦ p.exists_place) h
  | function f | functionDeclaration f => exact f.exists_place h
  | arrow f => exact f.exists_place h
  | classDeclaration c => exact c.exists_place h
  | tryCatch t => exact t.exists_place h
  | variableDeclaration _ declarators => exact exists_place_flatMap (fun d ↦ d.exists_place) h
  | enum _ members => exact exists_place_flatMap (fun m ↦ exists_place_filled) h
  | switch discriminant cases =>
    obtain rfl | h := List.mem_cons.mp h
    · exact ⟨_, List.mem_append_left _ (mem_filled.mpr ⟨rfl, List.mem_singleton_self _⟩)⟩
    · obtain ⟨place, hslot⟩ := exists_place_flatMap (fun c ↦ c.exists_place) h
      exact ⟨place, List.mem_append_right _ hslot⟩
  | member receiver key =>
    obtain rfl | h := List.mem_cons.mp h
    · exact ⟨_, List.mem_append_left _ (mem_filled.mpr ⟨rfl, List.mem_singleton_self _⟩)⟩
    · cases key with
      | named => cases h
      | computed index => exact ⟨_, List.mem_append_right _ (mem_filled.mpr ⟨rfl, h⟩)⟩
  | exportDefault value => cases value <;> exact exists_place_filled h
  | forLoop | forIn | whileLoop | doWhile | ifElse =>
    simp only [Plain.children, List.mem_append, List.mem_cons] at h
    simp only [Plain.slots, List.mem_append, mem_filled, List.mem_cons]
    grind
  | _ =>
    first
    | exact exists_place_filled h
    | cases h

theorem Surface.exists_place {form : Surface α} (h : part ∈ form.children) :
    ∃ place, ⟨place, some part⟩ ∈ form.slots := by
  cases form with
  | component f =>
    rw [Surface.children, Callable.children, List.mem_append, List.mem_flatMap] at h
    simp only [Surface.slots, List.mem_append, List.mem_flatMap, mem_held]
    obtain ⟨p, hp, hpart⟩ | hbody := h
    · obtain ⟨place, hslot⟩ := p.exists_place hpart
      exact ⟨place, .inl ⟨p, hp, hslot⟩⟩
    · exact ⟨_, .inr ⟨rfl, Option.mem_toList.mp hbody⟩⟩
  | element tag attributes children =>
    obtain hattribute | hchild := List.mem_append.mp h
    · exact ⟨_, List.mem_append_left _ (mem_filled.mpr ⟨rfl, hattribute⟩)⟩
    · exact ⟨_, List.mem_append_right _ (mem_filled.mpr ⟨rfl, hchild⟩)⟩
  | container | attr => exact ⟨_, mem_held.mpr ⟨rfl, Option.mem_toList.mp h⟩⟩
  | text => cases h
  | _ => exact exists_place_filled h

end Slots

/-! ## Everything below a node -/

namespace Node

/-- A node contains itself and what its parts contain. -/
inductive Contains : Node → Node → Prop
  | self (node : Node) : Contains node node
  | plain {range : Range} {form : Plain Node} {place : Place} {part inner : Node}
    (hpart : ⟨place, some part⟩ ∈ form.slots) (h : Contains part inner) :
    Contains (.plain range form) inner
  | surface {range : Range} {form : Surface Node} {place : Place} {part inner : Node}
    (hpart : ⟨place, some part⟩ ∈ form.slots) (h : Contains part inner) :
    Contains (.surface range form) inner

variable {node child inner : Node}

/-- The full walk comes by a node, wherever the walk starts from. -/
def Reached (node inner : Node) : Prop :=
  ∀ isCallback, ∃ visit ∈ node.reach (fun _ ↦ true) isCallback, visit.node = inner

theorem Reached.mem_descendants (h : node.Reached inner) : inner ∈ node.descendants := by
  obtain ⟨visit, hmem, rfl⟩ := h false
  exact List.mem_map_of_mem hmem

/-- The walk comes by the children and all that it comes by below them. -/
theorem Reached.of_mem_children (hchild : child ∈ node.children)
    (h : inner = child ∨ child.Reached inner) : node.Reached inner := by
  intro isCallback
  obtain ⟨index, hindex, hget⟩ := List.mem_iff_getElem.mp (List.mem_attach _ ⟨child, hchild⟩)
  have hzip : (⟨child, hchild⟩, index) ∈ node.children.attach.zipIdx := by
    rw [List.mk_mem_zipIdx_iff_getElem?, List.getElem?_eq_getElem hindex, hget]
  rw [reach]
  obtain rfl | h := h
  · exact ⟨⟨inner, callbackPlace isCallback node index⟩,
      List.mem_flatMap.mpr ⟨_, hzip, List.mem_cons_self⟩, rfl⟩
  · obtain ⟨visit, hmem, hvisit⟩ := h (callbackPlace isCallback node index)
    exact ⟨visit, List.mem_flatMap.mpr ⟨_, hzip, List.mem_cons_of_mem _ hmem⟩, hvisit⟩

/-- A plain key is a name, a number or a text. -/
theorem Fits.contains_of_key {Tag : Bytes → Prop} (h : node.Fits Tag .key)
    (hinner : node.Contains inner) : inner = node ∧ ∃ range form, node = .plain range form := by
  cases h with
  | plain hstands =>
    have hslots := Plain.slots_of_stands_key hstands
    cases hinner with
    | self => exact ⟨rfl, _, _, rfl⟩
    | plain hpart => simp [hslots] at hpart
  | @surface _ _ form hstands => cases form <;> cases hstands

/-- The walk comes by everything in a node but the node itself and names that are keys. -/
theorem Contains.reached {Tag : Bytes → Prop} {place : Place} (h : node.Contains inner)
    (hfits : node.Fits Tag place) :
    inner = node ∨ node.Reached inner ∨ ∃ range form, inner = .plain range form := by
  induction h generalizing place with
  | self => exact .inl rfl
  | @plain range form slot part inner hpart hinner ih =>
    have hplaced := (allHold_iff.mp (fits_plain_iff.mp hfits).2.2).2 slot part hpart
    obtain hchild | rfl := Plain.mem_children hpart
    · refine .inr ((ih hplaced).elim (fun heq ↦ .inl ?_) (Or.imp_left fun hreached ↦ ?_))
      · exact .of_mem_children hchild (.inl heq)
      · exact .of_mem_children hchild (.inr hreached)
    · obtain ⟨rfl, hplain⟩ := hplaced.contains_of_key hinner
      exact .inr (.inr hplain)
  | @surface range form slot part inner hpart hinner ih =>
    have hplaced := (allHold_iff.mp (fits_surface_iff.mp hfits).2.2).2 slot part hpart
    have hchild : part ∈ (Node.surface range form).children := Surface.mem_children hpart
    refine .inr ((ih hplaced).elim (fun heq ↦ .inl ?_) (Or.imp_left fun hreached ↦ ?_))
    · exact .of_mem_children hchild (.inl heq)
    · exact .of_mem_children hchild (.inr hreached)

/-! ### Descendants -/

/-- The slots of a node. -/
def slots : Node → List (Slot Node)
  | .plain _ form => form.slots
  | .surface _ form => form.slots

variable {part last : Node} {place : Place}

theorem exists_place (h : part ∈ node.children) : ∃ place, ⟨place, some part⟩ ∈ node.slots := by
  cases node with
  | plain _ form => exact form.exists_place h
  | surface _ form => exact form.exists_place h

theorem Contains.of_slot (hpart : ⟨place, some part⟩ ∈ node.slots) (h : part.Contains inner) :
    node.Contains inner := by
  cases node with
  | plain => exact .plain hpart h
  | surface => exact .surface hpart h

theorem Contains.trans (h : node.Contains inner) (hlast : inner.Contains last) :
    node.Contains last := by
  induction h with
  | self => exact hlast
  | plain hpart _ ih => exact .plain hpart (ih hlast)
  | surface hpart _ ih => exact .surface hpart (ih hlast)

theorem Way.contains {avoid : Node → Bool} (h : node.Way avoid inner) : node.Contains inner := by
  induction h with
  | here => exact .self _
  | down _ hpart _ ih =>
    obtain ⟨_, hslot⟩ := exists_place hpart
    exact .of_slot hslot ih

theorem Contains.of_mem_descendants (h : inner ∈ node.descendants) : node.Contains inner := by
  obtain ⟨part, hpart, hway⟩ := mem_descendants_iff.mp h
  obtain ⟨_, hslot⟩ := exists_place hpart
  exact .of_slot hslot hway.contains

theorem Fits.of_slot {Tag : Bytes → Prop} (hfits : node.Fits Tag place) {place' : Place}
    (hpart : ⟨place', some part⟩ ∈ node.slots) : part.Fits Tag place' := by
  cases hfits with
  | plain _ _ _ hparts => exact hparts _ _ hpart
  | surface _ _ _ hparts => exact hparts _ _ hpart

/-- Whatever stands in a tree that fits fits in some place. -/
theorem Contains.fits {Tag : Bytes → Prop} (h : node.Contains inner) (hfits : node.Fits Tag place) :
    ∃ place', inner.Fits Tag place' := by
  induction h generalizing place with
  | self => exact ⟨place, hfits⟩
  | plain hpart _ ih | surface hpart _ ih => exact ih (hfits.of_slot hpart)

end Node

end SignalView
