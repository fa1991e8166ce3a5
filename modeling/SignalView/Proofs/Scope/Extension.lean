import Mathlib.Data.List.Forall2
import Mathlib.Data.Set.Basic
import SignalView.Scope.Table

/-!
# Extensions of symbol tables

While a scope is open, names are declared in it, symbols are marked as used wherever they stand, and
scopes within it are opened and closed. What comes of this is an extension of the table: the scopes
are the same ones, with the symbols they had, and only the current one has new symbols. Names that
are not among the new ones mean what they meant before.
-/

namespace SignalView

/-! ## Symbols -/

/-- The second symbol is the first, perhaps used by now. -/
def Symbol.Marks (s t : Symbol) : Prop := t = s ∨ t = { s with isUsed := true }

namespace Symbol.Marks

variable {s t u : Symbol}

theorem refl (s : Symbol) : s.Marks s := .inl rfl

theorem trans (h : s.Marks t) (h' : t.Marks u) : s.Marks u := by
  rcases h with rfl | rfl
  · exact h'
  · exact .inr (h'.elim id id)

theorem name_eq (h : s.Marks t) : t.name = s.name := by
  rcases h with rfl | rfl <;> rfl

theorem kind_eq (h : s.Marks t) : t.kind = s.kind := by
  rcases h with rfl | rfl <;> rfl

theorem serial_eq (h : s.Marks t) : t.serial = s.serial := by
  rcases h with rfl | rfl <;> rfl

end Symbol.Marks

/-- The symbols of a scope later on: those there were, perhaps used by now, and behind them new ones
under some of the names. -/
inductive Symbol.Extend (names : Set Bytes) : List Symbol → List Symbol → Prop
  | added {symbols : List Symbol} (h : ∀ symbol ∈ symbols, symbol.name ∈ names) :
    Extend names [] symbols
  | kept {s t : Symbol} {before after : List Symbol} (hmarks : s.Marks t)
    (h : Extend names before after) : Extend names (s :: before) (t :: after)

namespace Symbol.Extend

variable {names more : Set Bytes} {first second third : List Symbol}

theorem refl (symbols : List Symbol) : Extend names symbols symbols := by
  induction symbols with
  | nil => exact .added (by simp)
  | cons s rest ih => exact .kept (.refl s) ih

theorem names_of_nil (h : Extend names first second) (hfirst : ∀ s ∈ first, s.name ∈ names) :
    ∀ t ∈ second, t.name ∈ names := by
  induction h with
  | added hnames => exact hnames
  | kept hmarks _ ih =>
    rw [List.forall_mem_cons] at hfirst ⊢
    exact ⟨hmarks.name_eq ▸ hfirst.1, ih hfirst.2⟩

theorem trans (h : Extend names first second) (h' : Extend names second third) :
    Extend names first third := by
  induction h generalizing third with
  | added hnames => exact .added (h'.names_of_nil hnames)
  | kept hmarks _ ih =>
    cases h' with
    | kept hmarks' h' => exact .kept (hmarks.trans hmarks') (ih h')

theorem mono (h : Extend names first second) (hmore : names ⊆ more) : Extend more first second := by
  induction h with
  | added hnames => exact .added fun s hs ↦ hmore (hnames s hs)
  | kept hmarks _ ih => exact .kept hmarks ih

theorem append (symbols : List Symbol) {symbol : Symbol} (hname : symbol.name ∈ names) :
    Extend names symbols (symbols ++ [symbol]) := by
  induction symbols with
  | nil => exact .added (by simpa using hname)
  | cons s rest ih => exact .kept (.refl s) ih

theorem map {mark : Symbol → Symbol} (hmark : ∀ s : Symbol, s.Marks (mark s))
    (symbols : List Symbol) : Extend names symbols (symbols.map mark) := by
  induction symbols with
  | nil => exact .added (by simp)
  | cons s rest ih => exact .kept (hmark s) ih

theorem empty_iff : Extend ∅ first second ↔ List.Forall₂ Symbol.Marks first second := by
  constructor
  · intro h
    induction h with
    | added hnames =>
      obtain rfl := List.eq_nil_iff_forall_not_mem.mpr hnames
      exact .nil
    | kept hmarks _ ih => exact .cons hmarks ih
  · intro h
    induction h with
    | nil => exact .refl []
    | cons hmarks _ ih => exact .kept hmarks ih

theorem map_name (h : Extend ∅ first second) : second.map (·.name) = first.map (·.name) := by
  induction empty_iff.mp h with
  | nil => rfl
  | cons hmarks _ ih => exact congrArg₂ List.cons hmarks.name_eq (ih (empty_iff.mpr ‹_›))

/-- A name that is found is found later on as well, under the same symbol. -/
theorem find?_some (h : Extend names first second) {name : Bytes} {symbol : Symbol}
    (hfind : first.find? (·.name == name) = some symbol) :
    ∃ marked, second.find? (·.name == name) = some marked ∧ symbol.Marks marked := by
  induction h with
  | added => cases hfind
  | @kept s t _ _ hmarks _ ih =>
    rw [List.find?_cons] at hfind ⊢
    rw [hmarks.name_eq]
    cases hname : s.name == name with
    | true =>
      simp only [hname, Option.some.injEq] at hfind
      exact ⟨t, rfl, hfind ▸ hmarks⟩
    | false => exact ih (by simpa only [hname] using hfind)

/-- A name that is not found can be found later on only when it is one of the new ones. -/
theorem find?_none (h : Extend names first second) {name : Bytes} (hname : name ∉ names)
    (hfind : first.find? (·.name == name) = none) : second.find? (·.name == name) = none := by
  induction h with
  | added hnames =>
    refine List.find?_eq_none.mpr fun s hs heq ↦ hname ?_
    exact eq_of_beq heq ▸ hnames s hs
  | @kept s t _ _ hmarks _ ih =>
    rw [List.find?_cons] at hfind ⊢
    rw [hmarks.name_eq]
    cases hname : s.name == name with
    | true => simp [hname] at hfind
    | false => exact ih (by simpa only [hname] using hfind)

end Symbol.Extend

/-! ## Scopes -/

/-- The second scope is the first later on. -/
structure Scope.Extends (names : Set Bytes) (s t : Scope) : Prop where
  kind : t.kind = s.kind
  symbols : Symbol.Extend names s.symbols t.symbols

namespace Scope

variable {names more : Set Bytes} {s t u : Scope}

namespace Extends

theorem refl (s : Scope) : s.Extends names s := ⟨rfl, .refl _⟩

theorem trans (h : s.Extends names t) (h' : t.Extends names u) : s.Extends names u :=
  ⟨h'.kind.trans h.kind, h.symbols.trans h'.symbols⟩

theorem mono (h : s.Extends names t) (hmore : names ⊆ more) : s.Extends more t :=
  ⟨h.kind, h.symbols.mono hmore⟩

theorem find?_some (h : s.Extends names t) {name : Bytes} {symbol : Symbol}
    (hfind : s.find? name = some symbol) :
    ∃ marked, t.find? name = some marked ∧ symbol.Marks marked :=
  h.symbols.find?_some hfind

theorem find?_none (h : s.Extends names t) {name : Bytes} (hname : name ∉ names)
    (hfind : s.find? name = none) : t.find? name = none :=
  h.symbols.find?_none hname hfind

end Extends

theorem markUsed_extends (s : Scope) (name : Bytes) : s.Extends names (s.markUsed name) := by
  refine ⟨rfl, .map (fun symbol ↦ ?_) _⟩
  split
  · exact .inr rfl
  · exact .refl symbol

end Scope

/-! ## Tables -/

/-- The second table is the first later on, while the current scope is open: only that scope has
new symbols. -/
structure SymbolTable.Extends (names : Set Bytes) (s t : SymbolTable) : Prop where
  current : s.current.Extends names t.current
  enclosing : List.Forall₂ (Scope.Extends ∅) s.enclosing t.enclosing

namespace SymbolTable

variable {names more : Set Bytes} {s t u : SymbolTable}

theorem extends_scopes_refl (scopes : List Scope) :
    List.Forall₂ (Scope.Extends ∅) scopes scopes :=
  List.forall₂_same.mpr fun _ _ ↦ .refl _

theorem extends_scopes_trans {first second third : List Scope}
    (h : List.Forall₂ (Scope.Extends ∅) first second)
    (h' : List.Forall₂ (Scope.Extends ∅) second third) :
    List.Forall₂ (Scope.Extends ∅) first third := by
  induction h generalizing third with
  | nil => exact h'
  | cons hscope _ ih =>
    cases h' with
    | cons hscope' h' => exact .cons (hscope.trans hscope') (ih h')

namespace Extends

theorem refl (s : SymbolTable) : s.Extends names s := ⟨.refl _, extends_scopes_refl _⟩

theorem trans (h : s.Extends names t) (h' : t.Extends names u) : s.Extends names u :=
  ⟨h.current.trans h'.current, extends_scopes_trans h.enclosing h'.enclosing⟩

theorem mono (h : s.Extends names t) (hmore : names ⊆ more) : s.Extends more t :=
  ⟨h.current.mono hmore, h.enclosing⟩

theorem depth_eq (h : s.Extends names t) : t.depth = s.depth := h.enclosing.length_eq.symm

/-- A scope that was opened and is closed again leaves only marks. -/
theorem exit {kind : ScopeKind} (h : (s.enter kind).Extends names t) : s.Extends more t.exit := by
  obtain ⟨-, henclosing⟩ := h
  obtain ⟨outer, rest, houter, hrest, heq⟩ := List.forall₂_cons_left_iff.mp henclosing
  rw [SymbolTable.exit, heq]
  exact ⟨houter.mono (Set.empty_subset _), hrest⟩

end Extends

theorem extends_declare? {symbol : Symbol} (h : s.declare? symbol = some t)
    (hname : symbol.name ∈ names) : s.Extends names t := by
  unfold declare? at h
  split at h
  · cases h
  · cases h
    exact ⟨⟨rfl, .append _ hname⟩, extends_scopes_refl _⟩

theorem markUsedIn_extends (name : Bytes) (scopes : List Scope) :
    List.Forall₂ (Scope.Extends ∅) scopes (markUsedIn name scopes) := by
  induction scopes with
  | nil => exact .nil
  | cons scope rest ih =>
    unfold markUsedIn
    split
    · exact .cons (scope.markUsed_extends name) (extends_scopes_refl rest)
    · exact .cons (.refl scope) ih

theorem markUsed_extends (s : SymbolTable) (name : Bytes) : s.Extends names (s.markUsed name) := by
  unfold markUsed
  split
  · exact ⟨s.current.markUsed_extends name, extends_scopes_refl _⟩
  · exact ⟨.refl _, markUsedIn_extends name _⟩

/-! ## Looking names up -/

theorem lookup_eq (s : SymbolTable) (name : Bytes) :
    s.lookup name = (s.current.find? name).or (s.enclosing.findSome? (·.find? name)) := by
  rw [lookup, scopes, List.findSome?_cons]
  cases s.current.find? name <;> rfl

theorem findSome?_extends {first second : List Scope}
    (h : List.Forall₂ (Scope.Extends ∅) first second) (name : Bytes) :
    Option.Rel Symbol.Marks (first.findSome? (·.find? name)) (second.findSome? (·.find? name)) := by
  induction h with
  | nil => exact .none
  | @cons outer _ _ _ hscope _ ih =>
    rw [List.findSome?_cons, List.findSome?_cons]
    cases hfind : outer.find? name with
    | none => simpa only [hscope.find?_none (Set.notMem_empty name) hfind] using ih
    | some symbol =>
      obtain ⟨marked, hmarked, hmarks⟩ := hscope.find?_some hfind
      simpa only [hmarked] using .some hmarks

/-- A name that is not one of the new ones means what it meant before. -/
theorem Extends.lookup (h : s.Extends names t) {name : Bytes} (hname : name ∉ names) :
    Option.Rel Symbol.Marks (s.lookup name) (t.lookup name) := by
  rw [lookup_eq, lookup_eq]
  cases hfind : s.current.find? name with
  | none =>
    rw [h.current.find?_none hname hfind]
    exact findSome?_extends h.enclosing name
  | some symbol =>
    obtain ⟨marked, hmarked, hmarks⟩ := h.current.find?_some hfind
    rw [hmarked]
    exact .some hmarks

end SymbolTable

end SignalView
