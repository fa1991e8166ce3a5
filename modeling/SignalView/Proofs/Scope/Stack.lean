import Mathlib.Data.Finset.Max
import Mathlib.Data.List.Infix
import SignalView.Proofs.Scope.Extension
import SignalView.Proofs.Text.Sorted

/-!
# The table as a stack of scopes

What a table tells is settled by the calls that it has had. They open and close scopes, in which
names stand for declarations, and the declarations are numbered in the order in which they were
made. A symbol on record is what its declaration said, and it is marked as used if some call marked
a name that stood for it then. The list of the latest symbols does not ask whether their scopes are
still open.
-/

namespace SignalView

/-- A call that may change a table. -/
inductive ScopeCall where
  | enter (kind : ScopeKind)
  | exit
  | declare (name : Bytes) (kind : SymbolKind) (type : Bytes) (line column : Int)
  | markUsed (name : Bytes)

namespace SymbolTable

/-- The table after a call. A declaration that is refused changes nothing. -/
def perform (table : SymbolTable) : ScopeCall → SymbolTable
  | .enter kind => table.enter kind
  | .exit => table.exit
  | .declare name kind type line column =>
    (table.declare? { name, kind, type, line, column }).getD table
  | .markUsed name => table.markUsed name

/-- A fresh table after some calls. -/
def ofCalls (calls : List ScopeCall) : SymbolTable := calls.foldl perform {}

theorem ofCalls_append (calls more : List ScopeCall) :
    ofCalls (calls ++ more) = more.foldl perform (ofCalls calls) :=
  List.foldl_append

end SymbolTable

/-! ## Stacks of scopes -/

/-- The open scopes, each with the numbers of the declarations that names stand for in it, and all
declarations that were ever made. -/
structure ScopeStack where
  current : Bytes → Option Nat := fun _ ↦ none
  enclosing : List (Bytes → Option Nat) := []
  declared : List Symbol := []

namespace ScopeStack

def scopes (stack : ScopeStack) : List (Bytes → Option Nat) := stack.current :: stack.enclosing

/-- The declaration of a name in the innermost scope that has one. -/
def meaning (stack : ScopeStack) (name : Bytes) : Option Nat := stack.scopes.findSome? (· name)

def perform (stack : ScopeStack) : ScopeCall → ScopeStack
  | .enter _ =>
    { stack with current := fun _ ↦ none, enclosing := stack.current :: stack.enclosing }
  | .exit =>
    match stack.enclosing with
    | [] => stack
    | outer :: rest => { stack with current := outer, enclosing := rest }
  | .declare name kind type line column =>
    if (stack.current name).isSome then stack
    else
      { stack with
        current := fun n ↦ if n = name then some stack.declared.length else stack.current n
        declared := stack.declared ++ [{ name, kind, type, line, column }] }
  | .markUsed _ => stack

/-- The scopes after some calls. -/
def ofCalls (calls : List ScopeCall) : ScopeStack := calls.foldl perform {}

theorem ofCalls_concat (calls : List ScopeCall) (call : ScopeCall) :
    ofCalls (calls ++ [call]) = (ofCalls calls).perform call :=
  List.foldl_append

end ScopeStack

/-- One of the calls marked a name that stood for a declaration at that time. -/
def ScopeCall.Marks (calls : List ScopeCall) (number : Nat) : Prop :=
  ∃ past name, past ++ [markUsed name] <+: calls ∧
    (ScopeStack.ofCalls past).meaning name = some number

/-- A symbol says what its declaration said, and whether it was marked since. -/
structure Symbol.Records (calls : List ScopeCall) (s : Symbol) : Prop where
  declared : ∃ d, (ScopeStack.ofCalls calls).declared[s.serial]? = some d ∧
    s = { d with isUsed := s.isUsed, serial := s.serial }
  isUsed : s.isUsed = true ↔ ScopeCall.Marks calls s.serial

variable {calls : List ScopeCall} {call : ScopeCall} {table : SymbolTable} {name : Bytes}

theorem ScopeCall.marks_concat {number : Nat} : Marks (calls ++ [call]) number ↔
    Marks calls number ∨
      ∃ name, call = markUsed name ∧ (ScopeStack.ofCalls calls).meaning name = some number := by
  unfold Marks
  constructor
  · rintro ⟨past, name, hprefix, hmeaning⟩
    obtain heq | hprefix := List.prefix_concat_iff.mp hprefix
    · obtain ⟨rfl, hcall⟩ := List.append_inj' heq rfl
      exact .inr ⟨name, (List.singleton_inj.mp hcall).symm, hmeaning⟩
    · exact .inl ⟨past, name, hprefix, hmeaning⟩
  · rintro (⟨past, name, hprefix, hmeaning⟩ | ⟨name, rfl, hmeaning⟩)
    · exact ⟨past, name, hprefix.trans (List.prefix_append _ _), hmeaning⟩
    · exact ⟨calls, name, List.prefix_rfl, hmeaning⟩

namespace Symbol.Records

variable {s t : Symbol}

/-- What is on record under a number is settled by the calls. -/
theorem eq (hs : s.Records calls) (ht : t.Records calls) (hserial : s.serial = t.serial) :
    s = t := by
  obtain ⟨d, hd, hs'⟩ := hs.declared
  obtain ⟨e, he, ht'⟩ := ht.declared
  rw [hserial, he] at hd
  obtain rfl := Option.some.inj hd
  have hused : s.isUsed = t.isUsed := by
    rw [Bool.eq_iff_iff, hs.isUsed, ht.isUsed, hserial]
  rw [hs', ht', hused, hserial]

theorem exists_declared (h : s.Records calls) :
    ∃ d, (ScopeStack.ofCalls calls).declared[s.serial]? = some d ∧ d.name = s.name := by
  obtain ⟨d, hd, hs⟩ := h.declared
  exact ⟨d, hd, (congrArg Symbol.name hs).symm⟩

theorem lt (h : s.Records calls) : s.serial < (ScopeStack.ofCalls calls).declared.length := by
  obtain ⟨d, hd, -⟩ := h.declared
  exact (List.getElem?_eq_some_iff.mp hd).1

/-- A call that marks nothing keeps what is on record. -/
theorem concat (h : s.Records calls) (hcall : ∀ name, call ≠ .markUsed name)
    (hdeclared : (ScopeStack.ofCalls calls).declared <+:
      ((ScopeStack.ofCalls calls).perform call).declared) : s.Records (calls ++ [call]) := by
  obtain ⟨d, hd, hs⟩ := h.declared
  constructor
  · refine ⟨d, ?_, hs⟩
    obtain ⟨more, hmore⟩ := hdeclared
    rw [ScopeStack.ofCalls_concat, ← hmore, List.getElem?_append_left h.lt]
    exact hd
  · rw [h.isUsed, ScopeCall.marks_concat]
    simp [hcall]

end Symbol.Records

/-! ## Tables that represent stacks -/

/-- A scope has the declarations that names stand for in it, and no name twice. -/
structure Scope.Represents (scope : Scope) (declarations : Bytes → Option Nat) : Prop where
  find? (name : Bytes) : (scope.find? name).map (·.serial) = declarations name
  names : (scope.symbols.map (·.name)).Nodup

namespace Scope

variable {scope : Scope} {declarations : Bytes → Option Nat} {new : Symbol} {scopes : List Scope}
  {frames : List (Bytes → Option Nat)}

theorem Represents.empty (kind : ScopeKind) : Represents { kind } fun _ ↦ none :=
  ⟨fun _ ↦ rfl, .nil⟩

/-- Marks do not change what names stand for. -/
theorem Represents.extends {later : Scope} (h : scope.Represents declarations)
    (hlater : scope.Extends ∅ later) : later.Represents declarations := by
  refine ⟨fun name ↦ ?_, hlater.symbols.map_name ▸ h.names⟩
  rw [← h.find? name]
  cases hfind : scope.find? name with
  | none => rw [hlater.find?_none (Set.notMem_empty name) hfind]
  | some s =>
    obtain ⟨marked, hmarked, hmarks⟩ := hlater.find?_some hfind
    rw [hmarked]
    exact congrArg some hmarks.serial_eq

theorem represents_extends {later : List Scope} (h : List.Forall₂ Represents scopes frames)
    (hlater : List.Forall₂ (Extends ∅) scopes later) : List.Forall₂ Represents later frames := by
  induction h generalizing later with
  | nil =>
    cases hlater
    exact .nil
  | cons hscope _ ih =>
    cases hlater with
    | cons hextends hlater => exact .cons (hscope.extends hextends) (ih hlater)

/-- A new symbol behind the others is found under its name. -/
theorem Represents.concat (h : scope.Represents declarations)
    (hnew : scope.declares new.name = false) :
    Represents ⟨scope.kind, scope.symbols ++ [new]⟩
      (fun n ↦ if n = new.name then some new.serial else declarations n) := by
  have hnone : scope.symbols.find? (·.name == new.name) = none := by
    simpa [declares, Scope.find?] using hnew
  constructor
  · intro name
    have hother := h.find? name
    simp only [Scope.find?, List.find?_append, List.find?_singleton] at hother ⊢
    rw [← hother]
    by_cases hname : name = new.name
    · simp [hname, hnone]
    · simp [hname, Ne.symm hname]
  · rw [List.map_append, List.map_singleton, List.nodup_append_comm, List.singleton_append,
      List.nodup_cons]
    refine ⟨?_, h.names⟩
    simpa using hnone

/-- A name is looked up in the innermost scope that has it. -/
theorem findSome?_serial (h : List.Forall₂ Represents scopes frames) (name : Bytes) :
    (scopes.findSome? (·.find? name)).map (·.serial) = frames.findSome? (· name) := by
  induction h with
  | nil => rfl
  | @cons scope frame scopes frames hscope _ ih =>
    rw [List.findSome?_cons, List.findSome?_cons, ← hscope.find? name]
    cases scope.find? name with
    | none => exact ih
    | some s => rfl

theorem mem_of_findSome? {s : Symbol} (h : scopes.findSome? (·.find? name) = some s) :
    s ∈ scopes.flatMap (·.symbols) ∧ s.name = name := by
  obtain ⟨scope, hscope, hfind⟩ := List.exists_of_findSome?_eq_some h
  refine ⟨List.mem_flatMap.mpr ⟨scope, hscope, List.mem_of_find?_eq_some hfind⟩, ?_⟩
  simpa using List.find?_some hfind

end Scope

/-- A table has the scopes that the calls leave open, and all symbols that they have declared. -/
structure SymbolTable.Represents (table : SymbolTable) (calls : List ScopeCall) : Prop where
  scopes : List.Forall₂ Scope.Represents table.scopes (ScopeStack.ofCalls calls).scopes
  declarations : table.declarations = (ScopeStack.ofCalls calls).declared.length
  serials : (table.allSymbols.map (·.serial)).Perm
    (List.range (ScopeStack.ofCalls calls).declared.length)
  records : ∀ s ∈ table.allSymbols, s.Records calls
  marks : ∀ number, ScopeCall.Marks calls number →
    number < (ScopeStack.ofCalls calls).declared.length

namespace SymbolTable.Represents

theorem empty : Represents {} [] where
  scopes := .cons (.empty .global) .nil
  declarations := rfl
  serials := by simp [allSymbols, SymbolTable.scopes, ScopeStack.ofCalls]
  records := by simp [allSymbols, SymbolTable.scopes]
  marks := by
    rintro number ⟨past, name, hprefix, -⟩
    simp at hprefix

variable (h : table.Represents calls)

include h

theorem nodup_serials : (table.allSymbols.map (·.serial)).Nodup :=
  h.serials.nodup_iff.mpr List.nodup_range

/-- Every declaration is on record. -/
theorem exists_mem_allSymbols {number : Nat}
    (hnumber : number < (ScopeStack.ofCalls calls).declared.length) :
    ∃ s ∈ table.allSymbols, s.serial = number :=
  List.mem_map.mp (h.serials.mem_iff.mpr (List.mem_range.mpr hnumber))

theorem mem_allSymbols {s : Symbol} : s ∈ table.allSymbols ↔ s.Records calls := by
  refine ⟨h.records s, fun hs ↦ ?_⟩
  obtain ⟨t, ht, heq⟩ := h.exists_mem_allSymbols hs.lt
  exact (h.records t ht).eq hs heq ▸ ht

theorem lookup_serial (name : Bytes) :
    (table.lookup name).map (·.serial) = (ScopeStack.ofCalls calls).meaning name :=
  Scope.findSome?_serial h.scopes name

theorem declares_iff (name : Bytes) :
    table.current.declares name = ((ScopeStack.ofCalls calls).current name).isSome := by
  have hcurrent : table.current.Represents (ScopeStack.ofCalls calls).current :=
    (List.forall₂_cons.mp h.scopes).1
  rw [← hcurrent.find? name, Option.isSome_map]
  rfl

theorem depth_eq : table.depth = (ScopeStack.ofCalls calls).enclosing.length :=
  Nat.succ.inj h.scopes.length_eq

end SymbolTable.Represents

theorem SymbolTable.mem_allSymbols_of_lookup {s : Symbol} (h : table.lookup name = some s) :
    s ∈ table.allSymbols ∧ s.name = name :=
  (Scope.mem_of_findSome? h).imp_left (List.mem_append_right _)

/-! ## Steps -/

/-- The symbols under a number as they are when it has been marked. -/
def Symbol.marking (number : Option Nat) (s : Symbol) : Symbol :=
  if number = some s.serial then { s with isUsed := true } else s

namespace Symbol

theorem marks_marking (number : Option Nat) (s : Symbol) : s.Marks (s.marking number) := by
  unfold marking
  split
  · exact .inr rfl
  · exact .inl rfl

/-- Symbols under other numbers stay as they are. -/
theorem map_marking {symbols : List Symbol} {number : Option Nat}
    (h : ∀ s ∈ symbols, number ≠ some s.serial) : symbols.map (marking number) = symbols := by
  refine (List.map_congr_left fun s hs ↦ ?_).trans (List.map_id symbols)
  exact if_neg (h s hs)

theorem Records.marking {s : Symbol} (h : s.Records calls) (name : Bytes) :
    (s.marking ((ScopeStack.ofCalls calls).meaning name)).Records
      (calls ++ [.markUsed name]) := by
  obtain ⟨d, hd, hs⟩ := h.declared
  have hserial := (marks_marking ((ScopeStack.ofCalls calls).meaning name) s).serial_eq
  constructor
  · refine ⟨d, ?_, ?_⟩
    · rw [ScopeStack.ofCalls_concat, hserial]
      exact hd
    · unfold Symbol.marking
      split
      · exact congrArg (fun t ↦ { t with isUsed := true }) hs
      · exact hs
  · rw [hserial, ScopeCall.marks_concat, ← h.isUsed]
    unfold Symbol.marking
    split
    · next hmeaning => simp [hmeaning]
    · next hmeaning => simp [hmeaning]

end Symbol

namespace SymbolTable

/-- A name that is marked is marked where it is looked up. -/
theorem scopes_markUsed (table : SymbolTable) (name : Bytes) :
    (table.markUsed name).scopes = markUsedIn name table.scopes := by
  rw [scopes, scopes, markUsedIn]
  unfold markUsed
  split <;> rfl

theorem closed_markUsed (table : SymbolTable) (name : Bytes) :
    (table.markUsed name).closed = table.closed := by
  unfold markUsed
  split <;> rfl

theorem declarations_markUsed (table : SymbolTable) (name : Bytes) :
    (table.markUsed name).declarations = table.declarations := by
  unfold markUsed
  split <;> rfl

/-- Of all the symbols in open scopes one is marked at most: the one that the name stands for. -/
theorem flatMap_markUsedIn {scopes : List Scope} {frames : List (Bytes → Option Nat)}
    (h : List.Forall₂ Scope.Represents scopes frames)
    (hserials : ((scopes.flatMap (·.symbols)).map (·.serial)).Nodup) :
    (markUsedIn name scopes).flatMap (·.symbols) =
      (scopes.flatMap (·.symbols)).map (Symbol.marking (frames.findSome? (· name))) := by
  induction h with
  | nil => rfl
  | @cons scope frame scopes frames hscope hscopes ih =>
    simp only [List.flatMap_cons, List.map_append] at hserials ⊢
    obtain ⟨hfirst, hrest, hapart⟩ := List.nodup_append.mp hserials
    have hother {s t : Symbol} (hs : s ∈ scope.symbols) (ht : t ∈ scopes.flatMap (·.symbols)) :
        s.serial ≠ t.serial := hapart _ (List.mem_map_of_mem hs) _ (List.mem_map_of_mem ht)
    rw [List.findSome?_cons, ← hscope.find? name, markUsedIn, Scope.declares]
    cases hfind : scope.find? name with
    | none =>
      rw [Option.isSome_none, if_neg Bool.false_ne_true, List.flatMap_cons, ih hrest]
      refine congrArg (· ++ _) (Symbol.map_marking fun s hs heq ↦ ?_).symm
      rw [Option.map_none, ← Scope.findSome?_serial hscopes] at heq
      obtain ⟨t, ht, heq⟩ := Option.map_eq_some_iff.mp heq
      exact hother hs (Scope.mem_of_findSome? ht).1 heq.symm
    | some found =>
      have hmem : found ∈ scope.symbols := List.mem_of_find?_eq_some hfind
      have hname : found.name = name := by simpa using List.find?_some hfind
      rw [Option.isSome_some, if_pos rfl, List.flatMap_cons]
      refine congrArg₂ _ (List.map_congr_left fun s hs ↦ ?_) (Symbol.map_marking ?_).symm
      · have hsame : s.name = name ↔ found.serial = s.serial := by
          constructor
          · intro heq
            rw [List.inj_on_of_nodup_map hscope.names hs hmem (heq.trans hname.symm)]
          · intro heq
            rw [← List.inj_on_of_nodup_map hfirst hmem hs heq, hname]
        simp [Symbol.marking, hsame]
      · rintro s hs heq
        exact hother hmem hs (Option.some.inj heq)

namespace Represents

variable (h : table.Represents calls)

include h

/-- What a call does that marks nothing. -/
theorem step {table' : SymbolTable} (hcall : ∀ name, call ≠ .markUsed name)
    (hscopes : List.Forall₂ Scope.Represents table'.scopes
      ((ScopeStack.ofCalls calls).perform call).scopes)
    (hdeclarations : table'.declarations =
      ((ScopeStack.ofCalls calls).perform call).declared.length)
    (hserials : (table'.allSymbols.map (·.serial)).Perm
      (List.range ((ScopeStack.ofCalls calls).perform call).declared.length))
    (hdeclared : (ScopeStack.ofCalls calls).declared <+:
      ((ScopeStack.ofCalls calls).perform call).declared)
    (hsymbols : ∀ s ∈ table'.allSymbols, s ∈ table.allSymbols ∨ s.Records (calls ++ [call])) :
    table'.Represents (calls ++ [call]) := by
  rw [← ScopeStack.ofCalls_concat] at hscopes hdeclarations hserials
  refine ⟨hscopes, hdeclarations, hserials, fun s hs ↦ ?_, fun number hmarks ↦ ?_⟩
  · obtain hs | hs := hsymbols s hs
    · exact (h.records s hs).concat hcall hdeclared
    · exact hs
  · obtain hmarks | ⟨name, hname, -⟩ := ScopeCall.marks_concat.mp hmarks
    · rw [ScopeStack.ofCalls_concat]
      exact (h.marks number hmarks).trans_le hdeclared.length_le
    · exact absurd hname (hcall name)

theorem enter (kind : ScopeKind) : (table.enter kind).Represents (calls ++ [.enter kind]) :=
  h.step nofun (.cons (.empty kind) h.scopes) h.declarations h.serials List.prefix_rfl
    fun _ hs ↦ .inl hs

theorem exit : table.exit.Represents (calls ++ [.exit]) := by
  obtain ⟨hcurrent, henclosing⟩ := List.forall₂_cons.mp h.scopes
  unfold SymbolTable.exit
  split
  · next hnone =>
    rw [hnone, List.forall₂_nil_left_iff] at henclosing
    have hstack : (ScopeStack.ofCalls calls).perform .exit = ScopeStack.ofCalls calls := by
      simp only [ScopeStack.perform, henclosing]
    refine h.step nofun ?_ ?_ ?_ ?_ fun s hs ↦ .inl hs <;> rw [hstack]
    · exact h.scopes
    · exact h.declarations
    · exact h.serials
  · next outer rest hsome =>
    rw [hsome] at henclosing
    obtain ⟨frame, frames, hframe, hframes, heq⟩ := List.forall₂_cons_left_iff.mp henclosing
    have hstack : (ScopeStack.ofCalls calls).perform .exit =
        { ScopeStack.ofCalls calls with current := frame, enclosing := frames } := by
      simp only [ScopeStack.perform, heq]
    have hsymbols : SymbolTable.allSymbols
        { table with
          current := outer, enclosing := rest, closed := table.closed ++ table.current.symbols } =
        table.allSymbols := by
      simp [allSymbols, SymbolTable.scopes, hsome]
    refine h.step nofun ?_ ?_ ?_ ?_ fun s hs ↦ .inl ?_
    · rw [hstack]
      exact .cons hframe hframes
    · rw [hstack]
      exact h.declarations
    · rw [hstack, hsymbols]
      exact h.serials
    · rw [hstack]
    · rwa [hsymbols] at hs

theorem declare (name : Bytes) (kind : SymbolKind) (type : Bytes) (line column : Int) :
    (table.perform (.declare name kind type line column)).Represents
      (calls ++ [.declare name kind type line column]) := by
  obtain ⟨hcurrent, henclosing⟩ := List.forall₂_cons.mp h.scopes
  have htaken := h.declares_iff name
  cases hdeclares : table.current.declares name with
  | true =>
    have hstack : (ScopeStack.ofCalls calls).perform (.declare name kind type line column) =
        ScopeStack.ofCalls calls := if_pos (htaken ▸ hdeclares)
    have hsame : table.perform (.declare name kind type line column) = table := by
      simp only [perform, declare?, hdeclares, if_true, Option.getD_none]
    rw [hsame]
    refine h.step nofun ?_ ?_ ?_ ?_ fun s hs ↦ .inl hs <;> rw [hstack]
    · exact h.scopes
    · exact h.declarations
    · exact h.serials
  | false =>
    let d : Symbol := { name, kind, type, line, column }
    let new : Symbol := { d with serial := table.declarations }
    have hstack : (ScopeStack.ofCalls calls).perform (.declare name kind type line column) =
        ⟨fun n ↦ if n = name then some (ScopeStack.ofCalls calls).declared.length
            else (ScopeStack.ofCalls calls).current n,
          (ScopeStack.ofCalls calls).enclosing, (ScopeStack.ofCalls calls).declared ++ [d]⟩ :=
      if_neg (by simp [← htaken, hdeclares])
    have htable : table.perform (.declare name kind type line column) =
        ⟨⟨table.current.kind, table.current.symbols ++ [new]⟩, table.enclosing, table.closed,
          table.declarations + 1⟩ := by
      simp only [perform, declare?, hdeclares, Bool.false_eq_true, if_false, Option.getD_some]
      rfl
    have hsymbols : (table.perform (.declare name kind type line column)).allSymbols.Perm
        (new :: table.allSymbols) := by
      have hold : table.allSymbols = (table.closed ++ table.current.symbols) ++
          table.enclosing.flatMap (·.symbols) := by simp [allSymbols, SymbolTable.scopes]
      rw [htable, hold]
      simpa [allSymbols, SymbolTable.scopes] using
        @List.perm_middle _ new (table.closed ++ table.current.symbols)
          (table.enclosing.flatMap (·.symbols))
    have hnew : new.Records (calls ++ [.declare name kind type line column]) := by
      constructor
      · refine ⟨d, ?_, rfl⟩
        have hserial : new.serial = (ScopeStack.ofCalls calls).declared.length := h.declarations
        rw [ScopeStack.ofCalls_concat, hstack, hserial]
        exact List.getElem?_concat_length
      · rw [ScopeCall.marks_concat]
        have hlater : ¬ScopeCall.Marks calls new.serial := fun hmarks ↦
          (h.marks _ hmarks).ne h.declarations
        simp [hlater, new, d]
    refine h.step nofun ?_ ?_ ?_ ?_ fun s hs ↦ ?_
    · rw [hstack, htable]
      exact .cons (h.declarations ▸ hcurrent.concat hdeclares) henclosing
    · rw [hstack, htable]
      simp [h.declarations]
    · rw [hstack, List.length_append, List.length_singleton, List.range_succ]
      refine (hsymbols.map _).trans (.trans ?_ (List.perm_append_singleton _ _).symm)
      exact h.declarations ▸ h.serials.cons _
    · rw [hstack]
      exact List.prefix_append _ _
    · obtain rfl | hs := List.mem_cons.mp (hsymbols.mem_iff.mp hs)
      · exact .inr hnew
      · exact .inl hs

theorem allSymbols_markUsed (name : Bytes) : (table.markUsed name).allSymbols =
    table.allSymbols.map (Symbol.marking ((ScopeStack.ofCalls calls).meaning name)) := by
  have hserials := h.nodup_serials
  rw [allSymbols, List.map_append] at hserials
  obtain ⟨-, hopen, hapart⟩ := List.nodup_append.mp hserials
  rw [allSymbols, allSymbols, scopes_markUsed, closed_markUsed, List.map_append,
    flatMap_markUsedIn h.scopes hopen]
  refine congrArg (· ++ _) (Symbol.map_marking fun s hs heq ↦ ?_).symm
  rw [← h.lookup_serial] at heq
  obtain ⟨t, ht, heq⟩ := Option.map_eq_some_iff.mp heq
  exact hapart _ (List.mem_map_of_mem hs) _
    (List.mem_map_of_mem (Scope.mem_of_findSome? ht).1) heq.symm

theorem markUsed (name : Bytes) : (table.markUsed name).Represents (calls ++ [.markUsed name]) := by
  have hstack : ScopeStack.ofCalls (calls ++ [.markUsed name]) = ScopeStack.ofCalls calls :=
    ScopeStack.ofCalls_concat _ _
  have hsymbols := h.allSymbols_markUsed name
  refine ⟨?_, ?_, ?_, fun s hs ↦ ?_, fun number hmarks ↦ ?_⟩
  · rw [hstack, scopes_markUsed]
    exact Scope.represents_extends h.scopes (markUsedIn_extends name _)
  · rw [hstack, ← h.declarations, declarations_markUsed]
  · rw [hstack, hsymbols, List.map_map]
    refine .trans (.of_eq (List.map_congr_left fun s _ ↦ ?_)) h.serials
    exact (Symbol.marks_marking _ s).serial_eq
  · rw [hsymbols] at hs
    obtain ⟨t, ht, rfl⟩ := List.mem_map.mp hs
    exact (h.records t ht).marking name
  · rw [hstack]
    obtain hmarks | ⟨marked, -, hmeaning⟩ := ScopeCall.marks_concat.mp hmarks
    · exact h.marks number hmarks
    · rw [← h.lookup_serial] at hmeaning
      obtain ⟨s, hs, rfl⟩ := Option.map_eq_some_iff.mp hmeaning
      exact (h.records s (mem_allSymbols_of_lookup hs).1).lt

end Represents

/-- A fresh table represents the calls it has had. -/
theorem ofCalls_represents (calls : List ScopeCall) : (ofCalls calls).Represents calls := by
  induction calls using List.reverseRecOn with
  | nil => exact .empty
  | append_singleton calls call ih =>
    rw [ofCalls_append]
    cases call with
    | enter kind => exact ih.enter kind
    | exit => exact ih.exit
    | declare name kind type line column => exact ih.declare name kind type line column
    | markUsed name => exact ih.markUsed name

/-! ## The latest symbols -/

namespace Represents

variable (h : table.Represents calls)

include h

/-- The declaration of a name under a number is the one on record. -/
theorem exists_records {number : Nat} {d : Symbol}
    (hd : (ScopeStack.ofCalls calls).declared[number]? = some d) :
    ∃ s : Symbol, s.Records calls ∧ s.serial = number ∧ s.name = d.name := by
  obtain ⟨s, hs, rfl⟩ := h.exists_mem_allSymbols (List.getElem?_eq_some_iff.mp hd).1
  obtain ⟨e, he, hname⟩ := (h.records s hs).exists_declared
  obtain rfl := Option.some.inj (hd.symm.trans he)
  exact ⟨s, h.records s hs, rfl, hname.symm⟩

theorem mem_latest {s : Symbol} : s ∈ table.latest ↔
    s.Records calls ∧ ∀ t : Symbol, t.Records calls → t.name = s.name → t.serial ≤ s.serial := by
  simp only [latest, mem_foldl_insertSorted, List.not_mem_nil, false_or, List.mem_filter,
    List.all_eq_true, h.mem_allSymbols, Bool.or_eq_true, bne_iff_ne, decide_eq_true_eq,
    ne_eq, ← imp_iff_not_or]

/-- No later declaration has the name of one of the latest symbols. -/
theorem mem_latest_iff {s : Symbol} : s ∈ table.latest ↔
    s.Records calls ∧ ∀ number d, s.serial < number →
      (ScopeStack.ofCalls calls).declared[number]? = some d → d.name ≠ s.name := by
  rw [h.mem_latest]
  refine and_congr_right fun _ ↦ ⟨fun hlast number d hlt hd hname ↦ ?_, fun hlast t ht hname ↦ ?_⟩
  · obtain ⟨t, ht, rfl, htname⟩ := h.exists_records hd
    exact (hlast t ht (htname.trans hname)).not_gt hlt
  · obtain ⟨d, hd, htd⟩ := ht.exists_declared
    by_contra hlt
    exact hlast t.serial d (Nat.not_le.mp hlt) hd (htd.trans hname)

/-- Every name that was ever declared has one latest symbol. -/
theorem map_latest : table.latest.map (·.name) =
    sortedDistinct ((ScopeStack.ofCalls calls).declared.map (·.name)) := by
  have hmem (s : Symbol) : s ∈ table.allSymbols.filter (fun s ↦
      table.allSymbols.all fun t ↦ t.name != s.name || t.serial ≤ s.serial) ↔ s ∈ table.latest := by
    simp only [latest, mem_foldl_insertSorted, List.not_mem_nil, false_or]
  have hnames : table.latest.map (·.name) = sortedDistinct ((table.allSymbols.filter fun s ↦
      table.allSymbols.all fun t ↦ t.name != s.name || t.serial ≤ s.serial).map (·.name)) := by
    refine map_foldl_insertSorted fun s t hs ht hname ↦ ?_
    simp only [List.not_mem_nil, false_or, hmem, h.mem_latest] at hs ht
    exact hs.1.eq ht.1 ((ht.2 s hs.1 hname).antisymm (hs.2 t ht.1 hname.symm))
  refine hnames.trans (sortedDistinct_eq fun name ↦ ?_)
  simp only [List.mem_map, hmem, h.mem_latest]
  constructor
  · rintro ⟨s, ⟨hs, -⟩, rfl⟩
    obtain ⟨d, hd, hname⟩ := hs.exists_declared
    exact ⟨d, List.mem_of_getElem? hd, hname⟩
  · rintro ⟨d, hd, rfl⟩
    obtain ⟨number, hnumber⟩ := List.mem_iff_getElem?.mp hd
    obtain ⟨s, hs, -, hname⟩ := h.exists_records hnumber
    obtain ⟨last, hlast, hmax⟩ := Finset.exists_max_image
      (table.allSymbols.toFinset.filter (·.name = d.name)) (·.serial)
      ⟨s, by simpa [h.mem_allSymbols] using ⟨hs, hname⟩⟩
    simp only [Finset.mem_filter, List.mem_toFinset, h.mem_allSymbols, and_imp] at hlast hmax
    exact ⟨last, ⟨hlast.1, fun t ht htname ↦ hmax t ht (htname.trans hlast.2)⟩, hlast.2⟩

end Represents

end SymbolTable

/-! ## Calls that close what they open -/

/-- Calls that leave only scopes that they have opened. Outside of these they declare some names at
most. -/
inductive ScopeCall.Balanced : Set Bytes → List ScopeCall → Prop
  | nil {names : Set Bytes} : Balanced names []
  | declare {names : Set Bytes} {rest : List ScopeCall} {name : Bytes} (kind : SymbolKind)
    (type : Bytes) (line column : Int) (hname : name ∈ names) (h : Balanced names rest) :
    Balanced names (.declare name kind type line column :: rest)
  | markUsed {names : Set Bytes} {rest : List ScopeCall} (name : Bytes) (h : Balanced names rest) :
    Balanced names (.markUsed name :: rest)
  | scope {names : Set Bytes} {inner rest : List ScopeCall} (kind : ScopeKind)
    (hinner : Balanced Set.univ inner) (h : Balanced names rest) :
    Balanced names (.enter kind :: (inner ++ .exit :: rest))

namespace SymbolTable

theorem extends_perform_declare (table : SymbolTable) {names : Set Bytes} (hname : name ∈ names)
    (kind : SymbolKind) (type : Bytes) (line column : Int) :
    table.Extends names (table.perform (.declare name kind type line column)) := by
  rw [perform]
  cases hdeclare : table.declare? { name, kind, type, line, column } with
  | none => exact .refl table
  | some table' => exact extends_declare? hdeclare hname

/-- The scopes that were open stay open, with the symbols that they had. -/
theorem extends_of_balanced {names : Set Bytes} (h : ScopeCall.Balanced names calls)
    (table : SymbolTable) : table.Extends names (calls.foldl perform table) := by
  induction h generalizing table with
  | nil => exact .refl table
  | declare kind type line column hname _ ih =>
    exact (table.extends_perform_declare hname kind type line column).trans (ih _)
  | markUsed name _ ih => exact (table.markUsed_extends name).trans (ih _)
  | scope kind _ _ ihinner ih =>
    rw [List.foldl_cons, List.foldl_append, List.foldl_cons]
    exact (ihinner (table.enter kind)).exit.trans (ih _)

/-! ## Tables and stacks -/

/-- What a table tells after some calls, by the stack of scopes that these leave. -/
structure Refines (table : SymbolTable) (calls : List ScopeCall) : Prop where
  /-- A name means its declaration in the innermost open scope that has one. -/
  lookup (name : Bytes) :
    (table.lookup name).map (·.serial) = (ScopeStack.ofCalls calls).meaning name
  records (s : Symbol) (name : Bytes) (h : table.lookup name = some s) :
    s.name = name ∧ s.Records calls
  declare_eq_none (symbol : Symbol) : table.declare? symbol = none ↔
    ((ScopeStack.ofCalls calls).current symbol.name).isSome
  perform_declare (name : Bytes) (kind : SymbolKind) (type : Bytes) (line column : Int)
    (h : ((ScopeStack.ofCalls calls).current name).isSome) :
    table.perform (.declare name kind type line column) = table
  depth : table.depth = (ScopeStack.ofCalls calls).enclosing.length
  exit (h : table.depth = 0) : table.exit = table
  /-- The latest symbols have every name that was ever declared once. -/
  latest_names : table.latest.map (·.name) =
    sortedDistinct ((ScopeStack.ofCalls calls).declared.map (·.name))
  latest (s : Symbol) : s ∈ table.latest ↔
    s.Records calls ∧ ∀ number d, s.serial < number →
      (ScopeStack.ofCalls calls).declared[number]? = some d → d.name ≠ s.name
  /-- Scopes that have been closed leave only marks. -/
  balanced (names : Set Bytes) (more : List ScopeCall) (h : ScopeCall.Balanced names more)
    (name : Bytes) (hname : name ∉ names) :
    Option.Rel Symbol.Marks (table.lookup name) ((more.foldl perform table).lookup name)

/-- A table is a stack of scopes that keeps a record of all its declarations. -/
theorem ofCalls_refines (calls : List ScopeCall) : (ofCalls calls).Refines calls := by
  have h := ofCalls_represents calls
  refine ⟨h.lookup_serial, fun s name hlookup ↦ ?_, fun symbol ↦ ?_, ?_, h.depth_eq, ?_,
    h.map_latest, fun s ↦ h.mem_latest_iff, ?_⟩
  · obtain ⟨hmem, hname⟩ := mem_allSymbols_of_lookup hlookup
    exact ⟨hname, h.records s hmem⟩
  · rw [← h.declares_iff, declare?]
    split <;> simp_all
  · intro name kind type line column htaken
    rw [← h.declares_iff] at htaken
    simp only [perform, declare?, htaken, if_true, Option.getD_none]
  · intro hdepth
    rw [SymbolTable.exit, List.length_eq_zero_iff.mp hdepth]
  · intro names more hmore name hname
    exact (extends_of_balanced hmore _).lookup hname

/-- A shadowing declaration is the latest one of its name when its scope has been closed. -/
example :
    let table := ofCalls [.declare (bytes "x") .variable_ [] 1 1, .enter .block,
      .declare (bytes "x") .constant [] 2 3, .markUsed (bytes "x"), .exit]
    table.lookup (bytes "x") = some ⟨bytes "x", .variable_, [], false, 1, 1, 0⟩ ∧
      table.latest = [⟨bytes "x", .constant, [], true, 2, 3, 1⟩] := by
  decide

end SymbolTable

end SignalView
