import SignalView.Proofs.Grammar.Expressions

/-!
# Extents of operands

A construct that is read spans the tokens from its first one to its last one, and its children lie
between the two. The decorators of a class are the exception: they stand in front of it. A key that
is written out is no child of its construct, and one that is a text ends with the token in front of
it.
-/

namespace SignalView

open Parse

/-! ## Parts that lie apart -/

section Apart

variable {α : Type}

/-- The key of a property, unless it is computed. -/
def Property.literalKeys (p : Property α) : List α := if p.computed then [] else p.key.toList

/-- The key of a member, unless it is computed. -/
def ClassMember.literalKeys (m : ClassMember α) : List α := if m.computed then [] else m.key.toList

/-- The keys of a construct that are written out. They are no children of it. -/
def Plain.literalKeys : Plain α → List α
  | .object properties => properties.flatMap (·.literalKeys)
  | .classDeclaration c => c.members.flatMap (·.literalKeys)
  | _ => []

/-- The decorators of a class, which are children of it. -/
def Plain.decorators : Plain α → List α
  | .classDeclaration c => c.decorators
  | _ => []

end Apart

def Node.literalKeys : Node → List Node
  | .plain _ form => form.literalKeys
  | .surface _ _ => []

def Node.decorators : Node → List Node
  | .plain _ form => form.decorators
  | .surface _ _ => []

namespace Tape

/-! ## Spans -/

section Spans

variable (tape : Tape)

/-- The range from the start of the token at a place to the end of the token before another. -/
def span (p q : Nat) : Range := ⟨(tape.token p).start, (tape.token (q - 1)).stopPosition⟩

/-- A key that is written out between two places. A name or a number spans its token, and a text
ends before it. -/
inductive Key (o r : Nat) : Node → Prop
  | name {p : Nat} {name : Bytes} (ho : o < p) (hr : p < r) :
    Key o r (.plain (tape.span p (p + 1)) (.identifier name))
  | number {p : Nat} {raw : Bytes} {isBigint : Bool} (ho : o < p) (hr : p < r) :
    Key o r (.plain (tape.span p (p + 1)) (.number raw isBigint))
  | text {p : Nat} {value : Bytes} (ho : o < p) (hr : p < r) :
    Key o r (.plain (tape.span p p) (.string value))

/-- The construct lies between two places: it spans some tokens there, and so do all constructs in
it among these tokens. Only decorators of classes may lie anywhere in front. -/
inductive Within : Nat → Nat → Node → Prop
  | plain {o p q r : Nat} {form : Plain Node} (ho : o ≤ p) (hpq : p < q) (hr : q ≤ r)
    (hparts : ∀ part ∈ form.children, part ∉ form.decorators → Within p q part)
    (hkeys : ∀ key ∈ form.literalKeys, tape.Key p q key)
    (hdecorators : ∀ part ∈ form.decorators, Within 0 p part) :
    Within o r (.plain (tape.span p q) form)
  | surface {o p q r : Nat} {form : Surface Node} (ho : o ≤ p) (hpq : p < q) (hr : q ≤ r)
    (hparts : ∀ part ∈ form.children, Within p q part) :
    Within o r (.surface (tape.span p q) form)

/-- All of some constructs lie between two places. -/
def AllWithin (o r : Nat) (nodes : List Node) : Prop := ∀ node ∈ nodes, tape.Within o r node

/-- A key between two places; one that is computed is a construct like all others. -/
def KeyWithin (o r : Nat) (key : Node) : Bool → Prop
  | true => tape.Within o r key
  | false => tape.Key o r key

/-- Constructs and keys between two places. -/
structure Holds (o r : Nat) (nodes keys : List Node) : Prop where
  nodes : tape.AllWithin o r nodes
  keys : ∀ key ∈ keys, tape.Key o r key

abbrev PropertyWithin (o r : Nat) (p : Property Node) : Prop :=
  tape.Holds o r p.children p.literalKeys

abbrev MemberWithin (o r : Nat) (m : ClassMember Node) : Prop :=
  tape.Holds o r m.children m.literalKeys

end Spans

variable {tape : Tape} {o p q r : Nat} {node key : Node} {nodes keys : List Node}

theorem Key.mono (h : tape.Key o q key) (hpo : p ≤ o) (hqr : q ≤ r) : tape.Key p r key := by
  cases h with
  | name ho hq => exact .name (Nat.lt_of_le_of_lt hpo ho) (Nat.lt_of_lt_of_le hq hqr)
  | number ho hq => exact .number (Nat.lt_of_le_of_lt hpo ho) (Nat.lt_of_lt_of_le hq hqr)
  | text ho hq => exact .text (Nat.lt_of_le_of_lt hpo ho) (Nat.lt_of_lt_of_le hq hqr)

theorem Key.upTo (h : tape.Key o q key) (r : Nat) (hqr : q ≤ r) : tape.Key o r key :=
  h.mono (Nat.le_refl o) hqr

namespace Within

theorem mono (h : tape.Within o q node) (hpo : p ≤ o) (hqr : q ≤ r) : tape.Within p r node := by
  cases h with
  | plain ho hlt hq hparts hkeys hdecorators =>
    exact .plain (Nat.le_trans hpo ho) hlt (Nat.le_trans hq hqr) hparts hkeys hdecorators
  | surface ho hlt hq hparts =>
    exact .surface (Nat.le_trans hpo ho) hlt (Nat.le_trans hq hqr) hparts

theorem upTo (h : tape.Within o q node) (r : Nat) (hqr : q ≤ r) : tape.Within o r node :=
  h.mono (Nat.le_refl o) hqr

theorem lt (h : tape.Within o q node) : o < q := by
  cases h with
  | plain ho hlt hq | surface ho hlt hq => exact Nat.lt_of_le_of_lt ho (Nat.lt_of_lt_of_le hlt hq)

/-- A construct without keys and decorators. -/
theorem of_parts {form : Plain Node} (hpq : p < q)
    (hform : form.literalKeys ++ form.decorators = []) (hparts : tape.AllWithin p q form.children) :
    tape.Within p q (.plain (tape.span p q) form) := by
  obtain ⟨hkeys, hdecorators⟩ := List.append_eq_nil_iff.mp hform
  refine .plain (Nat.le_refl p) hpq (Nat.le_refl q) (fun part hpart _ ↦ hparts part hpart) ?_ ?_
  · simp [hkeys]
  · simp [hdecorators]

theorem of_surface_parts {form : Surface Node} (hpq : p < q)
    (hparts : tape.AllWithin p q form.children) :
    tape.Within p q (.surface (tape.span p q) form) :=
  .surface (Nat.le_refl p) hpq (Nat.le_refl q) hparts

theorem leaf {form : Plain Node} (hpq : p < q) (hform : form.literalKeys ++ form.decorators = [])
    (hchildren : form.children = []) : tape.Within p q (.plain (tape.span p q) form) :=
  of_parts hpq hform fun part hpart ↦ by simp [hchildren] at hpart

/-- A construct without decorators may start at a token in front of it. -/
theorem startingAt (h : tape.Within p q node) (hop : o ≤ p) (hdecorators : node.decorators = []) :
    tape.Within o q (node.startingAt (tape.token o).start) := by
  have hlt := h.lt
  cases h with
  | @plain _ s t _ form hs hlt ht hparts hkeys =>
    have hnone : form.decorators = [] := hdecorators
    refine .plain (p := o) (q := t) (Nat.le_refl o) (by omega) ht (fun part hpart hout ↦ ?_)
      (fun key hkey ↦ ?_) (by simp [hnone])
    · exact (hparts part hpart hout).mono (by omega) (Nat.le_refl t)
    · exact (hkeys key hkey).mono (by omega) (Nat.le_refl t)
  | @surface _ s t _ form hs hlt ht hparts =>
    refine .surface (p := o) (q := t) (Nat.le_refl o) (by omega) ht fun part hpart ↦ ?_
    exact (hparts part hpart).mono (by omega) (Nat.le_refl t)

end Within

namespace AllWithin

@[simp]
theorem nil : tape.AllWithin o r [] := List.forall_mem_nil _

@[simp]
theorem cons_iff : tape.AllWithin o r (node :: nodes) ↔
    tape.Within o r node ∧ tape.AllWithin o r nodes :=
  List.forall_mem_cons

@[simp]
theorem append_iff {others : List Node} : tape.AllWithin o r (nodes ++ others) ↔
    tape.AllWithin o r nodes ∧ tape.AllWithin o r others :=
  List.forall_mem_append

@[simp]
theorem flatMap_iff {α : Type} {items : List α} {parts : α → List Node} :
    tape.AllWithin o r (items.flatMap parts) ↔ ∀ item ∈ items, tape.AllWithin o r (parts item) :=
  List.forall_mem_flatMap

theorem mono (h : tape.AllWithin o q nodes) (hpo : p ≤ o) (hqr : q ≤ r) :
    tape.AllWithin p r nodes :=
  fun node hnode ↦ (h node hnode).mono hpo hqr

theorem upTo (h : tape.AllWithin o q nodes) (r : Nat) (hqr : q ≤ r) :
    tape.AllWithin o r nodes :=
  h.mono (Nat.le_refl o) hqr

end AllWithin

theorem KeyWithin.upTo {computed : Bool} (h : tape.KeyWithin o q key computed) (r : Nat)
    (hqr : q ≤ r) : tape.KeyWithin o r key computed := by
  cases computed with
  | true => exact Within.upTo h r hqr
  | false => exact Key.upTo h r hqr

theorem Holds.upTo (h : tape.Holds o q nodes keys) (r : Nat) (hqr : q ≤ r) :
    tape.Holds o r nodes keys :=
  ⟨h.nodes.upTo r hqr, fun key hkey ↦ (h.keys key hkey).upTo r hqr⟩

theorem KeyWithin.property {computed : Bool} (h : tape.KeyWithin o r key computed) {value : Node}
    (hvalue : tape.Within o r value) (kind : PropertyKind) :
    tape.PropertyWithin o r
      { kind := kind, key := some key, computed := computed, value := some value } := by
  cases computed with
  | true => exact ⟨by simpa [Property.children] using ⟨h, hvalue⟩, by simp [Property.literalKeys]⟩
  | false => exact ⟨by simpa [Property.children] using hvalue, List.forall_mem_singleton.mpr h⟩

theorem KeyWithin.member {m : ClassMember Node} (h : tape.KeyWithin o r key m.computed)
    (hkey : m.key = some key) (hdecorators : tape.AllWithin o r m.decorators)
    (hvalue : tape.AllWithin o r m.value.toList) (hblock : m.block = none) :
    tape.MemberWithin o r m := by
  have hrest : tape.AllWithin o r m.block.toList := by simp [hblock]
  cases hcomputed : m.computed with
  | true =>
    rw [hcomputed] at h
    refine ⟨?_, by simp [ClassMember.literalKeys, hcomputed]⟩
    simpa [ClassMember.children, hcomputed, hkey] using ⟨hdecorators, h, hvalue, hrest⟩
  | false =>
    rw [hcomputed] at h
    refine ⟨?_, by simpa [ClassMember.literalKeys, hcomputed, hkey, KeyWithin] using h⟩
    simpa [ClassMember.children, hcomputed] using ⟨hdecorators, hvalue, hrest⟩

namespace Within

theorem object {properties : List (Property Node)} (hpq : p < q)
    (h : ∀ property ∈ properties, tape.PropertyWithin p q property) :
    tape.Within p q (.plain (tape.span p q) (.object properties)) := by
  have hnodes : tape.AllWithin p q (Plain.object properties).children :=
    AllWithin.flatMap_iff.mpr fun property hmem ↦ (h property hmem).nodes
  refine .plain (Nat.le_refl p) hpq (Nat.le_refl q) (fun part hpart _ ↦ hnodes part hpart) ?_ ?_
  · exact List.forall_mem_flatMap.mpr fun property hmem ↦ (h property hmem).keys
  · exact List.forall_mem_nil _

/-- A class behind its decorators. -/
theorem classDeclaration {c : ClassShape Node} (hpq : p < q)
    (hdecorators : tape.AllWithin 0 p c.decorators)
    (hparent : tape.AllWithin p q c.superClass.toList)
    (hmembers : ∀ m ∈ c.members, tape.MemberWithin p q m) :
    tape.Within p q (.plain (tape.span p q) (.classDeclaration c)) := by
  refine .plain (Nat.le_refl p) hpq (Nat.le_refl q) (fun part hpart hout ↦ ?_) ?_ hdecorators
  · obtain hpart | hpart := List.mem_append.mp hpart
    · obtain hpart | hpart := List.mem_append.mp hpart
      · exact absurd hpart hout
      · exact hparent part hpart
    · obtain ⟨m, hm, hpart⟩ := List.mem_flatMap.mp hpart
      exact (hmembers m hm).nodes part hpart
  · exact List.forall_mem_flatMap.mpr fun m hm ↦ (hmembers m hm).keys

end Within

/-! ## Readings -/

variable {α β σ : Type}

/-- The action moves on, and its value suits where it comes to, or it fails. -/
abbrev PassesTo (tape : Tape) (o p : Nat) (action : Parse α) (K : α → Nat → Prop) : Prop :=
  tape.Reads o p action fun value q ↦ p < q ∧ K value q

/-- The action moves on and gives a construct between the origin and where it comes to, or fails. -/
abbrev Lays (tape : Tape) (o p : Nat) (action : Parse Node) : Prop :=
  tape.PassesTo o p action fun node q ↦ tape.Within o q node

/-- The action lays a declaration with some decorators, or fails. -/
abbrev Declares (tape : Tape) (o p : Nat) (action : Parse Node) (decorators : List Node) : Prop :=
  tape.PassesTo o p action fun node q ↦ tape.Within o q node ∧ node.decorators = decorators

variable {action : Parse α} {next : α → Parse β} {K : α → Nat → Prop} {R : β → Nat → Prop}

namespace PassesTo

theorem bind (h : tape.PassesTo o p action K)
    (hnext : ∀ value q, p < q → q ≤ tape.size → K value q → tape.Reads o q (next value) R) :
    tape.Reads o p (action >>= next) R :=
  Reads.bind h fun value q _ hq hvalue ↦ hnext value q hvalue.1 hq hvalue.2

theorem onward (h : tape.PassesTo o q action K) (hpq : p ≤ q) :
    tape.Reads o q action fun value r ↦ p < r ∧ K value r :=
  Reads.mono h fun _ _ _ _ hvalue ↦ ⟨Nat.lt_of_le_of_lt hpq hvalue.1, hvalue.2⟩

end PassesTo

namespace Reads

/-- A failure behind an origin is one behind every origin in front of it. -/
theorem rebase {Q : α → Nat → Prop} (h : tape.Reads p q action Q) (hop : o ≤ p) (hpq : p ≤ q) :
    tape.Reads o q action Q := by
  intro _ hq context deeper hbeside
  obtain hok | ⟨failure, r, hrun, hqr, hr, hcode, t, hpt, htr, hplace⟩ := h hpq hq hbeside
  · exact .inl hok
  · exact .inr ⟨failure, r, hrun, hqr, hr, hcode, t, Nat.le_trans hop hpt, htr, hplace⟩

/-- Between the first place and the last one there is a token before each cursor. -/
theorem rangeFrom {next : Range → Parse β} (hq : 0 < q)
    (hnext : tape.Reads o q (next (tape.span p q)) R) :
    tape.Reads o q (Parse.rangeFrom (tape.token p) >>= next) R := by
  refine within fun _ hsize ↦ ?_
  have hprevious : (tape.cursor q).before.head? = some (tape.token (q - 1)) := by
    have hlt : q - 1 < tape.size := by omega
    have hcursor := cursor_succ hlt
    rw [Nat.sub_add_cancel hq] at hcursor
    rw [hcursor]
    rfl
  have hrun (context : ParseContext) (_ : context.final = tape.final) :
      Parse.rangeFrom (tape.token p) context (tape.cursor q) =
        .ok (tape.span p q) (tape.cursor q) := by
    rw [Parse.rangeFrom, hprevious]
    rfl
  exact after (Nat.le_refl q) hsize hrun hnext

theorem nodeFrom {form : Plain Node} {Q : Node → Nat → Prop} (hpq : p < q)
    (h : Q (.plain (tape.span p q) form) q) :
    tape.Reads o q (Parse.node (tape.token p) form) Q :=
  rangeFrom (Nat.zero_lt_of_lt hpq) (pure h)

theorem nodeFromThen {form : Plain Node} {next : Node → Parse β} (hq : 0 < q)
    (hnext : tape.Reads o q (next (.plain (tape.span p q) form)) R) :
    tape.Reads o q (Parse.node (tape.token p) form >>= next) R := by
  refine bind (P := fun node r ↦ r = q ∧ node = .plain (tape.span p q) form) ?_ ?_
  · exact rangeFrom hq (pure ⟨rfl, rfl⟩)
  · rintro _ r _ _ ⟨rfl, rfl⟩
    exact hnext

theorem surfaceFrom {form : Surface Node} {Q : Node → Nat → Prop} (hpq : p < q)
    (h : Q (.surface (tape.span p q) form) q) :
    tape.Reads o q (Parse.surface (tape.token p) form) Q :=
  rangeFrom (Nat.zero_lt_of_lt hpq) (pure h)

end Reads

/-- What lies behind a place lies behind every origin in front of it. -/
theorem Lays.rebase {action : Parse Node} (h : tape.Lays p p action) : tape.Lays o p action :=
  Reads.within fun ho _ ↦ (Reads.rebase h ho (Nat.le_refl p)).mono fun _ q _ _ hnode ↦
    ⟨hnode.1, hnode.2.mono ho (Nat.le_refl q)⟩

theorem Declares.rebase {action : Parse Node} {decorators : List Node}
    (h : tape.Declares p p action decorators) : tape.Declares o p action decorators :=
  Reads.within fun ho _ ↦ (Reads.rebase h ho (Nat.le_refl p)).mono fun _ q _ _ hnode ↦
    ⟨hnode.1, hnode.2.1.mono ho (Nat.le_refl q), hnode.2.2⟩

theorem Declares.lays {action : Parse Node} {decorators : List Node}
    (h : tape.Declares o p action decorators) : tape.Lays o p action :=
  Reads.mono h fun _ _ _ _ hnode ↦ ⟨hnode.1, hnode.2.1⟩

/-! ### Lists -/

namespace Reads

section Lists

variable {more : Parse Bool} {f : Nat → Nat} {c : Nat → Prop}
  [hmore : ∀ q, Tests tape q more (f q) (c q)] {rounds : Nat}
  (hmono : ∀ value q, K value q → ∀ r, q ≤ r → K value r)

include hmono

omit hmore in
theorem forall_concat {values : List α} {value : α} (hvalues : ∀ v ∈ values, K v q) (hqr : q ≤ r)
    (hvalue : K value r) : ∀ v ∈ values ++ [value], K v r := by
  rw [List.forall_mem_append, List.forall_mem_singleton]
  exact ⟨fun v hv ↦ hmono v q (hvalues v hv) r hqr, hvalue⟩

theorem manyWhileTo {item : Parse α}
    (hitem : ∀ q, p ≤ q → q ≤ f q → f q ≤ tape.size → c q →
      tape.Reads o (f q) item fun value r ↦ q < r ∧ K value r)
    (hrounds : tape.size - p < rounds) :
    tape.Reads o p (Parse.manyWhile rounds more item) fun values q ↦ ∀ v ∈ values, K v q := by
  refine iterate (P := fun values q ↦ ∀ v ∈ values, K v q) ?_ hrounds (by simp)
  intro values q hpq hq hvalues
  refine test (fun hc hqf hf ↦ (hitem q hpq hqf hf hc).bind ?_) (pure (.last hvalues))
  rintro value r _ _ ⟨hlt, hvalue⟩
  exact pure (.more hlt (forall_concat hmono hvalues (Nat.le_of_lt hlt) hvalue))

theorem looseListTo {item : Parse (α × Bool)}
    (hitem : ∀ q, p ≤ q → q ≤ f q → f q ≤ tape.size → c q →
      tape.Reads o (f q) item fun value r ↦ q < r ∧ K value.1 r)
    (hrounds : tape.size - p < rounds) :
    tape.Reads o p (Parse.looseList rounds more item) fun values q ↦ ∀ v ∈ values, K v q := by
  refine iterate (P := fun values q ↦ ∀ v ∈ values, K v q) ?_ hrounds (by simp)
  intro values q hpq hq hvalues
  refine test (fun hc hqf hf ↦ (hitem q hpq hqf hf hc).bind ?_) (pure (.last hvalues))
  rintro ⟨value, needsComma⟩ r _ _ ⟨hlt, hvalue⟩
  have hall (s : Nat) (hrs : r ≤ s) : ∀ v ∈ values ++ [value], K v s :=
    forall_concat hmono hvalues (by omega) (hmono value r hvalue s hrs)
  refine ite (fun _ ↦ decide (fun _ hrs _ ↦ pure (.more (by omega) (hall _ hrs))) ?_) fun _ ↦ ?_
  · exact pure (.last (hall r (Nat.le_refl r)))
  · exact pure (.more hlt (hall r (Nat.le_refl r)))

theorem commaListTo {item : Parse α}
    (hitem : ∀ q, p ≤ q → q ≤ f q → f q ≤ tape.size → c q →
      tape.Reads o (f q) item fun value r ↦ q < r ∧ K value r)
    (hrounds : tape.size - p < rounds) :
    tape.Reads o p (Parse.commaList rounds more item) fun values q ↦ ∀ v ∈ values, K v q :=
  looseListTo hmono
    (fun q hpq hqf hf hc ↦ (hitem q hpq hqf hf hc).bind fun _ _ _ _ h ↦ pure h) hrounds

omit hmono

theorem manyWhileWithin {item : Parse Node}
    (hitem : ∀ q, p ≤ q → q ≤ f q → f q ≤ tape.size → c q → tape.Lays o (f q) item)
    (hrounds : tape.size - p < rounds) :
    tape.Reads o p (Parse.manyWhile rounds more item) fun nodes q ↦ tape.AllWithin o q nodes :=
  manyWhileTo (K := fun node q ↦ tape.Within o q node) (fun _ _ ↦ Within.upTo)
    (fun q hpq hqf hf hc ↦ (hitem q hpq hqf hf hc).onward hqf) hrounds

theorem commaListWithin {item : Parse Node}
    (hitem : ∀ q, p ≤ q → q ≤ f q → f q ≤ tape.size → c q → tape.Lays o (f q) item)
    (hrounds : tape.size - p < rounds) :
    tape.Reads o p (Parse.commaList rounds more item) fun nodes q ↦ tape.AllWithin o q nodes :=
  commaListTo (K := fun node q ↦ tape.Within o q node) (fun _ _ ↦ Within.upTo)
    (fun q hpq hqf hf hc ↦ (hitem q hpq hqf hf hc).onward hqf) hrounds

end Lists

/-- A name that may be missing. -/
theorem nameIf {present : Parse Bool} {c : Prop} [Tests tape p present p c]
    (hname : c → (tape.kind p).isName = true) :
    tape.Skips o p (Parse.textIf present Parse.take) fun _ ↦ True :=
  Skips.textIf fun hc _ _ ↦ (takes (lt_size_of_holds (f := TokenKind.isName) (hname hc) rfl)).mono
    fun _ _ _ _ _ ↦ trivial

theorem returnSome {Q : Option α → Nat → Prop}
    (h : tape.Reads o p action fun value q ↦ Q (some value) q) :
    tape.Reads o p (do return some (← action)) Q :=
  h.bind fun _ _ _ _ hvalue ↦ pure hvalue

/-- A construct that may be missing. -/
theorem optionallyWithin {present : Parse Bool} {part : Parse Node} {c : Prop}
    [Tests tape p present q c] (hpart : c → p ≤ q → q ≤ tape.size → tape.Lays o q part) :
    tape.Reads o p (Parse.optionally present part) fun part r ↦ tape.AllWithin o r part.toList := by
  refine optionally (fun hc hpq hq ↦ (hpart hc hpq hq).mono fun node r _ _ hnode ↦ ?_) (by simp)
  simpa using hnode.2

end Reads

/-- The entry points of a grammar lay what they stand for, given enough levels. -/
structure Extends (tape : Tape) (g : Grammar) (level : Nat) : Prop where
  serves : tape.Serves g level
  statement {o p : Nat} (h : 12 * (tape.size - p) + 7 ≤ level) : tape.Lays o p g.statement
  assignment {o p : Nat} (h : 12 * (tape.size - p) + 6 ≤ level) : tape.Lays o p g.assignment
  binary {o p : Nat} (h : 12 * (tape.size - p) + 5 ≤ level) (least : Nat) :
    tape.Lays o p (g.binary least)
  unary {o p : Nat} (h : 12 * (tape.size - p) + 4 ≤ level) : tape.Lays o p g.unary
  primary {o p : Nat} (h : 12 * (tape.size - p) + 3 ≤ level) : tape.Lays o p g.primary
  construction {o p : Nat} (h : 12 * (tape.size - p) + 2 ≤ level) : tape.Lays o p g.construction
  element {o p : Nat} (h : 12 * (tape.size - p) + 2 ≤ level) : tape.Lays o p g.element
  bindingTarget {o p : Nat} (h : 12 * (tape.size - p) + 2 ≤ level) : tape.Lays o p g.bindingTarget

end Tape

namespace Grammar

open Tape

variable {tape : Tape} {o p s level : Nat} {g : Grammar}

section Extents

variable (h : tape.Extends g level)
include h

/-! ## Operands -/

theorem expression_lays (hlevel : 12 * (tape.size - p) + 6 ≤ level) :
    tape.Lays o p g.expression := by
  have hrounds := h.serves.rounds
  refine .rebase (.ask ((h.assignment hlevel).bind fun first q hq _ hfirst ↦ ?_))
  refine .test (fun _ _ _ ↦ ?_) (.pure ⟨hq, hfirst⟩)
  refine (Reads.manyWhileWithin (fun r hr _ _ _ ↦ h.assignment (by omega)) (by omega)).bind
    fun rest r hr _ hrest ↦ .nodeFrom (by omega) ⟨by omega, .of_parts (by omega) rfl ?_⟩
  simpa [Plain.children] using ⟨hfirst.upTo r hr, hrest⟩

omit h in
theorem spreadOr_lays {part otherwise : Parse Node}
    (hpart : p < tape.size → tape.Lays p (p + 1) part) (hother : tape.Lays p p otherwise) :
    tape.Lays o p (spreadOr part otherwise) := by
  refine .rebase (.ask (.test (fun hfound _ _ ↦ ?_) hother))
  refine (hpart hfound.2).bind fun argument q hq _ hargument ↦ .nodeFrom (by omega) ⟨by omega, ?_⟩
  exact .of_parts (by omega) rfl (by simpa [Plain.children] using hargument)

theorem item_lays (hlevel : 12 * (tape.size - p) + 6 ≤ level) :
    tape.Lays o p (spreadOr g.assignment g.assignment) :=
  spreadOr_lays (fun _ ↦ h.assignment (by omega)) (h.assignment hlevel)

theorem arguments_lays (hlevel : 12 * (tape.size - p) ≤ level) :
    tape.PassesTo o p g.arguments fun args q ↦ tape.AllWithin o q args := by
  have hrounds := h.serves.rounds
  refine .expectMark fun _ ↦ (Reads.allowingIn (Reads.commaListWithin
    (fun q hq _ _ _ ↦ item_lays h (by omega)) (by omega))).bind fun args q hq _ hargs ↦ ?_
  exact .expectMark fun _ ↦ .pure ⟨by omega, hargs.upTo _ (Nat.le_succ q)⟩

/-! ## Templates -/

theorem templateStep_within (hlevel : 12 * (tape.size - p) + 6 ≤ level)
    {parts : List Bytes × List Node} (hparts : tape.AllWithin o p parts.2) :
    tape.Reads o p (g.templateStep parts)
      (Reads.Round (fun parts q ↦ tape.AllWithin o q parts.2)
        (fun parts q ↦ tape.AllWithin o q parts.2) p) := by
  refine (expression_lays h hlevel).bind fun hole q hq _ hhole ↦ .ask ?_
  have hnext : tape.AllWithin o (q + 1) (parts.2 ++ [hole]) :=
    by simpa using ⟨hparts.upTo (q + 1) (by omega), hhole.upTo (q + 1) (Nat.le_succ q)⟩
  refine .test (fun _ _ _ ↦ .pure (.more (by omega) hnext)) ?_
  exact .expect fun _ _ ↦ .pure (.last hnext)

theorem templateLiteral_lays (hlevel : 12 * (tape.size - p) ≤ level) :
    tape.Lays o p g.templateLiteral := by
  have hrounds := h.serves.rounds
  refine .rebase (.ask (.test (fun _ _ _ ↦ .nodeFrom (by omega) ⟨by omega, ?_⟩)
    (.expect fun _ hlt ↦ ?_)))
  · exact .leaf (by omega) rfl rfl
  · have hparts : tape.Reads p (p + 1) (iterate g.templateStep g.rounds
        ([(tape.token p).value], [])) fun parts q ↦ tape.AllWithin p q parts.2 := by
      refine .iterate (P := fun parts q ↦ tape.AllWithin p q parts.2)
        (fun parts q hq _ hparts ↦ ?_) (by omega) (by simp)
      exact templateStep_within h (by omega) hparts
    refine hparts.allowingIn.bind ?_
    rintro ⟨quasis, holes⟩ q hq _ hholes
    exact .nodeFrom (by omega) ⟨by omega, .of_parts (by omega) rfl hholes⟩

/-! ## Chains -/

section Chains

variable {receiver : Node} (hreceiver : tape.Within s p receiver)
include hreceiver

omit h in
theorem call_within {q : Nat} (hpq : p ≤ q) {args : List Node} (hargs : tape.AllWithin s q args)
    (typeArguments : List Bytes) (optional : Bool) :
    tape.Within s q (.plain (tape.span s q) (.call receiver typeArguments args optional)) := by
  have hlt := hreceiver.lt
  exact .of_parts (by omega) rfl (AllWithin.cons_iff.mpr ⟨hreceiver.upTo q hpq, hargs⟩)

omit h in
theorem member_within {q : Nat} (hpq : p ≤ q) {key : MemberKey Node}
    (hkey : tape.AllWithin s q key.children) (optional : Bool) :
    tape.Within s q (.plain (tape.span s q) (.member receiver key optional)) := by
  have hlt := hreceiver.lt
  exact .of_parts (by omega) rfl (AllWithin.cons_iff.mpr ⟨hreceiver.upTo q hpq, hkey⟩)

omit h in
theorem taggedTemplate_within {q : Nat} (hpq : p ≤ q) {quasi : Node}
    (hquasi : tape.Within s q quasi) (typeArguments : List Bytes) :
    tape.Within s q (.plain (tape.span s q) (.taggedTemplate receiver typeArguments quasi)) := by
  have hlt := hreceiver.lt
  exact .of_parts (by omega) rfl
    (by simpa [Plain.children] using ⟨hreceiver.upTo q hpq, hquasi⟩)

theorem optionalLink_lays (hlevel : 12 * (tape.size - p) + 6 ≤ level) :
    tape.Lays s p (g.optionalLink (tape.token s) receiver) := by
  have hlt := hreceiver.lt
  refine .test (fun _ _ _ ↦ ?_) (.test (fun _ _ _ ↦ ?_) ?_)
  · refine (arguments_lays h (by omega)).bind fun args q hq _ hargs ↦ ?_
    exact .nodeFrom (by omega) ⟨hq, call_within hreceiver (by omega) hargs _ _⟩
  · refine (expression_lays h (by omega)).bind fun index q hq _ hindex ↦ .expectMark fun _ ↦ ?_
    have hindex := hindex.upTo (q + 1) (Nat.le_succ q)
    refine .nodeFrom (by omega) ⟨by omega, member_within hreceiver (by omega) ?_ _⟩
    simpa [MemberKey.children] using hindex
  · refine Passes.bind (Reads.expectMemberName (by simp)) fun name q hq _ _ ↦ ?_
    refine .nodeFrom (by omega) ⟨hq, member_within hreceiver (by omega) ?_ _⟩
    simp [MemberKey.children]

/-- A link behind what has been read from a place on. -/
abbrev LinksTo (tape : Tape) (s p : Nat) (action : Parse (Option Node)) : Prop :=
  tape.Reads s p action fun link q ↦ ∀ node ∈ link, p < q ∧ tape.Within s q node

omit h hreceiver in
theorem LinksTo.stop : LinksTo tape s p (pure none) := .pure (by simp)

omit h hreceiver in
theorem LinksTo.of_lays {q : Nat} {action : Parse Node} (h : tape.Lays s q action) (hpq : p ≤ q) :
    tape.Reads s q (do return some (← action)) fun link r ↦
      ∀ node ∈ link, p < r ∧ tape.Within s r node :=
  .returnSome (h.mono fun node r _ _ hnode ↦ by
    simpa using ⟨Nat.lt_of_le_of_lt hpq hnode.1, hnode.2⟩)

omit h hreceiver in
theorem LinksTo.node {q : Nat} {form : Plain Node} (hsp : s < p) (hpq : p < q)
    (h : tape.Within s q (.plain (tape.span s q) form)) :
    tape.Reads s q (do return some (← Parse.node (tape.token s) form)) fun link r ↦
      ∀ node ∈ link, p < r ∧ tape.Within s r node :=
  .returnSome (.nodeFrom (by omega) (by simpa using ⟨hpq, h⟩))

theorem genericLink_within (hlevel : 12 * (tape.size - p) ≤ level) :
    LinksTo tape s p (g.genericLink (tape.token s) receiver) := by
  have hlt := hreceiver.lt
  have htemplate : LinksTo tape s p (do
      let typeArguments ← g.typeArguments
      let quasi ← g.templateLiteral
      return some (← node (tape.token s) (.taggedTemplate receiver typeArguments quasi))) := by
    refine (typeArguments_passes h.serves hlevel).bind fun _ q hq _ _ ↦ ?_
    refine (templateLiteral_lays h (by omega)).bind fun quasi r hr _ hquasi ↦ ?_
    exact LinksTo.node hlt (by omega) (taggedTemplate_within hreceiver (by omega) hquasi _)
  refine .ask ?_
  split
  · refine (typeArguments_passes h.serves hlevel).bind fun _ q hq _ _ ↦ ?_
    refine (arguments_lays h (by omega)).bind fun args r hr _ hargs ↦ ?_
    exact LinksTo.node hlt (by omega) (call_within hreceiver (by omega) hargs _ _)
  · exact htemplate
  · exact htemplate
  · exact LinksTo.stop

theorem link_within (hlevel : 12 * (tape.size - p) ≤ level) (calls : Bool) :
    LinksTo tape s p (g.link (tape.token s) calls receiver) := by
  have hlt := hreceiver.lt
  have htemplate : LinksTo tape s p (do
      let quasi ← g.templateLiteral
      return some (← node (tape.token s) (.taggedTemplate receiver [] quasi))) := by
    refine (templateLiteral_lays h (by omega)).bind fun quasi r hr _ hquasi ↦ ?_
    exact LinksTo.node hlt hr (taggedTemplate_within hreceiver (by omega) hquasi _)
  refine .ask ?_
  split
  · next hkind =>
    refine .advance (lt_size_of_kind hkind) ?_
    refine Passes.bind (Reads.expectMemberName (by simp)) fun name q hq _ _ ↦ ?_
    refine LinksTo.node hlt (by omega) (member_within hreceiver (by omega) ?_ _)
    simp [MemberKey.children]
  · next hkind =>
    have hsize : p < tape.size := lt_size_of_kind hkind
    have hp : p ≤ p + 1 := Nat.le_succ p
    refine .advance hsize (LinksTo.of_lays ?_ hp)
    exact optionalLink_lays h (hreceiver.upTo (p + 1) hp) (by omega)
  · next hkind =>
    have hsize : p < tape.size := lt_size_of_kind hkind
    refine .advance hsize ((expression_lays h (by omega)).allowingIn.bind ?_)
    rintro index q _ _ ⟨hq, hindex⟩
    have hindex := hindex.upTo (q + 1) (Nat.le_succ q)
    refine .expectMark fun _ ↦ LinksTo.node hlt (by omega) (member_within hreceiver (by omega) ?_ _)
    simpa [MemberKey.children] using hindex
  · refine .ite (fun _ ↦ ?_) fun _ ↦ LinksTo.stop
    refine (arguments_lays h (by omega)).bind fun args q hq _ hargs ↦ ?_
    exact LinksTo.node hlt hq (call_within hreceiver (by omega) hargs _ _)
  · exact .ite (fun _ ↦ genericLink_within h hreceiver hlevel) fun _ ↦ LinksTo.stop
  · exact htemplate
  · exact htemplate
  · next hkind =>
    refine .test (fun _ _ _ ↦ .advance (lt_size_of_kind hkind) ?_) LinksTo.stop
    refine LinksTo.node hlt (Nat.lt_succ_self p) (.of_parts (by omega) rfl ?_)
    simpa [Plain.children] using hreceiver.upTo (p + 1) (Nat.le_succ p)
  · exact LinksTo.stop

omit h in
/-- All links behind a construct. -/
theorem links_within {link : Node → Parse (Option Node)} {rounds : Nat}
    (hlink : ∀ node q, p ≤ q → q ≤ tape.size → tape.Within s q node →
      LinksTo tape s q (link node))
    (hrounds : tape.size - p < rounds) :
    tape.Reads s p (iterate (Links.round link) rounds receiver) fun node q ↦
      tape.Within s q node := by
  refine .iterate (P := fun node q ↦ tape.Within s q node) ?_ hrounds hreceiver
  intro node q hq hsize hnode
  refine (hlink node q hq hsize hnode).bind ?_
  rintro (_ | next) r hr _ hnext
  · exact .pure (.last (hnode.upTo r hr))
  · obtain ⟨hlt, hnext⟩ := hnext next rfl
    exact .pure (.more hlt hnext)

theorem chain_within (hlevel : 12 * (tape.size - p) + 1 ≤ level) (calls : Bool) :
    tape.Reads s p (g.chain (tape.token s) calls receiver) fun node q ↦ tape.Within s q node := by
  have hrounds := h.serves.rounds
  change tape.Reads s p (iterate (Links.round (g.link (tape.token s) calls)) g.rounds receiver) _
  refine links_within hreceiver (fun node q hq _ hnode ↦ ?_) (by omega)
  exact link_within h hnode (by omega) calls

end Chains

theorem operand_lays (hlevel : 12 * (tape.size - p) + 3 ≤ level) : tape.Lays o p g.operand :=
  .test (fun _ _ _ ↦ h.construction (by omega)) (h.primary hlevel)

theorem leftHandSide_lays (hlevel : 12 * (tape.size - p) + 3 ≤ level) :
    tape.Lays o p g.leftHandSide := by
  refine .rebase (.ask ((operand_lays h hlevel).bind fun first q hq _ hfirst ↦ ?_))
  exact (chain_within h hfirst (by omega) true).mono fun node r hr _ hnode ↦ ⟨by omega, hnode⟩

theorem decorators_within (hlevel : 12 * (tape.size - p) + 1 ≤ level) :
    tape.Reads o p g.decorators fun nodes q ↦ tape.AllWithin o q nodes := by
  have hrounds := h.serves.rounds
  exact .manyWhileWithin (fun q hq _ _ _ ↦ leftHandSide_lays h (by omega)) (by omega)

theorem constructionStep_lays (hlevel : 12 * (tape.size - p) + 1 ≤ level) :
    tape.Lays o p g.constructionStep := by
  refine .rebase (.ask (.expectWord fun hlt ↦ .test (fun _ _ _ ↦ ?_) ?_))
  · refine .nodeFromThen (by omega) (Reads.expectName.bind fun name q hq _ _ ↦ ?_)
    have hkeyword : tape.Within p (p + 1 + 1)
        (.plain (tape.span p (p + 1 + 1)) (.identifier (bytes "new"))) := .leaf (by omega) rfl rfl
    refine .nodeFrom (by omega) ⟨by omega, member_within hkeyword (by omega) ?_ _⟩
    simp [MemberKey.children]
  · -- the callee has a start of its own
    have hp : p ≤ p + 1 := Nat.le_succ p
    refine .ask ((Reads.rebase (operand_lays h (o := p + 1) (by omega)) hp (Nat.le_refl _)).bind ?_)
    rintro first q hpq _ ⟨hq, hfirst⟩
    refine (Reads.rebase (chain_within h hfirst (by omega) false) hp hpq).bind
      fun callee r hr _ hcallee ↦ ?_
    refine .either (P := fun _ _ ↦ True) (fun _ _ _ ↦ (typeArguments_passes h.serves
      (by omega)).skips) (.pure trivial) fun typeArguments s hs _ _ ↦ ?_
    refine Reads.bind (P := fun args q ↦ tape.AllWithin p q (args.getD []))
      (.optionally (fun _ _ _ ↦ ?_) (by simp)) fun args t ht _ hargs ↦ ?_
    · exact (arguments_lays h (by omega)).mono fun _ _ _ _ hargs ↦ hargs.2
    · have hcallee := hcallee.mono hp (Nat.le_trans hs ht)
      exact .nodeFrom (by omega) ⟨by omega, .of_parts (by omega) rfl
        (AllWithin.cons_iff.mpr ⟨hcallee, hargs⟩)⟩

/-! ## Keys and patterns -/

theorem propertyKey_within (ho : o < p) (hlevel : 12 * (tape.size - p) ≤ level) {rules : KeyRules}
    (hrules : rules.isNumber .eof = false) :
    tape.PassesTo o p (g.propertyKey rules) fun key q ↦ tape.KeyWithin o q key.1 key.2 := by
  refine .ask (.test (fun hfound _ _ ↦ ?_) ?_)
  · refine (h.assignment (by omega)).bind fun key q hq _ hkey ↦ .expectMark fun _ ↦ ?_
    exact .pure ⟨by omega, hkey.upTo (q + 1) (Nat.le_succ q)⟩
  refine .ite (fun hkind ↦ ?_) fun _ ↦ .ite (fun hkind ↦ ?_) fun _ ↦ .ite (fun hkind ↦ ?_) fun _ ↦
    (.fail (by simp))
  · refine .nodeFromThen (by omega) (.advance (lt_size_of_beq hkind) (.pure ⟨by omega, ?_⟩))
    exact Key.text ho (Nat.lt_succ_self p)
  · refine .advance (lt_size_of_holds (f := rules.isNumber) hkind hrules) ?_
    refine .nodeFromThen (by omega) (.pure ⟨by omega, ?_⟩)
    exact Key.number ho (Nat.lt_succ_self p)
  · refine .advance (lt_size_of_holds (f := TokenKind.isPropertyName) hkind rfl) ?_
    refine .nodeFromThen (by omega) (.pure ⟨by omega, ?_⟩)
    exact Key.name ho (Nat.lt_succ_self p)

theorem withDefault_within (hlevel : 12 * (tape.size - p) ≤ level) {target : Node}
    (htarget : tape.Within s p target) :
    tape.Reads s p (g.withDefault (tape.token s) target) fun node q ↦ tape.Within s q node := by
  have hlt := htarget.lt
  refine .test (fun _ _ _ ↦ ?_) (.pure htarget)
  refine (h.assignment (by omega)).bind fun initial q hq _ hinitial ↦ .nodeFrom (by omega) ?_
  have htarget := htarget.upTo q (by omega)
  exact .of_parts (by omega) rfl (by simpa [Plain.children] using ⟨htarget, hinitial⟩)

theorem shorthandProperty_within (hos : o ≤ s) (hsp : s < p) (hlevel : 12 * (tape.size - p) ≤ level)
    {key : Node} {computed : Bool} (hkey : tape.KeyWithin o p key computed) (message : String) :
    tape.Reads o p (g.shorthandProperty (tape.token s) key computed message) fun property q ↦
      tape.PropertyWithin o q property := by
  unfold shorthandProperty
  split
  · next name hname =>
    have hname : tape.Within s p (.plain (tape.span s p) (.identifier name)) := .leaf hsp rfl rfl
    have hvalue := Reads.rebase (withDefault_within h hlevel hname) hos (by omega)
    refine .nodeFromThen (by omega) (hvalue.bind fun value q hq _ hvalue ↦ .pure ?_)
    exact (hkey.upTo q hq).property (hvalue.mono hos (Nat.le_refl q)) .shorthand
  · exact .fail (by simp)

theorem bindingElement_lays (hlevel : 12 * (tape.size - p) + 2 ≤ level) :
    tape.Lays o p g.bindingElement := by
  refine .rebase (.ask ((h.bindingTarget hlevel).bind fun target q hq _ htarget ↦ ?_))
  exact (withDefault_within h (by omega) htarget).mono fun _ r hr _ hnode ↦ ⟨by omega, hnode⟩

omit h in
theorem arrayElements_within {element : Parse Node} (hrounds : tape.size - p < g.rounds)
    (helement : ∀ q, p ≤ q → q ≤ tape.size → tape.Lays o q element) :
    tape.Reads o p (g.arrayElements element) fun nodes q ↦ tape.AllWithin o q nodes := by
  refine .within fun ho _ ↦ .looseListTo (K := fun node q ↦ tape.Within o q node)
    (fun _ _ ↦ Within.upTo) (fun q hq _ hsize _ ↦ .ask ?_) hrounds
  refine .test (fun _ _ _ ↦ .nodeFromThen (by omega) (.pure ⟨by omega, ?_⟩)) ?_
  · have homitted : tape.Within q (q + 1) (.plain (tape.span q (q + 1)) .omitted) :=
      .leaf (Nat.lt_succ_self q) rfl rfl
    exact homitted.mono (Nat.le_trans ho hq) (Nat.le_refl _)
  · exact (helement q hq hsize).bind fun node r hr _ hnode ↦ .pure ⟨hr, hnode⟩

omit h in
theorem spread_within {q : Nat} {value : Node} (hvalue : tape.Within o q value) :
    tape.PropertyWithin o q { kind := .spread, value := some value } :=
  ⟨by simpa [Property.children] using hvalue, by simp [Property.literalKeys]⟩

theorem patternProperty_within (ho : o < p) (hlevel : 12 * (tape.size - p) ≤ level) :
    tape.PassesTo o p g.patternProperty fun property q ↦ tape.PropertyWithin o q property := by
  refine .test (fun _ _ _ ↦ ?_) (.ask ?_)
  · refine (h.bindingTarget (by omega)).bind fun value q hq _ hvalue ↦ .pure ⟨by omega, ?_⟩
    exact spread_within hvalue
  · refine (propertyKey_within h ho hlevel rfl).bind ?_
    rintro ⟨key, computed⟩ q hq _ hkey
    refine .test (fun _ _ _ ↦ ?_) ?_
    · refine (bindingElement_lays h (by omega)).bind fun value r hr _ hvalue ↦ .pure ⟨by omega, ?_⟩
      exact (hkey.upTo r (by omega)).property hvalue .init
    · exact (shorthandProperty_within h (by omega) hq (by omega) hkey _).mono
        fun _ r hr _ hproperty ↦ ⟨by omega, hproperty⟩

theorem bindingTargetStep_lays (hlevel : 12 * (tape.size - p) + 1 ≤ level) :
    tape.Lays o p g.bindingTargetStep := by
  have hrounds := h.serves.rounds
  refine .rebase (.ask (.test (fun _ _ _ ↦ ?_) (.test (fun _ _ _ ↦ ?_) ?_)))
  · refine (arrayElements_within (by omega) fun q hq _ ↦ ?_).bind fun elements r hr _ helements ↦ ?_
    · exact spreadOr_lays (fun _ ↦ h.bindingTarget (by omega)) (bindingElement_lays h (by omega))
    · have helements := helements.upTo (r + 1) (Nat.le_succ r)
      exact .expectMark fun _ ↦ .nodeFrom (by omega) ⟨by omega, .of_parts (by omega) rfl helements⟩
  · refine (Reads.commaListTo (K := fun property q ↦ tape.PropertyWithin p q property)
      (fun _ _ ↦ Holds.upTo) (fun q hq _ _ _ ↦ patternProperty_within h (by omega) (by omega))
      (by omega)).bind fun properties r hr _ hproperties ↦ .expectMark fun _ ↦ ?_
    refine .nodeFrom (by omega) ⟨by omega, .object (by omega) fun property hmem ↦ ?_⟩
    exact (hproperties property hmem).upTo (r + 1) (Nat.le_succ r)
  · refine Reads.expectName.bind fun name q hq _ _ ↦ .nodeFrom hq ⟨hq, .leaf hq rfl rfl⟩

/-! ## Functions -/

theorem initial_within {m : Mark} (hlevel : 12 * (tape.size - p) ≤ level) :
    tape.Reads o p (optionally (acceptMark m) g.assignment) fun value q ↦
      tape.AllWithin o q value.toList :=
  .optionallyWithin fun _ _ _ ↦ h.assignment (by omega)

theorem param_within (hlevel : 12 * (tape.size - p) + 2 ≤ level) :
    tape.PassesTo o p g.param fun param q ↦ tape.AllWithin o q param.children := by
  have hrounds := h.serves.rounds
  refine .within fun ho _ ↦ (decorators_within h (by omega)).bind
    fun decorators q hq _ hdecorators ↦ ?_
  refine (Reads.manyWhile (K := fun _ ↦ True) ?_ (by omega)).bind fun modifiers r hr _ _ ↦ ?_
  · intro r hr _ _ hmodifier
    have hlt : r < tape.size := lt_size_of_kind_ne fun hend ↦ by simp [hend] at hmodifier
    exact (Reads.takes hlt).mono fun _ _ _ _ h ↦ ⟨by omega, trivial⟩
  refine Reads.condition.bind fun rest s hs _ _ ↦ .ask ?_
  refine .either (P := fun pattern t ↦ s < t ∧ tape.Within o t pattern)
    (fun _ _ _ ↦ .nodeFrom (by omega) ⟨by omega, ?_⟩) (h.bindingTarget (by omega)) ?_
  · have hthis : tape.Within s (s + 1)
        (.plain (tape.span s (s + 1)) (.identifier (bytes "this"))) :=
      .leaf (Nat.lt_succ_self s) rfl rfl
    exact hthis.mono (by omega) (Nat.le_refl _)
  rintro pattern t _ _ ⟨ht, hpattern⟩
  refine Reads.condition.bind fun optional u hu _ _ ↦ ?_
  refine (annotation_skips h.serves (by omega)).bind fun type v hv _ _ ↦ ?_
  refine (initial_within h (by omega)).bind fun initial w hw _ hinitial ↦ .pure ⟨by omega, ?_⟩
  have hdecorators := hdecorators.upTo w (by omega)
  have hpattern := hpattern.upTo w (by omega)
  simpa [Param.children] using ⟨hdecorators, hpattern, hinitial⟩

theorem params_within (hlevel : 12 * (tape.size - p) ≤ level) :
    tape.PassesTo o p g.params fun params q ↦
      ∀ param ∈ params, tape.AllWithin o q param.children := by
  have hrounds := h.serves.rounds
  refine .expectMark fun hlt ↦ ?_
  refine (Reads.commaListTo (K := fun param q ↦ tape.AllWithin o q param.children)
    (fun _ _ ↦ AllWithin.upTo) (fun q hq _ _ _ ↦ param_within h (by omega)) (by omega)).bind
    fun params q hq _ hparams ↦ .expectMark fun _ ↦ .pure ⟨by omega, fun param hmem ↦ ?_⟩
  exact (hparams param hmem).upTo (q + 1) (Nat.le_succ q)

theorem block_lays (hlevel : 12 * (tape.size - p) ≤ level) : tape.Lays o p g.block := by
  have hrounds := h.serves.rounds
  refine .rebase (.expect fun _ hlt ↦ ?_)
  refine (Reads.manyWhileWithin (fun q hq _ _ _ ↦ h.statement (by omega)) (by omega)).bind
    fun body q hq _ hbody ↦ .expectMark fun _ ↦ .nodeFrom (by omega) ⟨by omega, ?_⟩
  exact .of_parts (by omega) rfl (hbody.upTo (q + 1) (Nat.le_succ q))

theorem signature_within (hlevel : 12 * (tape.size - p) ≤ level) (f : Callable Node) :
    tape.PassesTo o p (g.signature f) fun f' q ↦ f'.body = f.body ∧
      ∀ param ∈ f'.params, tape.AllWithin o q param.children := by
  refine (optionalTypeParameters_skips h.serves hlevel).bind fun _ q hq _ _ ↦ ?_
  refine (params_within h (by omega)).bind fun params r hr _ hparams ↦ ?_
  refine (annotation_skips h.serves (by omega)).bind fun _ s hs _ _ ↦ .pure ⟨by omega, rfl, ?_⟩
  exact fun param hmem ↦ (hparams param hmem).upTo s hs

omit h in
theorem callable_children_within {q r : Nat} (hqr : q ≤ r) {f : Callable Node}
    (hparams : ∀ param ∈ f.params, tape.AllWithin o q param.children)
    (hbody : tape.AllWithin o r f.body.toList) : tape.AllWithin o r f.children := by
  refine AllWithin.append_iff.mpr ⟨AllWithin.flatMap_iff.mpr fun param hmem ↦ ?_, hbody⟩
  exact (hparams param hmem).upTo r hqr

theorem functionRest_within (hlevel : 12 * (tape.size - p) ≤ level) (bodyOptional : Bool)
    {f : Callable Node} (hf : f.body = none) :
    tape.PassesTo o p (g.functionRest bodyOptional f) fun f' q ↦
      tape.AllWithin o q f'.children := by
  refine (signature_within h hlevel f).bind ?_
  rintro f' q hq _ ⟨hbody, hparams⟩
  refine .test (fun _ _ _ ↦ ?_) (.ite (fun _ ↦ ?_) fun _ ↦ .fail (by simp))
  · refine (block_lays h (by omega)).bind fun body r hr _ hblock ↦ .pure ⟨by omega, ?_⟩
    exact callable_children_within (by omega) hparams (by simpa using hblock)
  · refine Reads.semicolon.bind fun _ r hr _ _ ↦ .pure ⟨by omega, ?_⟩
    exact callable_children_within hr hparams (by simp [hbody, hf])

theorem methodFunction_lays (hlevel : 12 * (tape.size - p) ≤ level)
    (bodyOptional isAsync isGenerator : Bool) :
    tape.Lays o p (g.methodFunction bodyOptional isAsync isGenerator) := by
  refine .rebase (.ask ((functionRest_within h hlevel bodyOptional rfl).bind ?_))
  exact fun f q hq _ hf ↦ .nodeFrom hq ⟨hq, .of_parts hq rfl hf⟩

/-! ## Classes -/

theorem namedMember_within (ho : o < p) (hlevel : 12 * (tape.size - p) ≤ level)
    {member : ClassMember Node} (hdecorators : tape.AllWithin o p member.decorators)
    (hblock : member.block = none) :
    tape.PassesTo o p (g.namedMember member) fun m q ↦ tape.MemberWithin o q m := by
  refine .ask (.ask (.iteThen (P := fun q ↦ p ≤ q) (fun _ ↦ ?_) (fun _ ↦ Nat.le_refl p) ?_))
  · exact Reads.advance_skips.mono fun _ _ hq _ _ ↦ hq
  intro q hq _ _
  refine Reads.condition.bind fun isGenerator r hr _ _ ↦ ?_
  refine accessorKind_skips.bind fun accessor s hs _ _ ↦ .ask ?_
  refine (propertyKey_within h (by omega) (by omega) rfl).bind ?_
  rintro ⟨key, computed⟩ t ht _ hkey
  refine memberMarks_skips.bind ?_
  rintro ⟨optional, definite⟩ u hu _ -
  refine .test (fun _ _ _ ↦ ?_) (.ite (fun _ ↦ .fail (by simp)) fun _ ↦ ?_)
  · refine (methodFunction_lays h (by omega) true _ isGenerator).bind fun value v hv _ hvalue ↦ ?_
    refine .pure ⟨by omega, KeyWithin.member (hkey.upTo v (by omega)) rfl ?_ ?_ hblock⟩
    · exact hdecorators.upTo v (by omega)
    · simpa using hvalue
  · refine (annotation_skips h.serves (by omega)).bind fun type v hv _ _ ↦ ?_
    refine (initial_within h (by omega)).bind fun value w hw _ hvalue ↦ ?_
    refine Reads.semicolon.bind fun _ x hx _ _ ↦ .pure ⟨by omega, ?_⟩
    refine KeyWithin.member (hkey.upTo x (by omega)) rfl ?_ (hvalue.upTo x hx) hblock
    exact hdecorators.upTo x (by omega)

theorem classMember_holds (ho : o < p) (hlevel : 12 * (tape.size - p) + 1 ≤ level) :
    tape.PassesTo o p g.classMember fun m q ↦ tape.MemberWithin o q m := by
  have hrounds := h.serves.rounds
  refine (decorators_within h (by omega)).bind fun decorators q hq _ hdecorators ↦ ?_
  refine (memberModifiers_skips (by omega)).bind fun modifiers r hr _ _ ↦ ?_
  refine .ask (.ite (fun _ ↦ ?_) fun _ ↦ .ask (.ask (.ask (.ite (fun _ ↦ ?_) fun _ ↦ ?_))))
  · refine (block_lays h (by omega)).bind fun block s hs _ hblock ↦ .pure ⟨by omega, ?_⟩
    have hdecorators := hdecorators.upTo s (by omega)
    exact ⟨by simpa [ClassMember.children] using ⟨hdecorators, hblock⟩,
      by simp [ClassMember.literalKeys]⟩
  · refine (typeMember_passes h.serves (by omega)).bind fun _ s hs _ _ ↦ ?_
    refine Reads.semicolon.bind fun _ t ht _ _ ↦ .pure ⟨by omega, ?_⟩
    have hdecorators := hdecorators.upTo t (by omega)
    exact ⟨by simpa [ClassMember.children] using hdecorators, by simp [ClassMember.literalKeys]⟩
  · exact (namedMember_within h (by omega) (by omega) (hdecorators.upTo r hr) rfl).onward (by omega)

theorem classBody_within (ho : o < p) (hlevel : 12 * (tape.size - p) + 1 ≤ level) :
    tape.Reads o p g.classBody fun members q ↦ ∀ m ∈ members, tape.MemberWithin o q m := by
  have hrounds := h.serves.rounds
  refine .iterate (P := fun members q ↦ ∀ m ∈ members, tape.MemberWithin o q m) ?_ (by omega)
    (by simp)
  intro members q hq _ hmembers
  refine .test (fun _ _ _ ↦ ?_) (.pure (.last hmembers))
  refine .test (fun _ _ _ ↦ .pure (.more (by omega) fun m hm ↦ ?_)) ?_
  · exact (hmembers m hm).upTo (q + 1) (Nat.le_succ q)
  · refine (classMember_holds h (by omega) (by omega)).bind fun member r hr _ hmember ↦ ?_
    exact .pure (.more hr (Reads.forall_concat (K := fun m q ↦ tape.MemberWithin o q m)
      (fun _ _ ↦ Holds.upTo) hmembers (by omega) hmember))

theorem superClass_within (hlevel : 12 * (tape.size - p) ≤ level) :
    tape.Reads o p g.superClass fun parent q ↦ tape.AllWithin o q parent.1.toList := by
  refine .within fun ho _ ↦ .test (fun _ hp _ ↦ .ask ?_) (.pure (by simp))
  -- the chain has a start of its own
  refine (Reads.rebase (h.primary (o := p + 1) (by omega)) (by omega) (Nat.le_refl _)).bind ?_
  rintro first q hpq _ ⟨hq, hfirst⟩
  refine (Reads.rebase (chain_within h hfirst (by omega) true) (by omega) hpq).bind
    fun parent r hr _ hparent ↦ ?_
  refine .either (P := fun _ _ ↦ True)
    (fun _ _ _ ↦ (typeArguments_passes h.serves (by omega)).skips) (.pure trivial)
    fun _ s hs _ _ ↦ .pure ?_
  simpa using hparent.mono (by omega) hs

theorem classDeclaration_declares (hlevel : 12 * (tape.size - p) ≤ level) {decorators : List Node}
    (hdecorators : tape.AllWithin 0 p decorators) (isAbstract isDeclare : Bool) :
    tape.Declares o p (g.classDeclaration decorators isAbstract isDeclare) decorators := by
  have hrounds := h.serves.rounds
  refine .rebase (.ask (.expectWord fun hlt ↦ .ask (.ask ?_)))
  refine (Reads.nameIf fun hnamed ↦ (Bool.and_eq_true_iff.mp hnamed).1).bind fun _ q hq _ _ ↦ ?_
  refine (optionalTypeParameters_skips h.serves (by omega)).bind fun _ r hr _ _ ↦ ?_
  refine (superClass_within h (by omega)).bind ?_
  rintro ⟨parent, superTypeArguments⟩ s hs _ hparent
  refine .either (P := fun _ t ↦ s ≤ t) (fun _ _ _ ↦ ?_) (.pure (Nat.le_refl s))
    fun _ t ht _ _ ↦ ?_
  · exact (Reads.separated (fun _ _ _ ↦ h.serves.type (by omega)) (by omega)).mono
      fun _ _ _ _ _ ↦ by omega
  refine .expectMark fun _ ↦ (classBody_within h (by omega) (by omega)).bind
    fun members u hu _ hmembers ↦ .expectMark fun _ ↦ .nodeFrom (by omega) ⟨by omega, ?_, rfl⟩
  refine .classDeclaration (by omega) hdecorators ?_ fun m hm ↦ ?_
  · exact hparent.upTo (u + 1) (by omega)
  · exact (hmembers m hm).upTo (u + 1) (Nat.le_succ u)

/-! ## Primary expressions -/

theorem arrayLiteral_lays (hlevel : 12 * (tape.size - p) ≤ level) :
    tape.Lays o p g.arrayLiteral := by
  have hrounds := h.serves.rounds
  refine .rebase (.ask (.expectMark fun _ ↦ ?_))
  refine (arrayElements_within (by omega) fun q hq _ ↦ item_lays h (by omega)).allowingIn.bind
    fun elements r hr _ helements ↦ .expectMark fun _ ↦ .nodeFrom (by omega) ⟨by omega, ?_⟩
  exact .of_parts (by omega) rfl (helements.upTo (r + 1) (Nat.le_succ r))

theorem keyedProperty_within (ho : o < p) (hlevel : 12 * (tape.size - p) ≤ level) :
    tape.PassesTo o p g.keyedProperty fun property q ↦ tape.PropertyWithin o q property := by
  obtain ⟨follows, hfollows⟩ : ∃ b, Asks tape p propertyNameFollows b := asks_propertyNameFollows
  refine .ask (.ask (.ask ?_))
  refine .iteThen (P := fun q ↦ p ≤ q) (fun _ ↦ ?_) (fun _ ↦ Nat.le_refl p) fun q hq _ _ ↦ ?_
  · exact Reads.advance_skips.mono fun _ _ hq _ _ ↦ hq
  refine Reads.condition.bind fun isGenerator r hr _ _ ↦ ?_
  refine accessorProperty_skips.bind fun kind s hs _ _ ↦ .ask ?_
  refine (propertyKey_within h (by omega) (by omega) rfl).bind ?_
  rintro ⟨key, computed⟩ t ht _ hkey
  refine .test (fun _ _ _ ↦ ?_) (.ite (fun _ ↦ .fail (by simp)) fun _ ↦ .test (fun _ _ _ ↦ ?_) ?_)
  · refine (methodFunction_lays h (by omega) false _ isGenerator).bind fun value u hu _ hvalue ↦ ?_
    exact .pure ⟨by omega, (hkey.upTo u (by omega)).property hvalue _⟩
  · refine (h.assignment (by omega)).bind fun value u hu _ hvalue ↦ .pure ⟨by omega, ?_⟩
    exact (hkey.upTo u (by omega)).property hvalue .init
  · exact (shorthandProperty_within h (by omega) ht (by omega) hkey _).mono
      fun _ u hu _ hproperty ↦ ⟨by omega, hproperty⟩

theorem literalProperty_within (ho : o < p) (hlevel : 12 * (tape.size - p) ≤ level) :
    tape.PassesTo o p g.literalProperty fun property q ↦ tape.PropertyWithin o q property := by
  refine .test (fun _ _ _ ↦ ?_) (keyedProperty_within h ho hlevel)
  refine (h.assignment (by omega)).bind fun value q hq _ hvalue ↦ .pure ⟨by omega, ?_⟩
  exact spread_within hvalue

theorem objectLiteral_lays (hlevel : 12 * (tape.size - p) ≤ level) :
    tape.Lays o p g.objectLiteral := by
  have hrounds := h.serves.rounds
  refine .rebase (.ask (.expectMark fun _ ↦ ?_))
  refine (Reads.commaListTo (K := fun property q ↦ tape.PropertyWithin p q property)
    (fun _ _ ↦ Holds.upTo) (fun q hq _ _ _ ↦ literalProperty_within h (by omega) (by omega))
    (by omega)).allowingIn.bind fun properties r hr _ hproperties ↦ .expectMark fun _ ↦ ?_
  refine .nodeFrom (by omega) ⟨by omega, .object (by omega) fun property hmem ↦ ?_⟩
  exact (hproperties property hmem).upTo (r + 1) (Nat.le_succ r)

theorem functionExpression_lays (hlevel : 12 * (tape.size - p) ≤ level) :
    tape.Lays o p g.functionExpression := by
  refine .rebase (.ask (Reads.condition.bind fun isAsync q hq _ _ ↦ .expectWord fun _ ↦ ?_))
  refine Reads.condition.bind fun isGenerator r hr _ _ ↦ ?_
  refine (Reads.nameIf id).bind fun name s hs _ _ ↦ ?_
  refine (functionRest_within h (by omega) false rfl).bind fun f t ht _ hf ↦ ?_
  exact .nodeFrom (by omega) ⟨by omega, .of_parts (by omega) rfl hf⟩

theorem classExpression_lays (hlevel : 12 * (tape.size - p) + 1 ≤ level) :
    tape.Lays o p g.classExpression := by
  refine .rebase (.ask ((decorators_within h hlevel).bind fun decorators q hq _ hdecorators ↦ ?_))
  have hdecorators : tape.AllWithin 0 q decorators :=
    hdecorators.mono (Nat.zero_le p) (Nat.le_refl q)
  refine (classDeclaration_declares h (by omega) hdecorators false false).lays.bind
    fun declaration r hr _ hdeclaration ↦ .surfaceFrom (by omega) ⟨by omega, ?_⟩
  exact .of_surface_parts (by omega) (by simpa [Surface.children] using hdeclaration)

theorem parenthesized_lays (hlt : p < tape.size) (hlevel : 12 * (tape.size - p) ≤ level) :
    tape.Lays o p g.parenthesized := by
  refine .rebase (.ask (.advance hlt ((expression_lays h (by omega)).allowingIn.bind ?_)))
  rintro inner q _ _ ⟨hq, hinner⟩
  refine .expectMark fun _ ↦ .nodeFrom (by omega) ⟨by omega, .of_parts (by omega) rfl ?_⟩
  simpa [Plain.children] using hinner.upTo (q + 1) (Nat.le_succ q)

omit h in
theorem leaf_lays (hlt : p < tape.size) {form : Plain Node}
    (hform : form.literalKeys ++ form.decorators = []) (hchildren : form.children = []) :
    tape.Lays o p (leaf (tape.token p) form) :=
  .rebase (.advance hlt (.nodeFrom (by omega) ⟨by omega, .leaf (by omega) hform hchildren⟩))

omit h in
theorem nameExpression_lays : tape.Lays o p (nameExpression (tape.token p)) :=
  .ite (fun hname ↦ leaf_lays (lt_size_of_holds (f := TokenKind.isName) hname rfl) rfl rfl)
    fun _ ↦ .fail (by simp)

theorem primaryStep_lays (hlevel : 12 * (tape.size - p) + 2 ≤ level) :
    tape.Lays o p g.primaryStep := by
  refine .ask ?_
  split
  · next hkind => exact leaf_lays (lt_size_of_kind hkind) rfl rfl
  · next hkind => exact leaf_lays (lt_size_of_kind hkind) rfl rfl
  · next hkind => exact leaf_lays (lt_size_of_kind hkind) rfl rfl
  · exact templateLiteral_lays h (by omega)
  · exact templateLiteral_lays h (by omega)
  · next hkind => exact leaf_lays (lt_size_of_kind hkind) rfl rfl
  · next hkind => exact leaf_lays (lt_size_of_kind hkind) rfl rfl
  · next hkind => exact leaf_lays (lt_size_of_kind hkind) rfl rfl
  · next hkind => exact leaf_lays (lt_size_of_kind hkind) rfl rfl
  · next hkind => exact leaf_lays (lt_size_of_kind hkind) rfl rfl
  · next hkind => exact leaf_lays (lt_size_of_kind hkind) rfl rfl
  · next hkind => exact leaf_lays (lt_size_of_kind hkind) rfl rfl
  · next hkind => exact parenthesized_lays h (lt_size_of_kind hkind) (by omega)
  · exact arrayLiteral_lays h (by omega)
  · exact objectLiteral_lays h (by omega)
  · exact functionExpression_lays h (by omega)
  · exact .ask (.ask (.ite (fun _ ↦ functionExpression_lays h (by omega))
      fun _ ↦ nameExpression_lays))
  · exact classExpression_lays h (by omega)
  · exact classExpression_lays h (by omega)
  · exact h.element (by omega)
  · exact nameExpression_lays

end Extents

end Grammar

end SignalView
