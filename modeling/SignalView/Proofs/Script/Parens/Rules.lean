import SignalView.Proofs.Compilation.Names
import SignalView.Proofs.Text.Parens
import SignalView.Proofs.View.Subviews
import SignalView.Script.Statement

/-!
# How views are spelled, and what is written for them

Parentheses are paired in what is written for a view if they are in the texts that the view is
spelled with. The rules follow the way in which writing actions are put together.
-/

namespace SignalView

/-! ## How views are spelled

A view is written with texts of the program: names, operators, types, what is in its literals. It
is well spelled when parentheses are paired in each of them and in those of all of its parts, and
when a text is there wherever one has to be.
-/

section

open Slot

variable {α : Type}

/-! ### The texts of shapes -/

def Param.texts (p : Param α) : List Bytes := p.type :: p.modifiers

def Callable.texts (f : Callable α) : List Bytes :=
  f.name :: f.typeParameters :: f.returnType :: f.params.flatMap (·.texts)

def Arrow.texts (f : Arrow α) : List Bytes :=
  f.typeParameters :: f.returnType :: f.params.flatMap (·.texts)

def ClassMember.texts (m : ClassMember α) : List Bytes := m.type :: m.modifiers

def ClassShape.texts (c : ClassShape α) : List Bytes :=
  c.name :: c.typeParameters :: c.superTypeArguments ++ c.implemented ++
    c.members.flatMap (·.texts)

def ElementShape.texts (e : ElementShape α) : List Bytes :=
  e.tag :: e.attributes.map (fun a ↦ Attribute.domProperty a.name) ++
    e.bindings.map (·.property) ++ e.listeners.map (·.event)

def Component.texts (c : Component α) : List Bytes :=
  c.name :: c.typeParameters :: c.returnType :: c.params.flatMap (·.texts)

/-! ### The texts of constructs -/

/-- The texts of the program that a construct is written with, besides those of its parts. -/
def Plain.texts : Plain α → List Bytes
  | .identifier text | .number text _ | .string text | .regex text | .unary text _ _
  | .binary text _ _ | .assignment text _ _ | .jump _ text | .labeled text _ => [text]
  | .template quasis _ => quasis
  | .taggedTemplate _ args _ | .call _ args _ _ | .new _ args _ => args
  | .function f | .functionDeclaration f _ => f.texts
  | .arrow f => f.texts
  | .member _ key _ => [key.name]
  | .cast _ type keyword => [type, keyword]
  | .variableDeclaration keyword declarators _ => keyword :: declarators.map (·.type)
  | .tryCatch t => [t.paramType]
  | .classDeclaration c => c.texts
  | .interface name typeParameters extended members _ =>
    name :: typeParameters :: extended ++ members
  | .typeAlias name typeParameters type _ => [name, typeParameters, type]
  | .enum name members _ _ => name :: members.map (·.name)
  | .module keyword name _ _ => [keyword, name]
  | .imports clause => [Emission.importText clause]
  | .exportNamed _ specifiers source _ =>
    source :: specifiers.map (·.localName) ++ specifiers.map (·.exported)
  | .exportAll source name _ => [source, name]
  | _ => []

def Rendered.texts : Rendered α → List Bytes
  | .component c => c.texts
  | .classValue c => c.texts
  | .element e => e.texts
  | .componentCall name props _ => name :: props.map (·.name)
  | .text value => [value]
  | .fragment _ | .child _ _ => []

namespace View

def texts : View → List Bytes
  | .plain _ _ form => form.texts
  | .rendered _ _ form => form.texts

/-- Nothing is written for an element that is left out. -/
def isWritten : View → Bool
  | .plain _ _ .omitted => false
  | .rendered _ _ (.child _ inner) => inner.isWritten
  | _ => true

/-- What is inside, if the view is an expression in parentheses. -/
def inParens? : View → Option View
  | .plain _ _ (.paren inner) => some inner
  | .rendered _ _ (.child _ inner) => inner.inParens?
  | _ => none

end View

/-- A word is where one has to be, what is called is written, and a sequence has several parts. -/
def Plain.HasWords : Plain View → Prop
  | .identifier word | .number word _ | .regex word | .unary word _ _ => IsWord word
  | .call callee _ _ _ => callee.isWritten
  | .taggedTemplate tag _ quasi => tag.isWritten ∧ quasi.isWritten
  | .sequence parts => 2 ≤ parts.length
  | _ => True

def Rendered.HasWords : Rendered View → Prop
  | .componentCall name _ _ => IsWord name
  | _ => True

namespace View

def HasWords : View → Prop
  | .plain _ _ form => form.HasWords
  | .rendered _ _ form => form.HasWords

/-- Parentheses are paired in each text of the view and of its parts, and there is a word wherever
one has to be. -/
def WellSpelled (view : View) : Prop :=
  ∀ part ∈ view.subviews, (∀ text ∈ part.texts, Paired text) ∧ part.HasWords

end View

/-- Parentheses are paired in some texts, and what some slots hold is well spelled. -/
def AreSpelled (texts : List Bytes) (slots : List (Slot View)) : Prop :=
  (∀ text ∈ texts, Paired text) ∧ ∀ part ∈ parts slots, part.WellSpelled

/-- Each of some shapes is spelled as all of them are. -/
theorem AreSpelled.of_mem {β : Type} {items : List β} {texts : β → List Bytes}
    {slots : β → List (Slot View)} (htexts : ∀ text ∈ items.flatMap texts, Paired text)
    (hparts : ∀ part ∈ parts (items.flatMap slots), part.WellSpelled) {item : β}
    (hitem : item ∈ items) : AreSpelled (texts item) (slots item) := by
  rw [parts_flatMap] at hparts
  exact ⟨fun text htext ↦ htexts text (List.mem_flatMap.mpr ⟨item, hitem, htext⟩),
    fun part hpart ↦ hparts part (List.mem_flatMap.mpr ⟨item, hitem, hpart⟩)⟩

namespace View

theorem wellSpelled_iff {view : View} :
    view.WellSpelled ↔ AreSpelled view.texts view.slots ∧ view.HasWords := by
  constructor
  · intro h
    obtain ⟨htexts, hwords⟩ := h view view.mem_subviews_self
    refine ⟨⟨htexts, fun part hpart sub hsub ↦ h sub ?_⟩, hwords⟩
    rw [subviews_eq]
    exact Multiset.mem_cons_of_mem (Slot.mem_subviews.mpr ⟨part, hpart, hsub⟩)
  · rintro ⟨⟨htexts, hparts⟩, hwords⟩ sub hsub
    rw [subviews_eq, Multiset.mem_cons] at hsub
    rcases hsub with rfl | hsub
    · exact ⟨htexts, hwords⟩
    · obtain ⟨part, hpart, hsub⟩ := Slot.mem_subviews.mp hsub
      exact hparts part hpart sub hsub

end View

end

/-! ## What writing actions give, if they give something

A property of every text that an action gives follows from such properties of the actions it is made
of.
-/

theorem paired_ofNat (n : Nat) : Paired (Bytes.ofNat n) := by
  have hdigit : ∀ k : Fin 256, Byte.isDigit (UInt8.ofFin k) = true →
      Parens.of (UInt8.ofFin k) = 1 := by
    decide +kernel
  exact paired_of_forall fun b hb ↦ hdigit b.toFin (Bytes.isDigit_of_mem_ofNat hb)

namespace Emit

variable {α β : Type} {P P' : α → Prop} {Q : β → Prop} {action : Emit α} {next : α → Emit β}

/-- Every value that the action gives has a property. -/
def Gives (P : α → Prop) (action : Emit α) : Prop :=
  ∀ ⦃level s value t⦄, action level s = .ok (value, t) → P value

namespace Gives

theorem pure {value : α} (h : P value) : Gives P (Pure.pure value) := by
  intro level s _ t hrun
  cases hrun
  exact h

theorem bind (h : Gives P action) (hnext : ∀ value, P value → Gives Q (next value)) :
    Gives Q (action >>= next) := by
  intro level s result t hrun
  obtain ⟨value, middle, hvalue, hresult⟩ := bind_eq_ok.mp hrun
  exact hnext value (h hvalue) hresult

/-- Nothing has to be known of the action in front. -/
theorem after (hnext : ∀ value, Gives Q (next value)) : Gives Q (action >>= next) :=
  bind (P := fun _ ↦ True) (fun _ _ _ _ _ ↦ trivial) fun value _ ↦ hnext value

theorem mono (h : Gives P action) (hP : ∀ value, P value → P' value) : Gives P' action :=
  fun _ _ _ _ hrun ↦ hP _ (h hrun)

theorem ite {c : Prop} [Decidable c] {other : Emit α} (h : c → Gives P action)
    (hother : ¬c → Gives P other) : Gives P (if c then action else other) := by
  split
  · next hc => exact h hc
  · next hc => exact hother hc

theorem fail {failure : Failure} : Gives P (Emit.fail failure) := by
  intro level s value t hrun
  cases hrun

theorem indented (h : Gives P action) : Gives P (Emit.indented action) :=
  fun _ _ _ _ hrun ↦ h hrun

theorem mapM {items : List α} {f : α → Emit β} (h : ∀ item ∈ items, Gives Q (f item)) :
    Gives (fun values ↦ ∀ value ∈ values, Q value) (items.mapM f) := by
  induction items with
  | nil => exact pure (List.forall_mem_nil _)
  | cons item items ih =>
    rw [List.forall_mem_cons] at h
    rw [List.mapM_cons]
    refine h.1.bind fun value hvalue ↦ (ih h.2).bind fun values hvalues ↦ pure ?_
    exact List.forall_mem_cons.mpr ⟨hvalue, hvalues⟩

theorem temporary {label : String} (hlabel : Paired (bytes label)) :
    Gives Paired (Emit.temporary label) := by
  intro level s name t hrun
  cases hrun
  simp [Paired, hlabel, show unpaired (bytes "_") = 1 from rfl, (paired_ofNat _ : _ = _)]

end Gives

end Emit

/-! ### Views -/

/-- How a view is written: in a text with paired parentheses, which is in a pair of its own only if
the view is an expression in parentheses. -/
structure View.StandsAs (view : View) (text : Bytes) : Prop where
  paired : Paired text
  ne_nil : view.isWritten → text ≠ []
  stripParens_eq : view.inParens? = none → Quoted.stripParens text = text

theorem Unwrapped.standsAs {text : Bytes} (h : Unwrapped text) (view : View) :
    view.StandsAs text where
  paired := h.paired
  ne_nil _ := h.ne_nil
  stripParens_eq _ := h.stripParens_eq

namespace Emission

open Emit

/-- The entry points write what is well spelled with paired parentheses. -/
structure Spells (e : Emission) : Prop where
  indent : Paired e.options.indent
  statement {view : View} (h : view.WellSpelled) : Gives Paired (e.statement view)
  expression {view : View} (h : view.WellSpelled) : Gives view.StandsAs (e.expression view)

namespace Spells

variable {e : Emission} (h : Spells e)
include h

theorem value {view : View} (hview : view.WellSpelled) : Gives Paired (e.expression view) :=
  (h.expression hview).mono fun _ htext ↦ htext.paired

theorem pad : Gives Paired e.pad := .after fun _ ↦ .pure (paired_repeated _ h.indent)

/-- A line leaves over what its text does. -/
theorem line (text : Bytes) : Gives (unpaired · = unpaired text) (e.line text) :=
  h.pad.bind fun margin hmargin ↦
    .pure (by simp [hmargin, show unpaired (bytes "\n") = 1 from rfl])

end Spells

end Emission

end SignalView
