import Mathlib.Data.List.Forall2
import SignalView.Proofs.Expression.RoundTrip

/-!
# Children in braces

A child in braces may be a comma sequence, which is written as it stands: its parts become values of
their own in the list of a component's children. So the list is read with as many values as there
are children exactly if no child is a sequence.
-/

namespace SignalView

/-- No scope of a bare state has a name to mark. -/
theorem LoweringState.Bare.markUsed_eq {state : LoweringState} (h : state.Bare) (name : Bytes) :
    state.symbols.markUsed name = state.symbols := by
  have hnone : ∀ scope ∈ state.symbols.scopes, scope.declares name = false := by
    intro scope hscope
    rw [Scope.declares, List.findSome?_eq_none_iff.mp (h name) scope hscope]
    rfl
  have hkeep (scopes : List Scope) (hscopes : ∀ scope ∈ scopes, scope.declares name = false) :
      SymbolTable.markUsedIn name scopes = scopes := by
    induction scopes with
    | nil => rfl
    | cons scope scopes ih =>
      rw [List.forall_mem_cons] at hscopes
      rw [SymbolTable.markUsedIn, hscopes.1, if_neg Bool.false_ne_true, ih hscopes.2]
  rw [SymbolTable.scopes, List.forall_mem_cons] at hnone
  rw [SymbolTable.markUsed, hnone.1, if_neg Bool.false_ne_true, hkeep _ hnone.2]

def Plain.isSpread {α : Type} : Plain α → Bool
  | .spread _ => true
  | _ => false

/-- Nothing becomes a spread that was none. -/
theorem Lowering.plainExpression_isSpread {l : Lowering} {node : Node} {form : Plain Node}
    {result : Plain View} {state state' : LoweringState}
    (h : l.plainExpression node form state = (.ok result, state')) :
    result.isSpread = form.isSpread := by
  cases form <;> simp only [plainExpression, Lower.bind_eq_ok, Lower.pure_eq_ok] at h
  all_goals first
    | obtain ⟨rfl, -⟩ := h; rfl
    | obtain ⟨_, _, -, rfl, -⟩ := h; rfl
    | obtain ⟨_, _, -, _, _, -, rfl, -⟩ := h; rfl
    | obtain ⟨_, _, -, _, _, -, _, _, -, rfl, -⟩ := h; rfl
    | cases h

/-- A child in braces that holds several expressions between commas. -/
def Node.holdsSequence : Node → Bool
  | .surface _ (.container (some (.plain _ (.sequence _)))) => true
  | _ => false

namespace Term

/-! ## Values -/

/-- The values that an expression gives: a sequence gives those of its parts, and any other
expression is a value by itself. -/
def DepictsValues (ts : List Term) (node : Node) : Prop :=
  (∃ t, ts = [t] ∧ t.Depicts node) ∨
    ∃ range parts, node = .plain range (.sequence parts) ∧ 2 ≤ ts.length ∧ DepictAll ts parts

/-- A child in braces gives the values of its expression. -/
def DepictsChild (ts : List Term) (node : Node) : Prop :=
  ∃ range inner, node = .surface range (.container (some inner)) ∧ DepictsValues ts inner

variable {ts : List Term} {node : Node} {groups : List (List Term)} {nodes : List Node}

theorem DepictsChild.length_pos (h : DepictsChild ts node) : 0 < ts.length := by
  obtain ⟨_, _, -, ⟨t, rfl, -⟩ | ⟨_, _, -, hlength, -⟩⟩ := h
  · exact Nat.one_pos
  · omega

theorem ne_nil_of_depictsChild (h : List.Forall₂ DepictsChild groups nodes) :
    ∀ ts ∈ groups, ts ≠ [] := by
  induction h with
  | nil => exact nofun
  | cons hchild _ ih =>
    exact List.forall_mem_cons.mpr ⟨List.ne_nil_of_length_pos hchild.length_pos, ih⟩

theorem DepictsChild.length_eq_one_iff (h : DepictsChild ts node) :
    ts.length = 1 ↔ node.holdsSequence = false := by
  obtain ⟨_, inner, rfl, ⟨t, rfl, hdepicts⟩ | ⟨_, parts, rfl, hlength, -⟩⟩ := h
  · refine iff_of_true rfl ?_
    have hform := hdepicts.isForm
    unfold Node.holdsSequence
    split
    · next hsequence =>
      cases hsequence
      cases hform
    · rfl
  · exact iff_of_false (by omega) nofun

/-- There are as many values as children exactly if each child is a value by itself. -/
theorem length_flatten_eq_iff (h : List.Forall₂ DepictsChild groups nodes) :
    groups.flatten.length = nodes.length ↔ ∀ node ∈ nodes, node.holdsSequence = false := by
  have hle {groups : List (List Term)} {nodes : List Node}
      (h : List.Forall₂ DepictsChild groups nodes) : nodes.length ≤ groups.flatten.length := by
    induction h with
    | nil => exact Nat.le_refl _
    | cons hchild _ ih =>
      have := hchild.length_pos
      simp only [List.flatten_cons, List.length_append, List.length_cons]
      omega
  induction h with
  | nil => exact iff_of_true rfl nofun
  | cons hchild hrest ih =>
    have hpos := hchild.length_pos
    have hmore := hle hrest
    rw [List.forall_mem_cons]
    refine Iff.trans ?_ (and_congr hchild.length_eq_one_iff ih)
    simp only [List.flatten_cons, List.length_append, List.length_cons]
    omega

theorem Fits.not_spread {rank : Rank} {t : Term} (h : Fits rank t) (hitem : rank ≠ .item)
    (helement : rank ≠ .element) (argument : Term) : t ≠ .spread argument := by
  induction h with
  | ofItem _ _ => exact absurd rfl helement
  | ofAssignment _ _ | spread _ _ => exact absurd rfl hitem
  | ofOperand _ ih | ofUnary _ ih | ofBinary _ ih => exact ih nofun nofun
  | _ => exact nofun

/-- The form of an expression whose values are no spreads. -/
theorem DepictsValues.exists_form (h : DepictsValues ts node)
    (hspread : ∀ t ∈ ts, ∀ argument, t ≠ .spread argument) :
    ∃ range form, node = .plain range form ∧ form.isSpread = false := by
  rcases h with ⟨t, rfl, hdepicts⟩ | ⟨range, parts, rfl, -⟩
  · have hspread := hspread t List.mem_cons_self
    cases t with
    | name _ | number _ _ | string _ | hole =>
      obtain ⟨range, rfl⟩ := hdepicts
      exact ⟨range, _, rfl, rfl⟩
    | paren _ | array _ | unary _ _ | member _ _ =>
      obtain ⟨range, _, rfl, -⟩ := hdepicts
      exact ⟨range, _, rfl, rfl⟩
    | binary _ _ _ | call _ _ | index _ _ =>
      obtain ⟨range, _, _, rfl, -⟩ := hdepicts
      exact ⟨range, _, rfl, rfl⟩
    | conditional _ _ _ =>
      obtain ⟨range, _, _, _, rfl, -⟩ := hdepicts
      exact ⟨range, _, rfl, rfl⟩
    | spread argument => exact absurd rfl (hspread argument)
  · exact ⟨range, _, rfl, rfl⟩

/-! ## Lowering and writing -/

/-- A child that is written as some values are, between commas. -/
structure WritesValues (least : Nat) (ts : List Term) (view : View) : Prop where
  writes : view.Writes least (Bytes.join (bytes ", ") (ts.map text))
  isSpread : Emission.isSpreadChild view = false

/-- The values of an expression are written between commas. -/
theorem lower_values (h : ∀ t ∈ ts, t.Lowers) (hvalues : DepictsValues ts node)
    {runtime : Bytes} {limit : Int} {levels least : Nat} {state : LoweringState}
    (hbare : state.Bare) (hlevels : (listSigns ts).length + 1 < levels)
    (hleast : (listSigns ts).length + 1 < least) :
    ∃ view, (lowering runtime limit levels).expression node state = (.ok view, state) ∧
      view.Writes least (Bytes.join (bytes ", ") (ts.map text)) := by
  rcases hvalues with ⟨t, rfl, hdepicts⟩ | ⟨range, parts, rfl, -, hparts⟩
  · have hlength : t.signs.length ≤ (listSigns [t]).length := by simp [listSigns]
    have hdeep : t.signs.length < levels := by omega
    obtain ⟨view, hview, hwrites, -⟩ :
        ∃ view, (lowering runtime limit levels).expression node state = (.ok view, state) ∧
          view.Writes (t.signs.length + 1) t.text ∧ Emission.isOmitted view = t.isHole :=
      h t List.mem_cons_self hdepicts hbare hdeep
    have hless : t.signs.length + 1 ≤ least := by omega
    refine ⟨view, hview, ?_⟩
    rw [List.map_singleton, Bytes.join, List.intercalate_singleton]
    exact hwrites.mono hless
  · obtain ⟨levels, rfl⟩ : ∃ l, levels = l + 1 := ⟨levels - 1, by omega⟩
    obtain ⟨views, hviews, hall⟩ :
        ∃ views, (lowering runtime limit levels).expressions parts state = (.ok views, state) ∧
          WritesAll ((listSigns ts).length + 1) ts views :=
      lower_list h hparts hbare (Nat.lt_of_succ_lt_succ hlevels) (Nat.lt_succ_self _)
    refine ⟨.plain range.start.line range.start.column (.sequence views), ?_, ?_⟩
    · have hform : (lowering runtime limit levels).plainExpression
          (.plain range (.sequence parts)) (.sequence parts) state =
          (.ok (.sequence views), state) := by
        rw [Lowering.plainExpression, Lower.bind_of_ok hviews]
        rfl
      change ((lowering runtime limit levels).plainExpression _ _ >>= fun form ↦
        pure (View.plain _ _ form)) state = _
      rw [Lower.bind_of_ok hform]
      rfl
    · intro options levels level state hle
      obtain ⟨levels, rfl⟩ : ∃ l, levels = l + 1 := ⟨levels - 1, by omega⟩
      exact hall.expressionList_eq (by omega) options level state

/-- A child in braces is lowered to a view that is written as its values are. -/
theorem lower_child (h : ∀ t ∈ ts, t.Lowers ∧ Fits .assignment t) (hchild : DepictsChild ts node)
    {runtime : Bytes} {limit : Int} {levels least : Nat} {state : LoweringState}
    (hbare : state.Bare) (hlevels : (listSigns ts).length + 1 < levels)
    (hleast : (listSigns ts).length + 2 < least) :
    ∃ view state', (lowering runtime limit levels).markupChild node state =
        (.ok (some view), state') ∧ state'.Bare ∧ WritesValues least ts view := by
  obtain ⟨range, inner, rfl, hvalues⟩ := hchild
  let c := Classification.classify (some state.symbols) inner
  let state' : LoweringState := { state with
    current := state.current.map fun facts ↦
      { facts with dependencies := facts.dependencies ++ c.dependencies } }
  have hbare' : state'.Bare := hbare
  obtain ⟨least, rfl⟩ : ∃ l, least = l + 1 := ⟨least - 1, by omega⟩
  obtain ⟨view, hview, hwrites⟩ :
      ∃ view, (lowering runtime limit levels).expression inner state' = (.ok view, state') ∧
        view.Writes least (Bytes.join (bytes ", ") (ts.map text)) :=
    lower_values (fun t ht ↦ (h t ht).1) hvalues hbare' hlevels (by omega)
  have hspread : Emission.isSpreadChild
      (.rendered range.start.line range.start.column (.child c view)) = false := by
    obtain ⟨place, form, rfl, hform⟩ :=
      hvalues.exists_form fun t ht ↦ (h t ht).2.not_spread nofun nofun
    obtain ⟨levels, rfl⟩ : ∃ l, levels = l + 1 := ⟨levels - 1, by omega⟩
    obtain ⟨result, _, hresult, hview⟩ := Lower.bind_eq_ok.mp hview
    obtain ⟨rfl, -⟩ := Lower.pure_eq_ok.mp hview
    have hsame := Lowering.plainExpression_isSpread hresult
    rw [hform] at hsame
    cases result <;> first | rfl | cases hsame
  refine ⟨.rendered range.start.line range.start.column (.child c view), state', ?_, hbare',
    fun options levels level state hle ↦ ?_, hspread⟩
  · change ((lowering runtime limit levels).expression inner >>= fun expression ↦
      pure (some (View.rendered _ _ (.child c expression)))) state' = _
    rw [Lower.bind_of_ok hview]
    rfl
  · obtain ⟨levels, rfl⟩ : ∃ l, levels = l + 1 := ⟨levels - 1, by omega⟩
    exact hwrites options levels level state (Nat.le_of_succ_le_succ hle)

theorem lower_children (h : ∀ ts ∈ groups, ∀ t ∈ ts, t.Lowers ∧ Fits .assignment t)
    (hchildren : List.Forall₂ DepictsChild groups nodes) {runtime : Bytes} {limit : Int}
    {levels least : Nat} {state : LoweringState} (hbare : state.Bare)
    (hlevels : ∀ ts ∈ groups, (listSigns ts).length + 1 < levels)
    (hleast : ∀ ts ∈ groups, (listSigns ts).length + 2 < least) :
    ∃ views state', (lowering runtime limit levels).markupChildren nodes state =
        (.ok views, state') ∧ List.Forall₂ (WritesValues least) groups views := by
  have hmapM : ∃ views state', nodes.mapM (lowering runtime limit levels).markupChild state =
      (.ok (views.map some), state') ∧ List.Forall₂ (WritesValues least) groups views := by
    induction hchildren generalizing state with
    | nil => exact ⟨[], state, rfl, .nil⟩
    | cons hchild _ ih =>
      rw [List.forall_mem_cons] at h hlevels hleast
      obtain ⟨view, middle, hview, hmiddle, hwrites⟩ :=
        lower_child h.1 hchild hbare hlevels.1 hleast.1
      obtain ⟨views, last, hviews, hall⟩ := ih h.2 hmiddle hlevels.2 hleast.2
      refine ⟨view :: views, last, ?_, .cons hwrites hall⟩
      rw [List.mapM_cons, Lower.bind_of_ok hview, Lower.bind_of_ok hviews]
      rfl
  obtain ⟨views, last, hviews, hall⟩ := hmapM
  refine ⟨views, last, ?_, hall⟩
  rw [Lowering.markupChildren, Lower.bind_of_ok hviews, List.filterMap_map]
  simp [pure]

/-! ## The children of a call -/

theorem join_append (separator : Bytes) {front back : List Bytes} (hfront : front ≠ [])
    (hback : back ≠ []) : Bytes.join separator (front ++ back) =
      Bytes.join separator front ++ separator ++ Bytes.join separator back := by
  induction front with
  | nil => exact absurd rfl hfront
  | cons first front ih =>
    simp only [Bytes.join] at ih ⊢
    cases front with
    | nil => rw [List.singleton_append, List.intercalate_cons_of_ne_nil hback,
        List.intercalate_singleton]
    | cons second front =>
      rw [List.cons_append, List.cons_append, List.intercalate_cons_cons,
        List.intercalate_cons_cons, ← List.cons_append, ih (List.cons_ne_nil _ _)]
      simp only [List.append_assoc]

/-- Groups that are joined with the separator that is in them are joined as one list. -/
theorem join_groups (separator : Bytes) {groups : List (List Term)} (h : ∀ ts ∈ groups, ts ≠ []) :
    Bytes.join separator (groups.map fun ts ↦ Bytes.join separator (ts.map text)) =
      Bytes.join separator (groups.flatten.map text) := by
  induction groups with
  | nil => rfl
  | cons ts groups ih =>
    rw [List.forall_mem_cons] at h
    cases groups with
    | nil => simp [Bytes.join]
    | cons next groups =>
      have hnext : (next :: groups).flatten.map text ≠ [] := by simp [h.2 next]
      have hmap : (ts.map text) ≠ [] := by simp [h.1]
      rw [List.flatten_cons, List.map_append, join_append separator hmap hnext, ← ih h.2]
      simp [Bytes.join]

section Writing

variable {views : List View} {least levels : Nat}

theorem writesValues_mapM_eq (h : List.Forall₂ (WritesValues least) groups views)
    (hlevels : least ≤ levels) (options : ScriptOptions) (level : Nat) (state : EmitState) :
    views.mapM (emission options levels).expression level state =
      .ok (groups.map fun ts ↦ Bytes.join (bytes ", ") (ts.map text), state) := by
  induction h with
  | nil => rfl
  | cons hview _ ih =>
    rw [List.mapM_cons, Emit.bind_of_ok (hview.writes options levels level state hlevels),
      Emit.bind_of_ok ih]
    rfl

/-- One child is written as its values are, and several as an array of all of their values. -/
def childrenText (groups : List (List Term)) : Bytes :=
  if groups.length = 1 then listText groups.flatten else (Term.array groups.flatten).text

theorem callChildren_eq (h : List.Forall₂ (WritesValues least) groups views)
    (hne : ∀ ts ∈ groups, ts ≠ []) (hholes : ∀ t ∈ groups.flatten, t.isHole = false)
    (hviews : views ≠ []) (hlevels : least ≤ levels) (options : ScriptOptions) (level : Nat)
    (state : EmitState) :
    (emission options levels).callChildren views level state =
      .ok (childrenText groups, state) := by
  cases h with
  | nil => exact absurd rfl hviews
  | @cons ts child groups views hchild hrest =>
    cases hrest with
    | nil =>
      have htext : Bytes.join (bytes ", ") (ts.map text) = childrenText [ts] := by
        rw [join_items (by simpa using hholes), childrenText,
          if_pos List.length_singleton, List.flatten_singleton]
      rw [Emission.callChildren, hchild.isSpread, if_neg Bool.false_ne_true, ← htext]
      exact hchild.writes options levels level state hlevels
    | @cons others next groups views hnext hmore =>
      have hall := writesValues_mapM_eq (.cons hchild (.cons hnext hmore)) hlevels options level
        state
      rw [Emission.callChildren, childrenText, if_neg (by simp)]
      · have hlist : (emission options levels).expressionList (child :: next :: views) level state =
            .ok (listText (ts :: others :: groups).flatten, state) := by
          rw [Emission.expressionList, Emit.bind_of_ok hall, join_groups _ hne,
            join_items hholes]
          rfl
        rw [Emit.bind_of_ok hlist]
        rfl
      · rintro other ⟨⟩

/-- A component's call without properties is written with its children. -/
theorem call_writes (h : List.Forall₂ (WritesValues least) groups views)
    (hne : ∀ ts ∈ groups, ts ≠ []) (hholes : ∀ t ∈ groups.flatten, t.isHole = false)
    (hviews : views ≠ []) (tag : Bytes) (line column : Nat) :
    (View.rendered line column (.componentCall tag [] views)).Writes (least + 1)
      (tag ++ bytes "(\x7b children: " ++ childrenText groups ++ bytes " \x7d)") := by
  intro options levels level state hle
  obtain ⟨levels, rfl⟩ : ∃ l, levels = l + 1 := ⟨levels - 1, by omega⟩
  have hchildren := callChildren_eq h hne hholes hviews (Nat.le_of_succ_le_succ hle) options level
    state
  have hempty : views.isEmpty = false := by simpa using hviews
  have hentries : ([] : List (ViewAttribute View)).mapM
      ((emission options levels).attributeEntry false) level state = .ok ([], state) := rfl
  change (emission options levels).callText tag [] views level state = _
  rw [Emission.callText, Emit.bind_of_ok hentries, hempty, if_neg Bool.false_ne_true,
    Emit.bind_of_ok hchildren]
  simp [pure, bind, Emission.bracedEntries, Bytes.join, bytes]

end Writing

/-- A component's call without properties is lowered with its children. -/
theorem lower_call (h : ∀ ts ∈ groups, ∀ t ∈ ts, t.Lowers ∧ Fits .assignment t)
    (hchildren : List.Forall₂ DepictsChild groups nodes) {tag : Bytes}
    (htag : Node.isComponentTag tag = true) (range : Range) {runtime : Bytes} {limit : Int}
    {levels least : Nat} {state : LoweringState} (hbare : state.Bare)
    (hlevels : ∀ ts ∈ groups, (listSigns ts).length + 2 < levels)
    (hleast : ∀ ts ∈ groups, (listSigns ts).length + 2 < least) (hpos : 0 < levels) :
    ∃ views state', (lowering runtime limit levels).element
        (.surface range (.element tag [] nodes false)) state =
        (.ok (.rendered range.start.line range.start.column (.componentCall tag [] views)),
          state') ∧ List.Forall₂ (WritesValues least) groups views := by
  obtain ⟨levels, rfl⟩ : ∃ l, levels = l + 1 := ⟨levels - 1, by omega⟩
  let marked : LoweringState := { state with hasMarkup := true }
  have hmarked : marked.Bare := hbare
  obtain ⟨views, last, hviews, hall⟩ :
      ∃ views last, (lowering runtime limit levels).markupChildren nodes marked =
        (.ok views, last) ∧ List.Forall₂ (WritesValues least) groups views :=
    lower_children h hchildren hmarked
      (fun ts hts ↦ Nat.lt_of_succ_lt_succ (hlevels ts hts)) hleast
  have hused : Lower.markUsed (tag.takeWhile (· != byte '.')) marked = (.ok (), marked) := by
    have hsymbols := hmarked.markUsed_eq (tag.takeWhile (· != byte '.'))
    rw [Lower.markUsed, Lower.modify, hsymbols]
  have hcall : (lowering runtime limit levels).componentCall tag [] nodes marked =
      (.ok (.componentCall tag [] views), last) := by
    have hprops : (lowering runtime limit levels).callProps [] marked = (.ok [], marked) := rfl
    rw [Lowering.componentCall, Lower.bind_of_ok hused, Lower.bind_of_ok hprops,
      Lower.bind_of_ok hviews]
    rfl
  have hempty : tag.isEmpty = false := by
    cases tag with
    | nil => cases htag
    | cons _ _ => rfl
  refine ⟨views, last, ?_, hall⟩
  have hset : Lower.modify (fun s ↦ { s with hasMarkup := true }) state = (.ok (), marked) := rfl
  change (lowering runtime limit levels).elementStep
    (.surface range (.element tag [] nodes false)) state = _
  simp only [Lowering.elementStep, hempty, htag, if_true, if_false, Bool.false_eq_true]
  rw [Lower.bind_of_ok hset, Lower.bind_of_ok hcall]
  rfl

/-! ## Reading the children again -/

theorem length_listSigns_append (front back : List Term) :
    (listSigns front).length ≤ (listSigns (front ++ back)).length ∧
      (listSigns back).length ≤ (listSigns (front ++ back)).length := by
  induction front with
  | nil => exact ⟨Nat.zero_le _, Nat.le_refl _⟩
  | cons t front ih =>
    have hgap : (gapSigns t front).length ≤ (gapSigns t (front ++ back)).length := by
      cases front with
      | nil => cases back <;> cases h : t.isHole <;> simp [gapSigns, h]
      | cons _ _ => exact Nat.le_refl _
    simp only [List.cons_append, listSigns, List.length_append]
    omega

theorem length_listSigns_le (h : ts ∈ groups) :
    (listSigns ts).length ≤ (listSigns groups.flatten).length := by
  obtain ⟨front, back, rfl⟩ := List.append_of_mem h
  rw [List.flatten_append, List.flatten_cons]
  exact (length_listSigns_append ts back.flatten).1.trans
    (length_listSigns_append front.flatten (ts ++ back.flatten)).2

/-- What is asked of a value that is read again: it is plain, and its tokens can be read. -/
structure IsReadable (t : Term) : Prop where
  fits : Fits .assignment t
  plain : t.IsPlain
  tokens : ∀ sign ∈ t.signs, sign.Readable

theorem readable_of_mem_listSigns {items : List Term} (h : ∀ t ∈ items, t.IsReadable) {sign : Sign}
    (hsign : sign ∈ listSigns items) : sign.Readable := by
  induction items with
  | nil => cases hsign
  | cons t items ih =>
    rw [List.forall_mem_cons] at h
    rw [listSigns, List.mem_append, List.mem_append] at hsign
    rcases hsign with (hfirst | hgap) | hrest
    · exact h.1.tokens sign hfirst
    · rw [gapSigns] at hgap
      split at hgap
      · cases hgap
      · obtain rfl := List.mem_singleton.mp hgap
        exact .of_endsTerm_eq_false rfl
    · exact ih h.2 hrest

/-- An array of values is read again. -/
theorem array_read_back {items : List Term} (h : ∀ t ∈ items, t.IsReadable) (lexer : LexerOptions)
    (parser : Program.Options) (hdepth : ((listSigns items).length + 3 : Int) ≤ parser.maxDepth) :
    ∃ root, (Term.array items).IsReadFrom lexer parser
      (bytes "[" ++ listText items ++ bytes "];\n") root := by
  have hfits : Fits .assignment (.array items) :=
    .ofBinary (.ofUnary (.ofOperand (.array fun t ht ↦ .ofItem (.ofAssignment (h t ht).fits))))
  have hread : ∀ sign ∈ (Term.array items).signs, sign.Readable := by
    intro sign hsign
    rw [signs, List.mem_append, List.mem_cons, List.mem_singleton] at hsign
    rcases hsign with (rfl | hinside) | rfl
    · exact .of_endsTerm_eq_false rfl
    · exact readable_of_mem_listSigns h hinside
    · refine ⟨fun h ↦ ?_, fun h ↦ ?_⟩
      · cases h
      · rcases h with h | h <;> cases h
  have hlength : (Term.array items).signs.length = (listSigns items).length + 2 := by simp [signs]
  obtain ⟨root, hroot⟩ := hfits.isReadFrom (arePlain_iff.mpr fun t ht ↦ (h t ht).plain) hread lexer
    parser (by rw [hlength]; push_cast; omega)
  have hguard : Emission.guardStatement (Term.array items).text ++ bytes "\n" =
      bytes "[" ++ listText items ++ bytes "];\n" := by
    change (bytes "[" ++ listText items ++ bytes "]") ++ bytes ";" ++ bytes "\n" = _
    rw [List.append_assoc, List.append_assoc]
    rfl
  rw [hguard] at hroot
  exact ⟨root, hroot⟩

end Term

end SignalView
