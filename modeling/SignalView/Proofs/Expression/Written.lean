import SignalView.Proofs.Expression.Shape
import SignalView.Proofs.Lowering.Outcome

/-!
# Terms in the output

A node that depicts a plain term is lowered without any change of what is known about the program,
as long as no name is declared, and the view that it is lowered to is written as the text of the
term. Levels of nesting are enough when there are more of them than the term has tokens.
-/

namespace SignalView

/-- No name is declared. -/
def LoweringState.Bare (state : LoweringState) : Prop :=
  ∀ name, state.symbols.lookup name = none

/-- A view is written as a text when there are enough levels of nesting. -/
def View.Writes (view : View) (least : Nat) (text : Bytes) : Prop :=
  ∀ options levels level state, least ≤ levels →
    (emission options levels).expression view level state = .ok (text, state)

theorem View.Writes.mono {view : View} {least least' : Nat} {text : Bytes}
    (h : view.Writes least text) (hle : least ≤ least') : view.Writes least' text :=
  fun options levels level state hlevels ↦ h options levels level state (Nat.le_trans hle hlevels)

namespace Term

/-- Whatever depicts the term is lowered to a view that is written as the text of the term. -/
def Lowers (t : Term) : Prop :=
  ∀ ⦃node runtime limit levels state⦄, t.Depicts node → state.Bare → t.signs.length < levels →
    ∃ view, (lowering runtime limit levels).expression node state = (.ok view, state) ∧
      view.Writes (t.signs.length + 1) t.text ∧ Emission.isOmitted view = t.isHole

/-! ## Lists -/

/-- Views that are written as the texts of the items of a list. -/
inductive WritesAll (least : Nat) : List Term → List View → Prop
  | nil : WritesAll least [] []
  | cons {t : Term} {rest : List Term} {view : View} {views : List View} :
    view.Writes least t.text → Emission.isOmitted view = t.isHole → WritesAll least rest views →
      WritesAll least (t :: rest) (view :: views)

theorem lower_list {items : List Term} {nodes : List Node} (h : ∀ t ∈ items, t.Lowers)
    (hdepicts : DepictAll items nodes) {runtime : Bytes} {limit : Int} {levels : Nat}
    {state : LoweringState} (hbare : state.Bare) (hlevels : (listSigns items).length < levels)
    {least : Nat} (hleast : (listSigns items).length < least) :
    ∃ views, (lowering runtime limit levels).expressions nodes state = (.ok views, state) ∧
      WritesAll least items views := by
  unfold Lowering.expressions
  induction items generalizing nodes with
  | nil =>
    obtain rfl := hdepicts
    exact ⟨[], rfl, .nil⟩
  | cons t rest ih =>
    obtain ⟨node, others, rfl, hnode, hothers⟩ := hdepicts
    rw [listSigns, List.length_append, List.length_append] at hlevels hleast
    have hfirst : t.signs.length < levels := by omega
    obtain ⟨view, hview, hwrites, homitted⟩ :
        ∃ view, (lowering runtime limit levels).expression node state = (.ok view, state) ∧
          view.Writes (t.signs.length + 1) t.text ∧ Emission.isOmitted view = t.isHole :=
      h t (by simp) hnode hbare hfirst
    obtain ⟨views, hviews, hall⟩ := ih (fun t ht ↦ h t (by simp [ht])) hothers (by omega) (by omega)
    refine ⟨view :: views, ?_, .cons (hwrites.mono (by omega)) homitted hall⟩
    rw [List.mapM_cons, Lower.bind_of_ok hview, Lower.bind_of_ok hviews]
    rfl

/-- The texts of views, as they are written one by one. -/
theorem WritesAll.mapM_eq {least levels : Nat} {items : List Term} {views : List View}
    (h : WritesAll least items views) (hlevels : least ≤ levels) (options : ScriptOptions)
    (level : Nat) (state : EmitState) :
    views.mapM (emission options levels).expression level state =
      .ok (items.map text, state) := by
  induction h with
  | nil => rfl
  | cons hview _ _ ih =>
    rw [List.mapM_cons, Emit.bind_of_ok (hview options levels level state hlevels),
      Emit.bind_of_ok ih]
    rfl

theorem WritesAll.expressionList_eq {least levels : Nat} {items : List Term} {views : List View}
    (h : WritesAll least items views) (hlevels : least ≤ levels) (options : ScriptOptions)
    (level : Nat) (state : EmitState) :
    (emission options levels).expressionList views level state =
      .ok (Bytes.join (bytes ", ") (items.map text), state) := by
  rw [Emission.expressionList, Emit.bind_of_ok (h.mapM_eq hlevels options level state)]
  rfl

theorem WritesAll.isOmitted_last {least : Nat} {items : List Term} {views : List View}
    (h : WritesAll least items views) :
    views.getLast?.any Emission.isOmitted = items.getLast?.any isHole := by
  induction h with
  | nil => rfl
  | cons _ homitted hrest ih =>
    cases hrest with
    | nil => simpa using homitted
    | cons _ _ _ => simpa using ih

/-- The items of a list between commas, with one more behind a hole at the end. -/
theorem join_text (items : List Term) :
    Bytes.join (bytes ", ") (items.map text) ++
      Emission.when (items.getLast?.any isHole) "," = listText items := by
  induction items with
  | nil => rfl
  | cons t rest ih =>
    cases rest with
    | nil =>
      simp only [Bytes.join, List.map_cons, List.map_nil, List.intercalate_singleton, listText,
        gapText, Emission.when, List.getLast?_singleton, Option.any_some, List.isEmpty_nil,
        if_true, List.append_nil]
      rfl
    | cons next rest =>
      rw [listText, ← ih, List.getLast?_cons_cons]
      simp only [Bytes.join, List.map_cons, List.intercalate_cons_cons, gapText, List.isEmpty_cons,
        Bool.false_eq_true, if_false, List.append_assoc]

theorem join_items {items : List Term} (h : ∀ t ∈ items, t.isHole = false) :
    Bytes.join (bytes ", ") (items.map text) = listText items := by
  rw [← join_text items]
  have hlast : items.getLast?.any isHole = false := by
    cases hitem : items.getLast? with
    | none => rfl
    | some t => exact h t (List.mem_of_getLast? hitem)
  rw [hlast, Emission.when, if_neg Bool.false_ne_true, List.append_nil]

/-! ## The parts of terms -/

section Parts

variable {inner callee receiver operand left right test consequent alternate argument : Term}
  {items : List Term}

/-- It is enough to know what the steps for plain expressions do, one level further in. -/
theorem Lowers.of_form {t : Term} (h : ∀ ⦃node runtime limit levels state⦄, t.Depicts node →
      state.Bare → t.signs.length ≤ levels → ∃ range form result, node = .plain range form ∧
        (lowering runtime limit levels).plainExpression node form state = (.ok result, state) ∧
        (∀ view options levels level state, t.signs.length ≤ levels →
          (emission options levels).plainExpression view result level state =
            .ok (t.text, state)) ∧
        ∀ line column, Emission.isOmitted (.plain line column result) = t.isHole) :
    t.Lowers := by
  intro node runtime limit levels state hdepicts hbare hlevels
  obtain ⟨levels, rfl⟩ : ∃ l, levels = l + 1 := ⟨levels - 1, by omega⟩
  obtain ⟨range, form, result, rfl, hlower, hwrite, homitted⟩ :=
    @h node runtime limit levels state hdepicts hbare (Nat.le_of_lt_succ hlevels)
  refine ⟨.plain range.start.line range.start.column result, ?_, ?_, homitted _ _⟩
  · change ((lowering runtime limit levels).plainExpression (.plain range form) form >>= fun form ↦
      pure (View.plain _ _ form)) state = _
    rw [Lower.bind_of_ok hlower]
    rfl
  · intro options levels level state hle
    obtain ⟨levels, rfl⟩ : ∃ l, levels = l + 1 := ⟨levels - 1, by omega⟩
    exact hwrite _ options levels level state (Nat.le_of_succ_le_succ hle)

theorem resolve_eq {name : Bytes} (h : Primitive.isImplicit name = false) {state : LoweringState}
    (hbare : state.Bare) : Lower.resolve name state = (.ok name, state) := by
  have hstate : Lower.state state = (.ok state, state) := rfl
  rw [Lower.resolve, Lower.bind_of_ok hstate, hbare name]
  dsimp only
  rw [h, if_neg Bool.false_ne_true]
  rfl

theorem Lowers.name {spelling : Bytes} (h : Primitive.isImplicit spelling = false) :
    (Term.name spelling).Lowers := by
  refine .of_form ?_
  rintro _ runtime limit levels state ⟨range, rfl⟩ hbare -
  refine ⟨range, _, .identifier spelling, rfl, ?_, fun _ _ _ _ _ _ ↦ rfl, fun _ _ ↦ rfl⟩
  apply (Lower.bind_of_ok (resolve_eq h hbare)).trans
  rfl

theorem Lowers.number (raw : Bytes) (isBigint : Bool) : (Term.number raw isBigint).Lowers := by
  refine .of_form ?_
  rintro _ runtime limit levels state ⟨range, rfl⟩ - -
  exact ⟨range, _, .number raw isBigint, rfl, rfl, fun _ _ _ _ _ _ ↦ rfl, fun _ _ ↦ rfl⟩

theorem Lowers.string (value : Bytes) : (Term.string value).Lowers := by
  refine .of_form ?_
  rintro _ runtime limit levels state ⟨range, rfl⟩ - -
  exact ⟨range, _, .string value, rfl, rfl, fun _ _ _ _ _ _ ↦ rfl, fun _ _ ↦ rfl⟩

theorem Lowers.hole : Term.hole.Lowers := by
  refine .of_form ?_
  rintro _ runtime limit levels state ⟨range, rfl⟩ - -
  exact ⟨range, _, .omitted, rfl, rfl, fun _ _ _ _ _ _ ↦ rfl, fun _ _ ↦ rfl⟩

theorem Lowers.paren (h : inner.Lowers) : (Term.paren inner).Lowers := by
  refine .of_form ?_
  rintro _ runtime limit levels state ⟨range, part, rfl, hpart⟩ hbare hlevels
  have hinner : inner.signs.length + 1 ≤ (Term.paren inner).signs.length := by simp [signs]
  obtain ⟨view, hview, hwrites, -⟩ := h hpart hbare (Nat.le_trans hinner hlevels)
  refine ⟨range, _, .paren view, rfl, ?_, fun _ options levels level state hle ↦ ?_,
    fun _ _ ↦ rfl⟩
  · apply (Lower.bind_of_ok hview).trans
    rfl
  · apply (Emit.bind_of_ok (hwrites options levels level state (Nat.le_trans hinner hle))).trans
    rfl

theorem Lowers.spread (h : argument.Lowers) : (Term.spread argument).Lowers := by
  refine .of_form ?_
  rintro _ runtime limit levels state ⟨range, part, rfl, hpart⟩ hbare hlevels
  have hinner : argument.signs.length + 1 ≤ (Term.spread argument).signs.length := by simp [signs]
  obtain ⟨view, hview, hwrites, -⟩ := h hpart hbare (Nat.le_trans hinner hlevels)
  refine ⟨range, _, .spread view, rfl, ?_, fun _ options levels level state hle ↦ ?_,
    fun _ _ ↦ rfl⟩
  · apply (Lower.bind_of_ok hview).trans
    rfl
  · apply (Emit.bind_of_ok (hwrites options levels level state (Nat.le_trans hinner hle))).trans
    rfl

theorem Lowers.unary (op : PrefixOp) (h : operand.Lowers) : (Term.unary op operand).Lowers := by
  refine .of_form ?_
  rintro _ runtime limit levels state ⟨range, part, rfl, hpart⟩ hbare hlevels
  have hinner : operand.signs.length + 1 ≤ (Term.unary op operand).signs.length := by simp [signs]
  obtain ⟨view, hview, hwrites, -⟩ := h hpart hbare (Nat.le_trans hinner hlevels)
  refine ⟨range, _, .unary op.text view true, rfl, ?_, fun _ options levels level state hle ↦ ?_,
    fun _ _ ↦ rfl⟩
  · apply (Lower.bind_of_ok hview).trans
    rfl
  · apply (Emit.bind_of_ok (hwrites options levels level state (Nat.le_trans hinner hle))).trans
    rfl

theorem Lowers.binary (op : InfixOp) (hleft : left.Lowers) (hright : right.Lowers) :
    (Term.binary op left right).Lowers := by
  refine .of_form ?_
  rintro _ runtime limit levels state ⟨range, first, second, rfl, hfirst, hsecond⟩ hbare hlevels
  have hlength : left.signs.length + right.signs.length + 1 ≤
      (Term.binary op left right).signs.length := by
    simp only [signs, List.length_append, List.length_cons]
    omega
  have hleftlevels : left.signs.length < levels := by omega
  have hrightlevels : right.signs.length < levels := by omega
  obtain ⟨view, hview, hwrites, -⟩ := hleft hfirst hbare hleftlevels
  obtain ⟨view', hview', hwrites', -⟩ := hright hsecond hbare hrightlevels
  refine ⟨range, _, .binary op.text view view', rfl, ?_, fun _ options levels level state hle ↦ ?_,
    fun _ _ ↦ rfl⟩
  · apply (Lower.bind_of_ok hview).trans
    apply (Lower.bind_of_ok hview').trans
    rfl
  · apply (Emit.bind_of_ok (hwrites options levels level state (by omega))).trans
    apply (Emit.bind_of_ok (hwrites' options levels level state (by omega))).trans
    rfl

theorem Lowers.conditional (htest : test.Lowers) (hconsequent : consequent.Lowers)
    (halternate : alternate.Lowers) : (Term.conditional test consequent alternate).Lowers := by
  refine .of_form ?_
  rintro _ runtime limit levels state
    ⟨range, first, second, third, rfl, hfirst, hsecond, hthird⟩ hbare hlevels
  have hlength : test.signs.length + consequent.signs.length + alternate.signs.length + 2 ≤
      (Term.conditional test consequent alternate).signs.length := by
    simp [signs]
    omega
  have htestlevels : test.signs.length < levels := by omega
  have hconsequentlevels : consequent.signs.length < levels := by omega
  have halternatelevels : alternate.signs.length < levels := by omega
  obtain ⟨v, hv, hw, -⟩ := htest hfirst hbare htestlevels
  obtain ⟨v', hv', hw', -⟩ := hconsequent hsecond hbare hconsequentlevels
  obtain ⟨v'', hv'', hw'', -⟩ := halternate hthird hbare halternatelevels
  refine ⟨range, _, .conditional v v' v'', rfl, ?_, fun _ options levels level state hle ↦ ?_,
    fun _ _ ↦ rfl⟩
  · apply (Lower.bind_of_ok hv).trans
    apply (Lower.bind_of_ok hv').trans
    apply (Lower.bind_of_ok hv'').trans
    rfl
  · apply (Emit.bind_of_ok (hw options levels level state (by omega))).trans
    apply (Emit.bind_of_ok (hw' options levels level state (by omega))).trans
    apply (Emit.bind_of_ok (hw'' options levels level state (by omega))).trans
    rfl

theorem Lowers.index (hreceiver : receiver.Lowers) (hkey : inner.Lowers) :
    (Term.index receiver inner).Lowers := by
  refine .of_form ?_
  rintro _ runtime limit levels state ⟨range, first, second, rfl, hfirst, hsecond⟩ hbare hlevels
  have hlength : receiver.signs.length + inner.signs.length + 2 ≤
      (Term.index receiver inner).signs.length := by
    simp [signs]
    omega
  have hreceiverlevels : receiver.signs.length < levels := by omega
  have hkeylevels : inner.signs.length < levels := by omega
  obtain ⟨view, hview, hwrites, -⟩ := hreceiver hfirst hbare hreceiverlevels
  obtain ⟨view', hview', hwrites', -⟩ := hkey hsecond hbare hkeylevels
  refine ⟨range, _, .member view (.computed view') false, rfl, ?_,
    fun _ options levels level state hle ↦ ?_,
    fun _ _ ↦ rfl⟩
  · have hmember : (lowering runtime limit levels).memberKey (.computed second) state =
        (.ok (.computed view'), state) := by
      apply (Lower.bind_of_ok hview').trans
      rfl
    apply (Lower.bind_of_ok hview).trans
    apply (Lower.bind_of_ok hmember).trans
    rfl
  · apply (Emit.bind_of_ok (hwrites options levels level state (by omega))).trans
    apply (Emit.bind_of_ok (hwrites' options levels level state (by omega))).trans
    rfl

theorem Lowers.member (key : Bytes) (hreceiver : receiver.Lowers) :
    (Term.member receiver key).Lowers := by
  refine .of_form ?_
  rintro _ runtime limit levels state ⟨range, part, rfl, hpart⟩ hbare hlevels
  have hlength : receiver.signs.length + 1 ≤ (Term.member receiver key).signs.length := by
    simp [signs]
  obtain ⟨view, hview, hwrites, -⟩ := hreceiver hpart hbare (Nat.le_trans hlength hlevels)
  refine ⟨range, _, .member view (.named key) false, rfl, ?_,
    fun _ options levels level state hle ↦ ?_,
    fun _ _ ↦ rfl⟩
  · apply (Lower.bind_of_ok hview).trans
    rfl
  · apply (Emit.bind_of_ok (hwrites options levels level state (Nat.le_trans hlength hle))).trans
    rfl

theorem Lowers.array (h : ∀ t ∈ items, t.Lowers) : (Term.array items).Lowers := by
  refine .of_form ?_
  rintro _ runtime limit levels state ⟨range, parts, rfl, hparts⟩ hbare hlevels
  have hlength : (listSigns items).length + 1 ≤ (Term.array items).signs.length := by simp [signs]
  obtain ⟨views, hviews, hall⟩ := lower_list h hparts hbare (Nat.le_trans hlength hlevels)
    (Nat.lt_succ_self _)
  refine ⟨range, _, .array views, rfl, ?_, fun _ options levels level state hle ↦ ?_,
    fun _ _ ↦ rfl⟩
  · apply (Lower.bind_of_ok hviews).trans
    rfl
  · have hlist := hall.expressionList_eq (Nat.le_trans hlength hle) options level state
    apply (Emit.bind_of_ok hlist).trans
    rw [hall.isOmitted_last]
    refine congrArg (fun text ↦ Except.ok (text, state)) ?_
    rw [text, ← join_text items, ← List.append_assoc]

theorem Lowers.call (hcallee : callee.Lowers) (h : ∀ t ∈ items, t.Lowers)
    (hholes : ∀ t ∈ items, t.isHole = false) : (Term.call callee items).Lowers := by
  refine .of_form ?_
  rintro _ runtime limit levels state ⟨range, part, parts, rfl, hpart, hparts⟩ hbare hlevels
  have hlength : callee.signs.length + (listSigns items).length + 2 ≤
      (Term.call callee items).signs.length := by
    simp [signs]
    omega
  have hcalleelevels : callee.signs.length < levels := by omega
  obtain ⟨view, hview, hwrites, -⟩ := hcallee hpart hbare hcalleelevels
  have hlistlevels : (listSigns items).length < levels := by omega
  obtain ⟨views, hviews, hall⟩ := lower_list h hparts hbare hlistlevels (Nat.lt_succ_self _)
  refine ⟨range, _, .call view [] views false, rfl, ?_, fun _ options levels level state hle ↦ ?_,
    fun _ _ ↦ rfl⟩
  · apply (Lower.bind_of_ok hview).trans
    apply (Lower.bind_of_ok hviews).trans
    rfl
  · apply (Emit.bind_of_ok (hwrites options levels level state (by omega))).trans
    apply (Emit.bind_of_ok (hall.expressionList_eq (by omega) options level state)).trans
    rw [join_items hholes]
    refine congrArg (fun text ↦ Except.ok (text, state)) ?_
    simp [text, Emission.when, Emission.typeArguments]

end Parts

theorem Fits.lowers {rank : Rank} {t : Term} (h : Fits rank t) (hplain : t.HasPlainNames) :
    t.Lowers := by
  induction h with
  | name _ => exact .name hplain.2
  | number raw isBigint => exact .number raw isBigint
  | string value => exact .string value
  | paren _ ih => exact (ih hplain).paren
  | array _ ih => exact .array fun t ht ↦ ih t ht (havePlainNames_iff.mp hplain t ht)
  | call _ hargs ih ihargs =>
    exact .call (ih hplain.1) (fun t ht ↦ ihargs t ht (havePlainNames_iff.mp hplain.2 t ht))
      fun t ht ↦ (hargs t ht).isHole nofun
  | index _ _ ih ihkey => exact (ih hplain.1).index (ihkey hplain.2)
  | member key _ ih => exact (ih hplain).member key
  | unary op _ ih => exact (ih hplain).unary op
  | @binary _ op _ _ _ _ _ ihleft ihright => exact (ihleft hplain.1).binary op (ihright hplain.2)
  | conditional _ _ _ ihtest ihconsequent ihalternate =>
    exact (ihtest hplain.1).conditional (ihconsequent hplain.2.1) (ihalternate hplain.2.2)
  | spread _ ih => exact (ih hplain).spread
  | ofOperand _ ih | ofUnary _ ih | ofBinary _ ih | ofAssignment _ ih | ofItem _ ih =>
    exact ih hplain
  | hole => exact .hole

/-! ## Programs of one term -/

/-- An action that says nothing but what goes to the log. -/
def OnlyLogs (action : Lower Unit) : Prop :=
  ∀ state, ∃ log, action state = (.ok (), { state with log := log })

theorem OnlyLogs.forM {α : Type} {f : α → Lower Unit} (h : ∀ a, OnlyLogs (f a)) (items : List α) :
    OnlyLogs (items.forM f) := by
  induction items with
  | nil => exact fun state ↦ ⟨state.log, rfl⟩
  | cons a items ih =>
    intro state
    obtain ⟨log, hlog⟩ := h a state
    obtain ⟨log', hlog'⟩ := ih { state with log := log }
    refine ⟨log', ?_⟩
    change (f a >>= fun _ ↦ items.forM f) state = _
    rw [Lower.bind_of_ok hlog, hlog']

theorem noteCallbacks_onlyLogs (node : Node) : OnlyLogs (Lowering.noteCallbacks node) := by
  refine OnlyLogs.forM (fun visit state ↦ ?_) _
  split
  · exact ⟨_, rfl⟩
  · exact ⟨state.log, rfl⟩

/-- The text of an expression as a statement, where parentheses may be put around it. -/
theorem guardStatement_eq (text : Bytes) : ∃ lead tail, Emission.guardStatement text =
    lead ++ text ++ tail ∧ ∀ b ∈ tail, b = byte ')' ∨ b = byte ';' := by
  unfold Emission.guardStatement
  dsimp only
  split
  · have htail : ∀ b ∈ [byte ')', byte ';'], b = byte ')' ∨ b = byte ';' := by simp
    exact ⟨bytes "(", [byte ')', byte ';'], rfl, htail⟩
  · have htail : ∀ b ∈ [byte ';'], b = byte ')' ∨ b = byte ';' := by simp
    exact ⟨[], [byte ';'], rfl, htail⟩

/-- The program whose only statement is a view. -/
def programOf (line column : Nat) (view : View) : ViewProgram where
  body := [.plain line column (.expressionStatement view)]

/-- A program of one term is lowered to one statement. -/
theorem Lowers.ofNode {t : Term} (h : t.Lowers) {node : Node} (hdepicts : t.Depicts node)
    (range range' : Range) {options : ViewProgram.Options}
    (hdepth : (t.signs.length + 2 : Int) ≤ options.maxDepth) :
    ∃ view state, ViewProgram.ofNode options
        (.surface range (.program [.plain range' (.expressionStatement node)])) =
        (.ok (programOf range'.start.line range'.start.column view), state) ∧
      view.Writes (t.signs.length + 1) t.text := by
  obtain ⟨levels, hlevels⟩ : ∃ l, options.maxDepth.toNat = l + 1 :=
    ⟨options.maxDepth.toNat - 1, by omega⟩
  obtain ⟨log, hlog⟩ := noteCallbacks_onlyLogs (.plain range' (.expressionStatement node)) {}
  have hbare : ({ log := log } : LoweringState).Bare := fun _ ↦ rfl
  have hdeep : t.signs.length < levels := by omega
  obtain ⟨view, hview, hwrites, -⟩ := h hdepicts hbare hdeep
  have hform : (lowering options.runtimeModule options.maxDepth levels).plainStatement
      (.plain range' (.expressionStatement node)) (.expressionStatement node) { log := log } =
      (.ok (.expressionStatement view), { log := log }) := by
    apply (Lower.bind_of_ok hview).trans
    rfl
  have hitem : (lowering options.runtimeModule options.maxDepth (levels + 1)).moduleItem
      (.plain range' (.expressionStatement node)) {} =
      (.ok (.plain range'.start.line range'.start.column (.expressionStatement view)),
        { log := log }) := by
    rw [Lowering.moduleItem, Lower.bind_of_ok hlog]
    change ((lowering _ _ levels).plainStatement _ _ >>=
      fun form ↦ pure (View.plain _ _ form)) _ = _
    rw [Lower.bind_of_ok hform]
    rfl
  have hitems : [Node.plain range' (.expressionStatement node)].mapM
      (lowering options.runtimeModule options.maxDepth (levels + 1)).moduleItem {} =
      (.ok [.plain range'.start.line range'.start.column (.expressionStatement view)],
        { log := log }) := by
    rw [List.mapM_cons, Lower.bind_of_ok hitem]
    rfl
  have hprogram : ∃ state, ViewProgram.ofItems options
      [.plain range' (.expressionStatement node)] {} =
      (.ok (programOf range'.start.line range'.start.column view), state) := by
    rw [ViewProgram.ofItems, hlevels, Lower.bind_of_ok hitems]
    exact ⟨_, rfl⟩
  obtain ⟨state, hstate⟩ := hprogram
  exact ⟨view, state, hstate, hwrites⟩

/-- A program of one view is written as the statement of its text. -/
theorem ofProgram_programOf {view : View} {least : Nat} {text : Bytes} (h : view.Writes least text)
    (line column : Nat) {options : ScriptOptions} (hdepth : (least + 1 : Int) ≤ options.maxDepth) :
    Script.ofProgram options (programOf line column view) =
      .ok ⟨Emission.guardStatement text ++ bytes "\n", {}⟩ := by
  obtain ⟨levels, hlevels⟩ : ∃ l, options.maxDepth.toNat = l + 1 :=
    ⟨options.maxDepth.toNat - 1, by omega⟩
  have hview := h options levels 0 {} (by omega)
  have hstatement : (emission options (levels + 1)).statement
      (.plain line column (.expressionStatement view)) 0 {} =
      .ok (Emission.guardStatement text, {}) := by
    change (emission options levels).plainStatement (.plain line column (.expressionStatement view))
      (.expressionStatement view) 0 {} = _
    apply (Emit.bind_of_ok hview).trans
    rfl
  have hline : Script.moduleStatement (emission options (levels + 1))
      (.plain line column (.expressionStatement view)) 0 {} =
      .ok (Emission.guardStatement text ++ bytes "\n", {}) := by
    rw [Script.moduleStatement]
    · rw [Emit.bind_of_ok hstatement]
      rfl
    · nofun
  have htext :
      Script.programText (emission options (levels + 1)) (programOf line column view) 0 {} =
      .ok (Emission.guardStatement text ++ bytes "\n", {}) := by
    have hbody : [View.plain line column (.expressionStatement view)].mapM
        (Script.moduleStatement (emission options (levels + 1))) 0 {} =
        .ok ([Emission.guardStatement text ++ bytes "\n"], {}) := by
      rw [List.mapM_cons, Emit.bind_of_ok hline]
      rfl
    change ([View.plain line column (.expressionStatement view)].mapM
      (Script.moduleStatement (emission options (levels + 1))) >>=
        fun texts ↦ pure texts.flatten) 0 {} = _
    rw [Emit.bind_of_ok hbody]
    simp [pure]
  rw [Script.ofProgram, hlevels, htext]
  rfl

end Term

end SignalView
