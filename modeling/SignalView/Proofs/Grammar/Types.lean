import SignalView.Proofs.Grammar.Tape

/-!
# Types on a tape

Every construct of a type moves on over the tokens, or fails. What is kept of a type is text, so
nothing has to be said about the values.
-/

namespace SignalView.Grammar

open Parse Tape

variable {tape : Tape} {o p level : Nat} {g : Grammar}

/-! ## Angle brackets -/

instance asks_atAngle : Asks tape p atAngle ([.typeOpen, .lt].any fun m ↦ tape.kind p == .mark m) :=
  Asks.atMarks _

instance asks_beforeAngle : Asks tape p beforeAngle
    (!([.typeClose, .gt].any fun m ↦ tape.kind p == .mark m) && !(tape.kind p == .eof)) :=
  Asks.bind

instance asks_atSignature : Asks tape p atSignature
    (tape.kind p == .mark .openParen || [.typeOpen, .lt].any fun m ↦ tape.kind p == .mark m) :=
  Asks.bind

instance asks_atTypeParameterModifier : Asks tape p atTypeParameterModifier
    ((tape.kind p == .word .const || tape.kind p == .word .in_ ||
      tape.kind p == .identifier && (tape.token p).value == bytes "out") &&
      (tape.kind (p + 1)).isName) :=
  Asks.bind

theorem openAngle_passes (what : String) : tape.Passes o p (openAngle what) fun _ ↦ True := by
  refine .test (fun hmarks _ _ ↦ ?_) (.fail (by simp))
  exact (Reads.advances (lt_size_of_marks hmarks)).mono fun _ _ _ _ h ↦ ⟨by omega, trivial⟩

theorem closeAngle_passes (what : String) : tape.Passes o p (closeAngle what) fun _ ↦ True := by
  refine .test (fun hmarks _ _ ↦ ?_) (.fail (by simp))
  exact (Reads.advances (lt_size_of_marks hmarks)).mono fun _ _ _ _ h ↦ ⟨by omega, trivial⟩

section Served

variable (h : tape.Serves g level)

include h

theorem typeArguments_passes (hlevel : 12 * (tape.size - p) ≤ level) :
    tape.Passes o p g.typeArguments fun _ ↦ True := by
  have hrounds := h.rounds
  refine (openAngle_passes _).bind fun _ q hq hsize _ ↦ ?_
  refine (Reads.commaList (K := fun _ ↦ True) ?_ (by omega)).bind fun args r hr _ _ ↦ ?_
  · intro r hr _ _ _
    exact h.type (by omega)
  · exact (closeAngle_passes _).bind fun _ s hs _ _ ↦ .pure ⟨by omega, trivial⟩

theorem angleArguments_skips (hlevel : 12 * (tape.size - p) ≤ level) :
    tape.Skips o p g.angleArguments fun _ ↦ True := by
  refine .textIf fun _ _ _ ↦ ?_
  exact (typeArguments_passes h hlevel).bind fun _ _ _ _ _ ↦ .pure trivial

omit h in
theorem typeParameterModifiers_skips (hrounds : tape.size - p < g.rounds) :
    tape.Skips o p (manyWhile g.rounds atTypeParameterModifier take) fun _ ↦ True := by
  refine (Reads.manyWhile (K := fun _ ↦ True) ?_ hrounds).mono fun _ _ _ _ _ ↦ trivial
  intro q _ _ _ hq
  have hlt : q + 1 < tape.size :=
    lt_size_of_holds (f := TokenKind.isName) (Bool.and_eq_true_iff.mp hq).2 rfl
  exact (Reads.takes (by omega)).mono fun _ _ _ _ h ↦ ⟨by omega, trivial⟩

theorem typeParameter_passes (hlevel : 12 * (tape.size - p) + 1 ≤ level) :
    tape.Passes o p g.typeParameter fun _ ↦ True := by
  have hrounds := h.rounds
  refine (typeParameterModifiers_skips (by omega)).bind fun _ q hq _ _ ↦ ?_
  refine Reads.expectName.bind fun _ r hr _ _ ↦ ?_
  have htype {s : Nat} (hs : r ≤ s) (lead : Bytes) :
      tape.Skips o s (do return lead ++ (← g.type)) fun _ ↦ True :=
    (h.type (by omega)).bind fun _ _ _ _ _ ↦ .pure trivial
  refine (Skips.textIf fun _ _ _ ↦ htype (by omega) _).bind fun _ s hs _ _ ↦ ?_
  refine (Skips.textIf fun _ _ _ ↦ htype (by omega) _).bind fun _ t ht _ _ ↦ ?_
  exact .pure ⟨by omega, trivial⟩

theorem typeParameters_passes (hlevel : 12 * (tape.size - p) ≤ level) :
    tape.Passes o p g.typeParameters fun _ ↦ True := by
  have hrounds := h.rounds
  refine (openAngle_passes _).bind fun _ q hq _ _ ↦ ?_
  refine (Reads.commaList (K := fun _ ↦ True) ?_ (by omega)).bind fun _ r hr _ _ ↦ ?_
  · intro r hr _ _ _
    exact typeParameter_passes h (by omega)
  · exact (closeAngle_passes _).bind fun _ s hs _ _ ↦ .pure ⟨by omega, trivial⟩

theorem optionalTypeParameters_skips (hlevel : 12 * (tape.size - p) ≤ level) :
    tape.Skips o p g.optionalTypeParameters fun _ ↦ True :=
  .textIf fun _ _ _ ↦ (typeParameters_passes h hlevel).skips

/-! ## Annotations -/

theorem annotation_skips (hlevel : 12 * (tape.size - p) ≤ level) :
    tape.Skips o p g.annotation fun _ ↦ True :=
  .textIf fun _ _ _ ↦ (h.type (by omega)).skips

theorem annotationText_skips (hlevel : 12 * (tape.size - p) ≤ level) :
    tape.Skips o p g.annotationText fun _ ↦ True :=
  (annotation_skips h hlevel).bind fun _ _ _ _ _ ↦ .pure trivial

/-! ## Members of object types -/

theorem bracketedKey_passes (hlevel : 12 * (tape.size - p) ≤ level) :
    tape.Passes o p g.bracketedKey fun _ ↦ True := by
  -- the name and the token behind it are there, because the end of input is neither
  have hkey {kind : TokenKind} [kind.Present]
      (hkey : ((tape.kind (p + 1)).isName && tape.kind (p + 2) == kind) = true)
      {next : Bytes → Parse Bytes}
      (hnext : p + 2 < tape.size → ∀ key, tape.Skips o (p + 3) (next key) fun _ ↦ True) :
      tape.Passes o p (do advance; let key ← take; advance; next key) fun _ ↦ True := by
    obtain ⟨-, hbehind⟩ := Bool.and_eq_true_iff.mp hkey
    have hlt : p + 2 < tape.size := lt_size_of_beq hbehind
    refine .advance (by omega) (.take (by omega) (.advance hlt ?_))
    exact (hnext hlt _).onward (by omega)
  refine .ask (.ask (.ite (fun hfound ↦ ?_) fun _ ↦ .ask (.ask (.ite (fun hfound ↦ ?_) ?_))))
  · refine hkey hfound fun hlt key ↦ ?_
    refine (h.type (by omega)).bind fun _ q hq _ _ ↦ ?_
    exact .expectMark fun _ ↦ .pure trivial
  · refine hkey hfound fun hlt key ↦ ?_
    refine (h.type (by omega)).bind fun _ q hq _ _ ↦ ?_
    refine (Skips.textIf fun _ _ _ ↦ ?_).bind fun _ r hr _ _ ↦ .expectMark fun _ ↦ .pure trivial
    exact (h.type (by omega)).bind fun _ _ _ _ _ ↦ .pure trivial
  · exact fun _ ↦ Reads.balanced

omit h in
theorem propertyNameText_passes : tape.Passes o p propertyNameText fun _ ↦ True := by
  refine .ask (.ite (fun hname ↦ ?_) fun _ ↦ .fail (by simp))
  exact .advance (lt_size_of_holds (f := TokenKind.isPropertyName) hname rfl)
    (.pure ⟨by omega, trivial⟩)

theorem parameterText_passes (hlevel : 12 * (tape.size - p) ≤ level) :
    tape.Passes o p g.parameterText fun _ ↦ True := by
  refine (Skips.textIf fun _ _ _ ↦ (typeParameters_passes h hlevel).skips).bind fun _ q hq _ _ ↦ ?_
  exact Reads.balanced.bind fun _ r hr _ _ ↦ .pure ⟨by omega, trivial⟩

omit h in
theorem readonlyText_skips : tape.Skips o p readonlyText fun _ ↦ True := by
  refine .ask (.ask (.ite (fun hfound ↦ ?_) fun _ ↦ .ask (.ask (.ite (fun hfound ↦ ?_) ?_))))
  · have hlt : p + 1 < tape.size := lt_size_of_beq (Bool.and_eq_true_iff.mp hfound).2
    exact .take (by omega) (.advance hlt (.pure trivial))
  · have hlt : p < tape.size := lt_size_of_beq (Bool.and_eq_true_iff.mp hfound).1
    exact .advance hlt (.pure trivial)
  · exact fun _ ↦ .pure trivial

omit h in
theorem optionalText_skips : tape.Skips o p optionalText fun _ ↦ True := by
  refine .ask (.ask (.ite (fun hfound ↦ ?_) fun _ ↦ .textIf (fun _ _ _ ↦ .pure trivial) trivial))
  have hlt : p + 1 < tape.size := lt_size_of_beq (Bool.and_eq_true_iff.mp hfound).2
  exact .take (by omega) (.advance hlt (.pure trivial))

theorem memberKeyText_passes (hlevel : 12 * (tape.size - p) ≤ level) :
    tape.Passes o p g.memberKeyText fun _ ↦ True := by
  refine .test (fun _ _ _ ↦ bracketedKey_passes h hlevel) ?_
  refine .ask (.ask (.ask (.ask ?_)))
  refine (Skips.textIf fun hfound _ _ ↦ ?_).bind fun _ q hq _ _ ↦ ?_
  · have hlt : p + 2 < tape.size := lt_size_of_beq (Bool.and_eq_true_iff.mp hfound).2
    exact .take (by omega) (.pure trivial)
  · exact propertyNameText_passes.bind fun _ r hr _ _ ↦ .pure ⟨by omega, trivial⟩

/-- The signature and the annotation that end a member. -/
theorem signatureText_passes (hlevel : 12 * (tape.size - p) ≤ level)
    {text : Bytes → Bytes → Bytes} : tape.Passes o p (do
      let params ← g.parameterText
      return text params (← g.annotationText)) fun _ ↦ True := by
  refine (parameterText_passes h hlevel).bind fun _ q hq _ _ ↦ ?_
  exact (annotationText_skips h (by omega)).bind fun _ r hr _ _ ↦ .pure ⟨by omega, trivial⟩

theorem typeMember_passes (hlevel : 12 * (tape.size - p) ≤ level) :
    tape.Passes o p g.typeMember fun _ ↦ True := by
  refine readonlyText_skips.bind fun _ q hq _ _ ↦ ?_
  refine .ask (.ask (.ask (.test (fun _ _ _ ↦ ?_) (.ite (fun hfound ↦ ?_) fun _ ↦ ?_))))
  · exact (signatureText_passes h (by omega)).onward hq
  · have hlt : q < tape.size := lt_size_of_beq (Bool.and_eq_true_iff.mp hfound).1
    exact .advance hlt ((signatureText_passes h (by omega)).onward (by omega))
  · refine (memberKeyText_passes h (by omega)).bind fun _ r hr _ _ ↦ ?_
    refine optionalText_skips.bind fun _ s hs _ _ ↦ ?_
    refine (Skips.textIf fun _ _ _ ↦ (parameterText_passes h (by omega)).skips).bind
      fun _ t ht _ _ ↦ ?_
    exact (annotationText_skips h (by omega)).bind fun _ u hu _ _ ↦ .pure ⟨by omega, trivial⟩

theorem typeMembers_skips (hlevel : 12 * (tape.size - p) + 1 ≤ level) :
    tape.Skips o p g.typeMembers fun _ ↦ True := by
  have hrounds := h.rounds
  refine (Reads.manyWhile (K := fun _ ↦ True) ?_ (by omega)).mono fun _ _ _ _ _ ↦ trivial
  intro q hq _ _ _
  refine (typeMember_passes h (by omega)).bind fun _ r hr _ _ ↦ .ask ?_
  refine .iteThen (P := fun s ↦ r ≤ s) (fun hmarks ↦ ?_) (fun _ ↦ Nat.le_refl r)
    fun s hs _ _ ↦ .pure ⟨by omega, trivial⟩
  exact (Reads.advances (lt_size_of_marks hmarks)).mono fun _ _ _ _ h ↦ by omega

theorem objectType_passes (hlevel : 12 * (tape.size - p) ≤ level) :
    tape.Passes o p g.objectType fun _ ↦ True := by
  refine .expectMark fun hlt ↦ ?_
  refine (typeMembers_skips h (by omega)).bind fun _ q hq _ _ ↦ ?_
  exact .expectMark fun _ ↦ .ite (fun _ ↦ .pure ⟨by omega, trivial⟩)
    fun _ ↦ .pure ⟨by omega, trivial⟩

/-! ## Tuples and templates -/

theorem tupleElement_passes (hlevel : 12 * (tape.size - p) + 3 ≤ level) :
    tape.Passes o p g.tupleElement fun _ ↦ True := by
  have hmark {q : Nat} : tape.Skips o q (textIf (acceptMark .question) (return bytes "?"))
      fun _ ↦ True := .textIf fun _ _ _ ↦ .pure trivial
  refine (Skips.textIf fun _ _ _ ↦ .pure trivial).bind fun _ q hq _ _ ↦ ?_
  refine .ask (.ask (.ask (.ask ?_)))
  refine (Skips.textIf fun hlabel _ _ ↦ ?_).bind fun _ r hr _ _ ↦ ?_
  · have hlt : q < tape.size :=
      lt_size_of_holds (f := TokenKind.isName) (Bool.and_eq_true_iff.mp hlabel).1 rfl
    refine .take hlt (hmark.bind fun _ _ _ _ _ ↦ ?_)
    exact Reads.advance_skips.bind fun _ _ _ _ _ ↦ .pure trivial
  · refine (h.type (by omega)).bind fun _ s hs _ _ ↦ ?_
    exact hmark.bind fun _ t ht _ _ ↦ .pure ⟨by omega, trivial⟩

theorem tupleType_passes (hlevel : 12 * (tape.size - p) ≤ level) :
    tape.Passes o p g.tupleType fun _ ↦ True := by
  have hrounds := h.rounds
  refine .expectMark fun hlt ↦ ?_
  refine (Reads.commaList (K := fun _ ↦ True) ?_ (by omega)).bind fun _ q hq _ _ ↦ ?_
  · intro q hq _ _ _
    exact tupleElement_passes h (by omega)
  · exact .expectMark fun _ ↦ .pure ⟨by omega, trivial⟩

theorem templateType_passes (hlevel : 12 * (tape.size - p) + 3 ≤ level) (head : Bytes) :
    tape.Passes o p (g.templateType head) fun _ ↦ True := by
  have hrounds := h.rounds
  refine .iterate (P := fun _ _ ↦ True) (fun text q hq _ _ ↦ ?_) (by omega) trivial
  refine (h.type (by omega)).bind fun _ r hr _ _ ↦ .ask ?_
  refine .test (fun _ _ _ ↦ .pure (.more (by omega) trivial)) ?_
  exact .expect fun _ _ ↦ .pure (.last ⟨by omega, trivial⟩)

/-! ## Operands -/

theorem arrowType_passes (hlevel : 12 * (tape.size - p) ≤ level) (message : String)
    (params : Bytes) : tape.Passes o p (g.arrowType message params) fun _ ↦ True := by
  refine .expectMark fun hlt ↦ ?_
  exact (h.type (by omega)).bind fun _ q hq _ _ ↦ .pure ⟨by omega, trivial⟩

theorem parenthesizedType_passes (hlt : p < tape.size) (hlevel : 12 * (tape.size - p) ≤ level) :
    tape.Passes o p g.parenthesizedType fun _ ↦ True := by
  refine .ask (.ite (fun _ ↦ ?_) fun _ ↦ ?_)
  · refine Reads.balanced.bind fun _ q hq _ _ ↦ ?_
    exact (arrowType_passes h (by omega) _ _).onward (by omega)
  · refine .advance hlt ?_
    refine (h.type (by omega)).bind fun _ q hq _ _ ↦ ?_
    exact .expectMark fun _ ↦ .pure ⟨by omega, trivial⟩

theorem constructorType_passes (hlevel : 12 * (tape.size - p) ≤ level) :
    tape.Passes o p g.constructorType fun _ ↦ True := by
  refine Reads.advance_skips.bind fun _ q hq _ _ ↦ ?_
  refine (optionalTypeParameters_skips h (by omega)).bind fun _ r hr _ _ ↦ ?_
  refine Reads.balanced.bind fun _ s hs _ _ ↦ ?_
  exact (arrowType_passes h (by omega) _ _).bind fun _ t ht _ _ ↦ .pure ⟨by omega, trivial⟩

theorem predicateOr_skips (hlevel : 12 * (tape.size - p) ≤ level) {subject : Bytes}
    {otherwise : Parse Bytes} (hother : tape.Skips o p otherwise fun _ ↦ True) :
    tape.Skips o p (g.predicateOr subject otherwise) fun _ ↦ True := by
  refine .ask (.ask (.ite (fun hfound ↦ ?_) fun _ ↦ hother))
  obtain ⟨hspelling, -⟩ := Bool.and_eq_true_iff.mp hfound
  have hlt : p < tape.size := lt_size_of_beq (Bool.and_eq_true_iff.mp hspelling).1
  exact .advance hlt ((h.type (by omega)).bind fun _ _ _ _ _ ↦ .pure trivial)

theorem typeQuery_passes (hlt : p < tape.size) (hlevel : 12 * (tape.size - p) ≤ level) :
    tape.Passes o p g.typeQuery fun _ ↦ True := by
  have hrounds := h.rounds
  -- what is behind the name, whichever name it is
  have hbehind {q : Nat} (hq : p < q) (name : Bytes) : tape.Skips o q (do
      let path ← dottedNames g.rounds
        (expectMemberName "PSR-P004" "Expected name after '.' in type query")
      return bytes "typeof " ++ name ++ path ++ (← g.angleArguments)) fun _ ↦ True := by
    refine (Reads.dottedMemberNames (by simp) (by omega)).bind fun _ r hr _ _ ↦ ?_
    exact (angleArguments_skips h (by omega)).bind fun _ _ _ _ _ ↦ .pure trivial
  refine .advance hlt (.test (fun _ _ _ ↦ ?_) ?_)
  · refine Reads.balanced.bind fun _ q hq _ _ ↦ ?_
    exact Reads.ask ((hbehind (by omega) _).onward (by omega))
  · exact Reads.expectName.bind fun _ q hq _ _ ↦ (hbehind (by omega) _).onward (by omega)

theorem importType_passes (hlt : p < tape.size) (hlevel : 12 * (tape.size - p) ≤ level) :
    tape.Passes o p g.importType fun _ ↦ True := by
  have hrounds := h.rounds
  refine .advance hlt (Reads.balanced.bind fun _ q hq _ _ ↦ ?_)
  refine (Reads.dottedNames ?_ (by omega)).bind fun _ r hr _ _ ↦ ?_
  · exact fun _ _ _ ↦ Reads.expectName.skips
  · exact (angleArguments_skips h (by omega)).bind fun _ s hs _ _ ↦ .pure ⟨by omega, trivial⟩

theorem typeReference_passes (hlevel : 12 * (tape.size - p) ≤ level) :
    tape.Passes o p g.typeReference fun _ ↦ True := by
  have hrounds := h.rounds
  refine .test (fun hname _ _ ↦ ?_) (.failThen (by simp))
  have hlt : p < tape.size := lt_size_of_holds (f := TokenKind.isName) hname rfl
  refine .ask (.ask (.ask (.ite (fun hasserts ↦ ?_) fun _ ↦ .take hlt ?_)))
  · have hlt' : p + 1 < tape.size := lt_size_of_holds (f := TokenKind.isName)
      (Bool.and_eq_true_iff.mp (Bool.and_eq_true_iff.mp hasserts).1).2 rfl
    refine .advance hlt (.take hlt' ?_)
    exact (predicateOr_skips h (by omega) (.pure trivial)).onward (by omega)
  · refine (predicateOr_skips h (by omega) ?_).onward (by omega)
    refine (Reads.dottedMemberNames (by simp) (by omega)).bind fun _ r hr _ _ ↦ ?_
    exact (angleArguments_skips h (by omega)).bind fun _ _ _ _ _ ↦ .pure trivial

theorem primaryType_passes (hlevel : 12 * (tape.size - p) ≤ level) :
    tape.Passes o p g.primaryType fun _ ↦ True := by
  have hgeneric (message : String) : tape.Passes o p (do
      let typeParameters ← g.typeParameters
      let params ← balanced
      g.arrowType message (typeParameters ++ params)) fun _ ↦ True := by
    refine (typeParameters_passes h hlevel).bind fun _ q hq _ _ ↦ ?_
    refine Reads.balanced.bind fun _ r hr _ _ ↦ ?_
    exact (arrowType_passes h (by omega) _ _).onward (by omega)
  have htake (hlt : p < tape.size) : tape.Passes o p take fun _ ↦ True :=
    (Reads.takes hlt).mono fun _ _ _ _ h ↦ ⟨by omega, trivial⟩
  refine .ask ?_
  split
  · next hkind => exact parenthesizedType_passes h (lt_size_of_kind hkind) hlevel
  · exact hgeneric _
  · exact hgeneric _
  · exact constructorType_passes h hlevel
  · next hkind =>
    refine .test (fun _ _ _ ↦ .advance (lt_size_of_kind hkind) ?_) (typeReference_passes h hlevel)
    exact (constructorType_passes h (by omega)).bind fun _ q hq _ _ ↦ .pure ⟨by omega, trivial⟩
  · exact objectType_passes h hlevel
  · exact tupleType_passes h hlevel
  · next hkind => exact .advance (lt_size_of_kind hkind) (.pure ⟨by omega, trivial⟩)
  · next hkind => exact htake (lt_size_of_kind hkind)
  · next hkind => exact htake (lt_size_of_kind hkind)
  · next hkind => exact htake (lt_size_of_kind hkind)
  · next hkind => exact htake (lt_size_of_kind hkind)
  · next hkind => exact htake (lt_size_of_kind hkind)
  · next hkind => exact htake (lt_size_of_kind hkind)
  · next hkind => exact htake (lt_size_of_kind hkind)
  · next hkind =>
    have hlt : p < tape.size := lt_size_of_kind hkind
    exact .advance hlt ((predicateOr_skips h (by omega) (.pure trivial)).onward (by omega))
  · next hkind =>
    exact .advance (lt_size_of_kind hkind) (.expect fun _ _ ↦ .pure ⟨by omega, trivial⟩)
  · next hkind => exact .advance (lt_size_of_kind hkind) (.pure ⟨by omega, trivial⟩)
  · next hkind =>
    have hlt : p < tape.size := lt_size_of_kind hkind
    exact .advance hlt ((templateType_passes h (by omega) _).onward (by omega))
  · next hkind => exact typeQuery_passes h (lt_size_of_kind hkind) hlevel
  · next hkind => exact importType_passes h (lt_size_of_kind hkind) hlevel
  · exact typeReference_passes h hlevel

/-! ## Operators -/

theorem suffixedType_passes (hlevel : 12 * (tape.size - p) + 1 ≤ level) :
    tape.Passes o p g.suffixedType fun _ ↦ True := by
  have hrounds := h.rounds
  refine (primaryType_passes h (by omega)).bind fun _ q hq _ _ ↦ ?_
  refine .iterate (P := fun _ r ↦ q ≤ r) (fun text r _ _ hr ↦ ?_) (by omega) (Nat.le_refl q)
  refine .ask (.ask (.ite (fun hfound ↦ ?_) fun _ ↦ .pure (.last ⟨by omega, trivial⟩)))
  have hlt : r < tape.size := lt_size_of_beq (Bool.and_eq_true_iff.mp hfound).1
  refine .advance hlt (.test (fun _ _ _ ↦ .pure (.more (by omega) (by omega))) ?_)
  refine (h.type (by omega)).bind fun _ s hs _ _ ↦ ?_
  exact .expectMark fun _ ↦ .pure (.more (by omega) (by omega))

theorem inferredBound_skips (hlevel : 12 * (tape.size - p) ≤ level) :
    tape.Skips o p g.inferredBound fun _ ↦ True := by
  refine .ask (.ask (.ite (fun hfound ↦ .ask ?_) fun _ ↦ .pure trivial))
  have hlt : p < tape.size := lt_size_of_beq (Bool.and_eq_true_iff.mp hfound).1
  refine .orResume ?_ trivial fun _ _ _ ↦ trivial
  exact .advance hlt (suffixedType_passes h (by omega)).skips

theorem typeOperatorStep_passes (hlevel : 12 * (tape.size - p) + 1 ≤ level) :
    tape.Passes o p g.typeOperatorStep fun _ ↦ True := by
  refine .ask (.ask (.ask (.ask (.ite (fun hfound ↦ ?_) fun _ ↦ suffixedType_passes h hlevel))))
  have hlt : p < tape.size := by
    refine lt_size_of_kind_ne fun hend ↦ ?_
    simp [hend] at hfound
  refine .take hlt ?_
  refine (h.typeOperator (by omega)).bind fun _ q hq _ _ ↦ ?_
  refine (Skips.textIf fun _ _ _ ↦ inferredBound_skips h (by omega)).bind fun _ r hr _ _ ↦ ?_
  exact .pure ⟨by omega, trivial⟩

omit h in
theorem joinedTypes_passes {m : Mark} {operand : Parse Bytes}
    (hoperand : ∀ q, p ≤ q → q ≤ tape.size → tape.Passes o q operand fun _ ↦ True)
    (hrounds : tape.size - p < g.rounds) :
    tape.Passes o p (g.joinedTypes m operand) fun _ ↦ True := by
  refine Reads.condition.discard.bind fun _ q hq _ _ ↦ ?_
  refine (Reads.separated (fun r hr ↦ hoperand r (by omega)) (by omega)).bind fun _ r hr _ _ ↦ ?_
  exact .pure ⟨by omega, trivial⟩

theorem unionType_passes (hlevel : 12 * (tape.size - p) + 2 ≤ level) :
    tape.Passes o p g.unionType fun _ ↦ True := by
  have hrounds := h.rounds
  refine joinedTypes_passes (fun q hq _ ↦ ?_) (by omega)
  refine joinedTypes_passes (fun r hr _ ↦ ?_) (by omega)
  exact h.typeOperator (by omega)

theorem typeStep_passes (hlevel : 12 * (tape.size - p) + 2 ≤ level) :
    tape.Passes o p g.typeStep fun _ ↦ True := by
  refine .nested ?_
  refine (unionType_passes h hlevel).bind fun _ q hq _ _ ↦ ?_
  refine .ask (.ask (.ite (fun hfound ↦ ?_) fun _ ↦ .pure ⟨by omega, trivial⟩))
  have hlt : q < tape.size := lt_size_of_beq (Bool.and_eq_true_iff.mp hfound).1
  refine .advance hlt ((unionType_passes h (by omega)).bind fun _ r hr _ _ ↦ ?_)
  refine .expectMark fun _ ↦ (h.type (by omega)).bind fun _ s hs _ _ ↦ ?_
  refine .expectMark fun _ ↦ (h.type (by omega)).bind fun _ t ht _ _ ↦ ?_
  exact .pure ⟨by omega, trivial⟩

end Served

end SignalView.Grammar
