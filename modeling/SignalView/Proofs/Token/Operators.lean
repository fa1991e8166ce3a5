import SignalView.Proofs.Token.Cut
import SignalView.Proofs.Token.Tolerance

/-!
# Names with operators between them

Names with operators between them are cut into these names and operators, with one exception: a `<`
behind a name opens type arguments when the search for the `>` that closes them succeeds. The search
goes from byte to byte and knows no operators, so which operators make it succeed takes some
counting: an operator may hold more than one `>`, and one that goes on behind the `>` that was
looked for looks like something that can follow type arguments.
-/

namespace SignalView

/-! ## What operators mean to the search -/

namespace Mark

/-- The binary operators that are no words. -/
def isBinary (m : Mark) : Bool :=
  [or, and, nullish, pipe, caret, ampersand, eq, neq, strictEq, strictNeq, lt, gt, le, ge, shl, shr,
    ushr, plus, minus, star, slash, percent, power].contains m

/-- How many brackets the search takes an operator to open. -/
def opened : Mark → Nat
  | .lt | .le => 1
  | .shl => 2
  | _ => 0

/-- How many brackets the search takes an operator to close. -/
def closed : Mark → Nat
  | .gt | .ge => 1
  | .shr => 2
  | .ushr => 3
  | _ => 0

/-- The operators that may stand between type arguments. -/
def isPassed (m : Mark) : Bool :=
  [lt, le, shl, gt, ge, shr, ushr, ampersand, pipe, minus, nullish].contains m

end Mark

namespace Chain

/-- A name behind type arguments that starts like one of the two words that may follow them. -/
def startsHeritage (name : Bytes) : Bool :=
  (bytes "extends").isPrefixOf name || (bytes "implements").isPrefixOf name

/-- Whether the search succeeds in front of a name and the links behind it, when `left` bytes of the
window remain and a number of brackets are open. -/
def closes (left depth : Nat) (name : Bytes) : List (Mark × Bytes) → Bool
  | [] => false
  | (m, next) :: rest =>
    let left := left - (name.length + 2)
    name.all Byte.isIdentifierPart &&
      if depth ≤ m.closed then
        decide (depth ≤ left) &&
          (decide (depth < m.closed) || decide (m = .ge) || startsHeritage next)
      else
        m.isPassed && closes (left - (bytes m.text).length) (depth + m.opened - m.closed) next rest

/-- Whether the search succeeds for an operator, behind a name and in front of another. -/
def isMistaken (m : Mark) (name : Bytes) (rest : List (Mark × Bytes)) : Bool :=
  m.opened != 0 && closes (Angle.window - (bytes m.text).length) m.opened name rest

/-- Whether some operator is taken for the start of type arguments. -/
def hasMistaken : List (Mark × Bytes) → Bool
  | [] => false
  | (m, name) :: rest => isMistaken m name rest || hasMistaken rest

/-- Operators, each with the name behind it and single blanks around it. -/
def text (links : List (Mark × Bytes)) : Bytes :=
  links.flatMap fun link ↦ 32 :: (bytes link.1.text ++ 32 :: link.2)

def signs (links : List (Mark × Bytes)) : List Sign :=
  links.flatMap fun link ↦ [link.1.sign, ⟨.identifier, link.2⟩]

theorem text_cons (m : Mark) (name : Bytes) (rest : List (Mark × Bytes)) :
    text ((m, name) :: rest) = 32 :: (bytes m.text ++ 32 :: (name ++ text rest)) := by
  simp [text]

end Chain

/-! ## The search -/

namespace Angle

variable {left depth : Nat} {last : UInt8} {nesting : Nesting} {rest : Bytes}

theorem closes_zero (skip : Nat) (last : UInt8) (nesting : Nesting) (rest : Bytes) :
    closes 0 skip last nesting rest = false := by
  cases rest <;> rfl

/-- The bytes of a chain that change nothing. -/
def isPlain (b : UInt8) : Bool :=
  Byte.isIdentifierPart b || b == 32 || b == byte '?' || b == byte '-'

theorem of_isPlain (b : UInt8) : isPlain b = true →
    (b == byte '<') = false ∧ (b == byte '>') = false ∧ (b == byte '(') = false ∧
      (b == byte ')') = false ∧ (b == byte '[') = false ∧ (b == byte ']') = false ∧
      (b == Quoted.openBrace) = false ∧ (b == Quoted.closeBrace) = false ∧
      (b == byte ';') = false ∧ (b == byte '&' || b == byte '|') = false ∧
      (b == byte '=') = false ∧
      (b == Quoted.doubleQuote || b == Quoted.singleQuote || b == Quoted.backtick) = false ∧
      isNeutral b = true := by
  revert b
  exact Literal.forall_byte (by decide +kernel)

theorem closes_plain {b : UInt8} (h : isPlain b = true) :
    closes left 0 last nesting (b :: rest) = closes (left - 1) 0 b nesting rest := by
  cases left with
  | zero => exact (closes_zero 0 b nesting rest).symm
  | succ left =>
    obtain ⟨hlt, hgt, hparen, hparen', hbracket, hbracket', hbrace, hbrace', hsemicolon, hpair,
      hassign, hquote, hneutral⟩ := of_isPlain b h
    rw [closes]
    simp only [hlt, hgt, hparen, hparen', hbracket, hbracket', hbrace, hbrace', hsemicolon, hpair,
      hassign, hquote, hneutral, Bool.false_eq_true, if_false, Bool.true_and]
    rfl

theorem closes_blank :
    closes left 0 last nesting (32 :: rest) = closes (left - 1) 0 32 nesting rest :=
  closes_plain rfl

theorem closes_open : closes left 0 last nesting (byte '<' :: rest) =
    closes (left - 1) 0 (byte '<') { nesting with angle := nesting.angle + 1 } rest := by
  cases left with
  | zero => exact (closes_zero _ _ _ rest).symm
  | succ left => rfl

theorem closes_close (hlast : last ≠ byte '=') : closes left 0 last nesting (byte '>' :: rest) =
    if nesting.angle ≤ 1 then decide (1 ≤ left) && canFollow rest
    else closes (left - 1) 0 (byte '>') { nesting with angle := nesting.angle - 1 } rest := by
  cases left with
  | zero =>
    rw [closes_zero, closes_zero]
    simp
  | succ left =>
    have hlast : (last == byte '=') = false := beq_false_of_ne hlast
    have hlt : (byte '>' == byte '<') = false := rfl
    rw [closes]
    simp only [hlast, hlt, BEq.rfl, Bool.false_eq_true, if_false, if_true, Nat.le_add_left,
      decide_true, Bool.true_and, Nat.add_sub_cancel]

/-- Behind a single bar, ampersand or equals sign the search goes on. -/
theorem closes_single {b : UInt8} (hb : b = byte '&' ∨ b = byte '|' ∨ b = byte '=') :
    closes left 0 last nesting (b :: 32 :: rest) = closes (left - 1) 0 b nesting (32 :: rest) := by
  cases left with
  | zero => rfl
  | succ left => rcases hb with rfl | rfl | rfl <;> rfl

/-- Of two of them the search ends, and at the other bytes that no type arguments have. -/
theorem closes_double {b : UInt8} (hb : b = byte '&' ∨ b = byte '|' ∨ b = byte '=') :
    closes left 0 last nesting (b :: b :: rest) = false := by
  cases left with
  | zero => rfl
  | succ left => rcases hb with rfl | rfl | rfl <;> rfl

theorem closes_foreign {b : UInt8}
    (hb : b ∈ [byte '+', byte '*', byte '/', byte '%', byte '^', byte '!', byte '#',
      Quoted.backslash]) : closes left 0 last nesting (b :: rest) = false := by
  cases left with
  | zero => rfl
  | succ left =>
    simp only [List.mem_cons, List.not_mem_nil, or_false] at hb
    rcases hb with rfl | rfl | rfl | rfl | rfl | rfl | rfl | rfl <;> rfl

/-! ### Names -/

/-- A name is passed over when all of it is spelled out. -/
theorem closes_nameBody {name : Bytes} (h : Literal.NameBody name) (left : Nat) (last : UInt8)
    (rest : Bytes) : ∃ last', closes left 0 last nesting (name ++ rest) =
      (name.all Byte.isIdentifierPart && closes (left - name.length) 0 last' nesting rest) := by
  induction h generalizing left last with
  | nil => exact ⟨last, rfl⟩
  | @part b name hb _ ih =>
    obtain ⟨last', ih⟩ := ih (left - 1) b
    have hplain : isPlain b = true := by simp [isPlain, hb]
    refine ⟨last', ?_⟩
    rw [List.cons_append, closes_plain hplain, ih, List.all_cons, hb, List.length_cons,
      Nat.sub_sub, Nat.add_comm 1, Bool.true_and]
  | escape _ _ => exact ⟨last, by rw [List.cons_append, closes_foreign (by simp)]; rfl⟩
  | brace _ _ => exact ⟨last, by rw [List.cons_append, closes_foreign (by simp)]; rfl⟩

theorem closes_name {name : Bytes} (h : Literal.IsName name) (nesting : Nesting) (left : Nat)
    (last : UInt8) (rest : Bytes) : ∃ last', closes left 0 last nesting (name ++ rest) =
      (name.all Byte.isIdentifierPart && closes (left - name.length) 0 last' nesting rest) := by
  have hbody := h.body
  by_cases hhash : name.head? = some (byte '#')
  · obtain ⟨name, rfl⟩ := List.head?_eq_some_iff.mp hhash
    exact ⟨last, by rw [List.cons_append, closes_foreign (by simp)]; rfl⟩
  · have hlead : Literal.nameLead name = 0 := by simp [Literal.nameLead, hhash]
    rw [hlead, List.drop_zero] at hbody
    exact closes_nameBody hbody left last rest

/-! ### Operators -/

open Chain

theorem head?_text_ne {b : UInt8} (hb : b ≠ 32) (links : List (Mark × Bytes)) :
    (text links).head? ≠ some b := by
  cases links with
  | nil => nofun
  | cons link rest =>
    rw [text_cons]
    intro h
    exact hb (Option.some.inj h).symm

theorem isPrefixOf_name {word : Bytes} (hword : 32 ∉ word) (name : Bytes)
    (links : List (Mark × Bytes)) :
    word.isPrefixOf (name ++ text links) = word.isPrefixOf name := by
  apply Lexes.isPrefixOf_append
  intro b more hmore
  apply head?_text_ne
  rintro rfl
  exact hword (by simp [hmore])

theorem of_opensName (b : UInt8) : Literal.opensName b = true →
    Byte.isBlank b = false ∧ (bytes "\n\r(),;\x7b\x7d[].|&:>`").contains b = false ∧
      (b == byte '=') = false := by
  revert b
  exact Literal.forall_byte (by decide +kernel)

theorem canFollow_name {name : Bytes} (h : Literal.IsName name) (links : List (Mark × Bytes)) :
    canFollow (32 :: (name ++ text links)) = startsHeritage name := by
  obtain ⟨b, more, rfl⟩ := List.exists_cons_of_ne_nil (Literal.ne_nil_of_startsName h.starts)
  obtain ⟨hblank, hcontains, hassign⟩ := of_opensName b (Literal.opensName_of_startsName h.starts)
  have hspace : Byte.isBlank 32 = true := rfl
  have hdrop : (32 :: (b :: more ++ text links)).dropWhile Byte.isBlank =
      b :: more ++ text links := by
    simp [hspace, hblank]
  unfold canFollow
  rw [hdrop, startsHeritage, ← isPrefixOf_name (by decide) (b :: more) links,
    ← isPrefixOf_name (by decide) (b :: more) links]
  simp only [List.cons_append, hcontains, hassign, Bool.false_and, Bool.false_or]

/-- The byte that an operator ends with. -/
def lastOf (m : Mark) : UInt8 := (bytes m.text).getLast?.getD 0

/-- What the search makes of an operator that closes no brackets. -/
theorem closes_passing {m : Mark} (hm : m.isBinary = true) (hclosed : m.closed = 0) (rest : Bytes) :
    closes left 0 last { angle := depth } (bytes m.text ++ 32 :: rest) =
      (m.isPassed && closes (left - (bytes m.text).length) 0 (lastOf m)
        { angle := depth + m.opened } (32 :: rest)) := by
  cases m
  case lt => exact closes_open
  case le =>
    change closes left 0 last _ (byte '<' :: byte '=' :: 32 :: rest) = _
    rw [closes_open, closes_single (by decide)]
    rfl
  case shl =>
    change closes left 0 last _ (byte '<' :: byte '<' :: 32 :: rest) = _
    rw [closes_open, closes_open]
    rfl
  case nullish =>
    change closes left 0 last _ (byte '?' :: byte '?' :: 32 :: rest) = _
    rw [closes_plain rfl, closes_plain rfl]
    rfl
  case ampersand | pipe => exact closes_single (by decide)
  case minus => exact closes_plain rfl
  case and | or | eq | strictEq => exact closes_double (by decide)
  case caret | neq | strictNeq | plus | star | slash | percent | power =>
    exact closes_foreign (by decide)
  case gt | ge | shr | ushr => cases hclosed
  all_goals cases hm

/-- What the search makes of an operator that closes some of the open brackets. -/
theorem closes_closing {m : Mark} (hclosed : m.closed ≠ 0) (hdepth : m.closed < depth)
    (rest : Bytes) : closes left 0 32 { angle := depth } (bytes m.text ++ 32 :: rest) =
      closes (left - (bytes m.text).length) 0 (lastOf m) { angle := depth - m.closed }
        (32 :: rest) := by
  cases m
  case gt =>
    have hdepth : 1 < depth := hdepth
    change closes left 0 32 _ (byte '>' :: 32 :: rest) = _
    rw [closes_close (by decide), if_neg (by simpa using hdepth)]
    rfl
  case ge =>
    have hdepth : 1 < depth := hdepth
    change closes left 0 32 _ (byte '>' :: byte '=' :: 32 :: rest) = _
    rw [closes_close (by decide), if_neg (by simpa using hdepth), closes_single (by decide)]
    rfl
  case shr =>
    have hdepth : 2 < depth := hdepth
    change closes left 0 32 _ (byte '>' :: byte '>' :: 32 :: rest) = _
    rw [closes_close (by decide), if_neg (by dsimp only; omega), closes_close (by decide),
      if_neg (by dsimp only; omega)]
    rfl
  case ushr =>
    have hdepth : 3 < depth := hdepth
    change closes left 0 32 _ (byte '>' :: byte '>' :: byte '>' :: 32 :: rest) = _
    rw [closes_close (by decide), if_neg (by dsimp only; omega), closes_close (by decide),
      if_neg (by dsimp only; omega), closes_close (by decide), if_neg (by dsimp only; omega)]
    rfl
  all_goals exact absurd rfl hclosed

/-- What the search makes of an operator that closes all of the open brackets: behind the last of
them, a part of the operator or a name follows. -/
theorem closes_closing_all {m : Mark} (hpos : 0 < depth) (hdepth : depth ≤ m.closed)
    (rest : Bytes) : closes left 0 32 { angle := depth } (bytes m.text ++ 32 :: rest) =
      (decide (depth ≤ left) &&
        (decide (depth < m.closed) || decide (m = .ge) || canFollow (32 :: rest))) := by
  have hgt (rest : Bytes) : canFollow (byte '>' :: rest) = true := rfl
  have hassign : canFollow (byte '=' :: 32 :: rest) = true := rfl
  have hsecond : (1 ≤ left - 1) = (2 ≤ left) := propext (by omega)
  have hthird : (1 ≤ left - 1 - 1) = (3 ≤ left) := propext (by omega)
  cases m
  case gt =>
    obtain rfl : depth = 1 := Nat.le_antisymm hdepth hpos
    change closes left 0 32 _ (byte '>' :: 32 :: rest) = _
    rw [closes_close (by decide)]
    simp [Mark.closed]
  case ge =>
    obtain rfl : depth = 1 := Nat.le_antisymm hdepth hpos
    change closes left 0 32 _ (byte '>' :: byte '=' :: 32 :: rest) = _
    rw [closes_close (by decide), hassign]
    simp [Mark.closed]
  case shr =>
    have hdepth : depth ≤ 2 := hdepth
    change closes left 0 32 _ (byte '>' :: byte '>' :: 32 :: rest) = _
    rw [closes_close (by decide), closes_close (by decide), hgt]
    obtain rfl | rfl : depth = 1 ∨ depth = 2 := by omega
    · simp [Mark.closed]
    · simp [Mark.closed, hsecond]
  case ushr =>
    have hdepth : depth ≤ 3 := hdepth
    change closes left 0 32 _ (byte '>' :: byte '>' :: byte '>' :: 32 :: rest) = _
    rw [closes_close (by decide), closes_close (by decide), closes_close (by decide), hgt, hgt]
    obtain rfl | rfl | rfl : depth = 1 ∨ depth = 2 ∨ depth = 3 := by omega
    · simp [Mark.closed]
    · simp [Mark.closed, hsecond]
    · simp [Mark.closed, hthird]
  all_goals exact absurd (Nat.lt_of_lt_of_le hpos hdepth) (Nat.lt_irrefl 0)

/-- The search through a chain counts the brackets of its operators. -/
theorem closes_chain {name : Bytes} {links : List (Mark × Bytes)} (hname : Literal.IsName name)
    (hlinks : ∀ link ∈ links, link.1.isBinary = true ∧ Literal.IsName link.2) (hpos : 0 < depth)
    (left : Nat) (last : UInt8) :
    closes left 0 last { angle := depth } (32 :: (name ++ text links)) =
      Chain.closes left depth name links := by
  induction links generalizing name depth left last with
  | nil =>
    obtain ⟨last', hpassed⟩ := closes_name hname { angle := depth } (left - 1) 32 []
    rw [closes_blank, text, List.flatMap_nil, hpassed]
    simp [closes, Chain.closes]
  | cons link rest ih =>
    obtain ⟨m, next⟩ := link
    obtain ⟨⟨hm, hnext⟩, hrest⟩ := List.forall_mem_cons.mp hlinks
    obtain ⟨last', hpassed⟩ := closes_name hname { angle := depth } (left - 1) 32
      (text ((m, next) :: rest))
    have hleft : left - 1 - name.length - 1 = left - (name.length + 2) := by omega
    rw [closes_blank, hpassed, text_cons, closes_blank, hleft, Chain.closes]
    congr 1
    split
    · next hdepth => rw [closes_closing_all hpos hdepth, canFollow_name hnext]
    · next hdepth =>
      by_cases hclosed : m.closed = 0
      · rw [closes_passing hm hclosed, ih hnext hrest (by omega), hclosed, Nat.sub_zero]
      · have hpassed : m.isPassed = true := by
          cases m <;> first | rfl | exact absurd rfl hclosed
        have hopened : m.opened = 0 := by
          cases m <;> first | rfl | exact absurd rfl hclosed
        rw [closes_closing hclosed (by omega), ih hnext hrest (by omega), hpassed, hopened]
        rfl

theorem opened_cases {m : Mark} (hm : m.opened ≠ 0) : m = .lt ∨ m = .le ∨ m = .shl := by
  cases m <;> first | exact absurd rfl hm | simp

theorem startsTypeArguments_operator {m : Mark} {name : Bytes} {links : List (Mark × Bytes)}
    (hm : m.opened ≠ 0) (hname : Literal.IsName name)
    (hlinks : ∀ link ∈ links, link.1.isBinary = true ∧ Literal.IsName link.2) :
    startsTypeArguments (bytes m.text ++ 32 :: (name ++ text links)) = isMistaken m name links := by
  have hbinary : m.isBinary = true := by rcases opened_cases hm with rfl | rfl | rfl <;> rfl
  have hclosed : m.closed = 0 := by rcases opened_cases hm with rfl | rfl | rfl <;> rfl
  have hpassed : m.isPassed = true := by rcases opened_cases hm with rfl | rfl | rfl <;> rfl
  have hopened : (m.opened != 0) = true := by simpa using hm
  rw [startsTypeArguments, closes_passing hbinary hclosed, hpassed, Nat.zero_add,
    closes_chain hname hlinks (Nat.pos_of_ne_zero hm), isMistaken, hopened]

end Angle

/-! ## Chains that are cut -/

namespace Chain

variable {m : Mark} {name : Bytes} {links rest : List (Mark × Bytes)} {after : Bytes}

/-- A name that is no word. -/
structure IsOperand (name : Bytes) : Prop where
  isName : Literal.IsName name
  no_word : Word.ofSpelling? name = none

/-- The operators and the names of a chain. -/
def IsChain (links : List (Mark × Bytes)) : Prop :=
  ∀ link ∈ links, link.1.isBinary = true ∧ IsOperand link.2

theorem avoids_text (links : List (Mark × Bytes)) :
    Avoids continues (text links) := by
  intro b hb
  cases links with
  | nil => cases hb
  | cons link links =>
    rw [text_cons] at hb
    cases hb
    rfl

/-- Behind a name, a `<` opens type arguments when the search succeeds. -/
theorem code_less (more : Bytes) : Scan.code (some .identifier) [] (byte '<' :: more) =
    if Angle.startsTypeArguments (byte '<' :: more) then
      ⟨Scan.markToken .typeOpen, [.typeBrackets 1]⟩
    else ⟨Scan.operator (byte '<' :: more), []⟩ := by
  unfold Scan.code Scan.lessThan
  generalize Angle.startsTypeArguments (byte '<' :: more) = found
  rfl

theorem exists_less (hm : m.opened ≠ 0) (rest : Bytes) :
    ∃ more, bytes m.text ++ rest = byte '<' :: more := by
  rcases Angle.opened_cases hm with rfl | rfl | rfl <;> exact ⟨_, rfl⟩

theorem avoids_longer (m : Mark) (after : Bytes) :
    Avoids (Lexes.longer m).contains (32 :: after) := by
  rintro b ⟨⟩
  have hoperators : ∀ other ∈ Scan.operators, (32 : UInt8) ∉ bytes other.text := by decide +kernel
  rw [List.contains_eq_mem, decide_eq_false_iff_not, Lexes.longer, List.mem_filterMap]
  rintro ⟨other, hother, hnext⟩
  split at hnext
  · exact hoperators other hother (List.mem_of_getElem? hnext)
  · cases hnext

theorem lexes_open (hm : m.opened ≠ 0)
    (h : Angle.startsTypeArguments (bytes m.text ++ 32 :: after) = false) :
    Lexes (some .identifier) (bytes m.text) (32 :: after) m.sign := by
  have hmem : m ∈ Scan.operators := by
    rcases Angle.opened_cases hm with rfl | rfl | rfl <;> decide
  have hoperator := Lexes.operator_append hmem (avoids_longer m after)
  obtain ⟨more, hmore⟩ := exists_less hm (32 :: after)
  rw [hmore] at h hoperator
  apply Lexes.of_markToken m
  · exact ⟨byte '<', more, hmore, rfl, nofun⟩
  · rw [hmore, code_less, h, if_neg Bool.false_ne_true, hoperator]

theorem lexes_operator (hm : m.isBinary = true) (hopened : m.opened = 0) :
    Lexes (some .identifier) (bytes m.text) (32 :: after) m.sign := by
  by_cases hslash : m = .slash
  · subst hslash
    exact Lexes.slash rfl
  · have hfree : Lexes.isFree m = true := by
      cases m <;> first
        | rfl
        | exact absurd rfl hslash
        | exact absurd hopened (by decide)
        | cases hm
    exact Lexes.mark hfree (avoids_longer m after)

theorem lexes_link {name : Bytes} (hm : m.isBinary = true) (hname : IsOperand name)
    (hrest : IsChain rest) (h : isMistaken m name rest = false) :
    Lexes (some .identifier) (bytes m.text) (32 :: (name ++ text rest)) m.sign := by
  by_cases hopened : m.opened = 0
  · exact lexes_operator hm hopened
  · apply lexes_open hopened
    rw [Angle.startsTypeArguments_operator hopened hname.isName, h]
    intro link hlink
    exact ⟨(hrest link hlink).1, (hrest link hlink).2.isName⟩

/-- A link in front of a chain that is cut, unless the operator is mistaken. -/
theorem cuts_cons {front : List (Mark × Bytes)} (hm : m.isBinary = true) (hname : IsOperand name)
    (hrest : IsChain rest) (h : isMistaken m name rest = false)
    (hsplit : text front ++ after = text rest)
    (hfront : Cuts after (some .identifier) (text front) (signs front) (some .identifier)) :
    Cuts after (some .identifier) (text ((m, name) :: front)) (signs ((m, name) :: front))
      (some .identifier) := by
  have hne : bytes m.text ≠ [] := by cases m <;> nofun
  have hnameNe : name ≠ [] := Literal.ne_nil_of_startsName hname.isName.starts
  have hlexes : Lexes (some .identifier) (bytes m.text) (32 :: (name ++ text front) ++ after)
      m.sign := by
    rw [List.cons_append, List.append_assoc, hsplit]
    exact lexes_link hm hname hrest h
  have hlexesName : Lexes (some m.sign.kind) name (text front ++ after) ⟨.identifier, name⟩ := by
    apply Lexes.name hname.isName
    · rw [hsplit]
      exact avoids_text rest
    · exact .inr hname.no_word
  rw [text_cons]
  exact .space (.token hne hlexes (.space (.token hnameNe hlexesName hfront)))

/-- The part of a chain in front of the first operator that is mistaken. -/
theorem exists_first_mistaken (hchain : IsChain links) (h : hasMistaken links = true) :
    ∃ front m name back, links = front ++ (m, name) :: back ∧ isMistaken m name back = true ∧
      Cuts (text ((m, name) :: back)) (some .identifier) (text front) (signs front)
        (some .identifier) := by
  induction links with
  | nil => cases h
  | cons link rest ih =>
    obtain ⟨m, name⟩ := link
    obtain ⟨⟨hm, hname⟩, hrest⟩ := List.forall_mem_cons.mp hchain
    by_cases hmistaken : isMistaken m name rest = true
    · exact ⟨[], m, name, rest, rfl, hmistaken, .nil _⟩
    · have hmistaken : isMistaken m name rest = false := by simpa using hmistaken
      rw [hasMistaken, hmistaken, Bool.false_or] at h
      obtain ⟨front, m', name', back, rfl, hback, hfront⟩ := ih hrest h
      have hsplit : text front ++ text ((m', name') :: back) =
          text (front ++ (m', name') :: back) := by simp [text]
      exact ⟨(m, name) :: front, m', name', back, rfl, hback,
        cuts_cons hm hname hrest hmistaken hsplit hfront⟩

theorem cuts_chain (hchain : IsChain links) (h : hasMistaken links = false) :
    Cuts [] (some .identifier) (text links) (signs links) (some .identifier) := by
  induction links with
  | nil => exact .nil _
  | cons link rest ih =>
    obtain ⟨m, name⟩ := link
    obtain ⟨⟨hm, hname⟩, hrest⟩ := List.forall_mem_cons.mp hchain
    rw [hasMistaken, Bool.or_eq_false_iff] at h
    exact cuts_cons hm hname hrest h.1 (List.append_nil _) (ih hrest h.2)

theorem cuts_operand {first : Bytes} {signs : List Sign} (hfirst : IsOperand first)
    (havoids : Avoids continues (text links ++ after))
    (h : Cuts after (some .identifier) (text links) signs (some .identifier)) :
    Cuts after none (first ++ text links) (⟨.identifier, first⟩ :: signs) (some .identifier) :=
  .token (Literal.ne_nil_of_startsName hfirst.isName.starts)
    (Lexes.name hfirst.isName havoids (.inr hfirst.no_word)) h

end Chain

/-! ## The run over a chain -/

namespace Lexer

open Chain

/-- What a run gives begins with the tokens that it starts from. -/
theorem exists_of_run_result {options : LexerOptions} {rounds : Nat} {lexer : Lexer}
    {tokens : List Token} (h : (run options rounds lexer).result = .ok tokens) :
    ∃ more, tokens = lexer.tokenList ++ more := by
  obtain ⟨more, hmore⟩ := run_tokens options rounds lexer
  unfold LexerStep.result at h
  split at h
  · cases h
  · cases h
    exact ⟨more.reverse, by rw [tokenList, ← hmore, List.reverse_append, ← tokenList]⟩

/-- A mistaken operator is no token of its own. -/
theorem Before.run_mistaken {lexer : Lexer} {m : Mark} {name : Bytes} {back : List (Mark × Bytes)}
    (hname : IsOperand name) (hback : IsChain back) (hmistaken : isMistaken m name back = true)
    (h : lexer.Before (some .identifier) (text ((m, name) :: back))) (options : LexerOptions)
    {rounds : Nat} {tokens : List Token}
    (hrun : (run options (rounds + 1) lexer).result = .ok tokens) :
    ∃ more, tokens.map Token.sign =
      lexer.tokenList.map Token.sign ++ Mark.typeOpen.sign :: more := by
  obtain ⟨hopened, -⟩ := Bool.and_eq_true_iff.mp hmistaken
  have hopened : m.opened ≠ 0 := by simpa using hopened
  rw [text_cons] at h
  obtain ⟨start, hstart, hbefore, htokens⟩ := h.run_space options rounds
  obtain ⟨more, hmore⟩ := exists_less hopened (32 :: (name ++ text back))
  have hsearch : Angle.startsTypeArguments (byte '<' :: more) = true := by
    rw [← hmore, Angle.startsTypeArguments_operator hopened hname.isName, hmistaken]
    intro link hlink
    exact ⟨(hback link hlink).1, (hback link hlink).2.isName⟩
  have hcode := code_less more
  rw [hsearch, if_pos rfl] at hcode
  rw [hmore] at hbefore
  obtain ⟨next, hnext, -, -, -, hsigns⟩ :=
    hbefore.run_scan ⟨byte '<', more, rfl, rfl, nofun⟩ hcode options rounds
  rw [hstart, hnext] at hrun
  obtain ⟨last, rfl⟩ := exists_of_run_result hrun
  refine ⟨last.map Token.sign, ?_⟩
  rw [List.map_append, hsigns, tokenList, htokens, ← tokenList, List.append_assoc]
  rfl

end Lexer

/-- Names with operators between them are cut into these names and operators if and only if none of
the operators is taken for the start of type arguments. -/
theorem tokenize_chain_iff {first : Bytes} {links : List (Mark × Bytes)}
    (hfirst : Chain.IsOperand first) (hchain : Chain.IsChain links) (options : LexerOptions) :
    (∃ tokens, (tokenize options (first ++ Chain.text links)).result = .ok tokens ∧
      tokens.map Token.sign =
        ⟨.identifier, first⟩ :: Chain.signs links ++ [⟨.eof, []⟩]) ↔
      Chain.hasMistaken links = false := by
  have hbefore : (Lexer.ofSource (first ++ Chain.text links)).Before none
      (first ++ Chain.text links) := ⟨rfl, rfl, rfl⟩
  have hempty (source : Bytes) : (Lexer.ofSource source).tokenList = [] := rfl
  cases hmistaken : Chain.hasMistaken links with
  | true =>
    -- The run comes to the first operator that is mistaken, and no other token starts like it.
    obtain ⟨front, m, name, back, rfl, hback, hfront⟩ :=
      Chain.exists_first_mistaken hchain hmistaken
    obtain ⟨-, hlinks⟩ := List.forall_mem_append.mp hchain
    obtain ⟨⟨hm, hname⟩, hchainBack⟩ := List.forall_mem_cons.mp hlinks
    have hsplit : Chain.text (front ++ (m, name) :: back) =
        Chain.text front ++ Chain.text ((m, name) :: back) := by simp [Chain.text]
    have hsplitSigns : Chain.signs (front ++ (m, name) :: back) =
        Chain.signs front ++ m.sign :: ⟨.identifier, name⟩ :: Chain.signs back := by
      simp [Chain.signs]
    have havoids := Chain.avoids_text (front ++ (m, name) :: back)
    rw [hsplit] at havoids hbefore
    rw [← List.append_assoc] at hbefore
    obtain ⟨next, rounds, hrun, hrounds, hnext, hsigns⟩ :=
      hbefore.run_cuts (Chain.cuts_operand hfirst havoids hfront) options (Nat.lt_succ_self _)
    obtain ⟨rounds, rfl⟩ : ∃ r, rounds = r + 1 := ⟨rounds - 1, by omega⟩
    refine iff_of_false ?_ Bool.noConfusion
    rintro ⟨tokens, htokens, hall⟩
    rw [hsplit, ← List.append_assoc] at htokens
    have hresult : (Lexer.run options (rounds + 1) next).result = .ok tokens := by
      rw [← hrun]
      exact htokens
    obtain ⟨more, hmore⟩ := hnext.run_mistaken hname hchainBack hback options hresult
    rw [hall, hsigns, hempty, hsplitSigns] at hmore
    obtain ⟨hsame, -⟩ : m.sign = Mark.typeOpen.sign ∧ _ := by simpa using hmore
    obtain rfl : m = .typeOpen := by simpa [Mark.sign] using congrArg Sign.kind hsame
    cases hm
  | false =>
    have havoids : Avoids continues (Chain.text links ++ []) := by
      rw [List.append_nil]
      exact Chain.avoids_text links
    rw [← List.append_nil (first ++ Chain.text links)] at hbefore
    obtain ⟨next, rounds, hrun, hrounds, hnext, hsigns⟩ :=
      hbefore.run_cuts (Chain.cuts_operand hfirst havoids (Chain.cuts_chain hchain hmistaken))
        options (Nat.lt_succ_self _)
    obtain ⟨rounds, rfl⟩ : ∃ r, rounds = r + 1 := ⟨rounds - 1, by omega⟩
    obtain ⟨final, hresult, hfinal⟩ := hnext.run_end (.inl rfl) options rounds
    refine iff_of_true ⟨next.tokenList ++ [final], ?_, ?_⟩ rfl
    · rw [← hresult, ← hrun, List.append_nil]
      rfl
    · rw [List.map_append, hsigns, List.map_singleton, hfinal]
      rfl

/-- In front of a shift to the right, a comparison is taken for the start of type arguments. -/
theorem not_tokenize_chain_shift :
    ¬ ∃ tokens, (tokenize {} (bytes "a" ++
        Chain.text [(.lt, bytes "b"), (.shr, bytes "c")])).result = .ok tokens ∧
      tokens.map Token.sign = ⟨.identifier, bytes "a"⟩ ::
        Chain.signs [(.lt, bytes "b"), (.shr, bytes "c")] ++ [⟨.eof, []⟩] := by
  have hname {name : Bytes} (hstarts : Literal.startsName name = true)
      (hparts : name.all Byte.isIdentifierPart = true) (hlead : Literal.nameLead name = 0)
      (hword : Word.ofSpelling? name = none) : Chain.IsOperand name := by
    refine ⟨⟨hstarts, ?_⟩, hword⟩
    rw [hlead]
    exact Lexes.nameBody_of_isIdentifierPart hparts
  rw [tokenize_chain_iff (hname rfl rfl rfl rfl)]
  · decide
  · intro link hlink
    simp only [List.mem_cons, List.not_mem_nil, or_false] at hlink
    rcases hlink with rfl | rfl
    all_goals exact ⟨rfl, hname rfl rfl rfl rfl⟩

end SignalView
