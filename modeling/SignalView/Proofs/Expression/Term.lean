import SignalView.Proofs.Grammar.Reading
import SignalView.Reactive.Primitive
import SignalView.Script.Expression

/-!
# Terms

The plain expressions without their ranges: names, literals, parentheses, arrays, operators, calls
and members. A term knows its text in the output and the tokens that it is made of, and it says
which nodes of the syntax tree depict it. The operators are types of their own, since only some of
the words and marks of the language are among them.
-/

namespace SignalView

/-! ## Operators -/

/-- The operators in front of an operand. -/
inductive PrefixOp where
  | not | complement | plus | minus | typeof | void | delete
  deriving DecidableEq, Repr

def PrefixOp.kind : PrefixOp → TokenKind
  | .not => .mark .bang
  | .complement => .mark .tilde
  | .plus => .mark .plus
  | .minus => .mark .minus
  | .typeof => .word .typeof
  | .void => .word .void
  | .delete => .word .delete

def PrefixOp.text : PrefixOp → Bytes
  | .not => bytes "!"
  | .complement => bytes "~"
  | .plus => bytes "+"
  | .minus => bytes "-"
  | .typeof => bytes "typeof"
  | .void => bytes "void"
  | .delete => bytes "delete"

/-- The operators between two operands, except for those that are written with a `<`. -/
inductive InfixOp where
  | or | nullish | and | pipe | caret | ampersand | eq | neq | strictEq | strictNeq | gt | ge
  | instanceof | in_ | shr | ushr | plus | minus | star | slash | percent | power
  deriving DecidableEq, Repr

def InfixOp.kind : InfixOp → TokenKind
  | .or => .mark .or
  | .nullish => .mark .nullish
  | .and => .mark .and
  | .pipe => .mark .pipe
  | .caret => .mark .caret
  | .ampersand => .mark .ampersand
  | .eq => .mark .eq
  | .neq => .mark .neq
  | .strictEq => .mark .strictEq
  | .strictNeq => .mark .strictNeq
  | .gt => .mark .gt
  | .ge => .mark .ge
  | .instanceof => .word .instanceof
  | .in_ => .word .in_
  | .shr => .mark .shr
  | .ushr => .mark .ushr
  | .plus => .mark .plus
  | .minus => .mark .minus
  | .star => .mark .star
  | .slash => .mark .slash
  | .percent => .mark .percent
  | .power => .mark .power

def InfixOp.text : InfixOp → Bytes
  | .or => bytes "||"
  | .nullish => bytes "??"
  | .and => bytes "&&"
  | .pipe => bytes "|"
  | .caret => bytes "^"
  | .ampersand => bytes "&"
  | .eq => bytes "=="
  | .neq => bytes "!="
  | .strictEq => bytes "==="
  | .strictNeq => bytes "!=="
  | .gt => bytes ">"
  | .ge => bytes ">="
  | .instanceof => bytes "instanceof"
  | .in_ => bytes "in"
  | .shr => bytes ">>"
  | .ushr => bytes ">>>"
  | .plus => bytes "+"
  | .minus => bytes "-"
  | .star => bytes "*"
  | .slash => bytes "/"
  | .percent => bytes "%"
  | .power => bytes "**"

def PrefixOp.sign (op : PrefixOp) : Sign := ⟨op.kind, op.text⟩

def InfixOp.sign (op : InfixOp) : Sign := ⟨op.kind, op.text⟩

/-! ## Terms -/

/-- A plain expression. A spread stands in a list only, and a hole only in that of an array. -/
inductive Term where
  | name (spelling : Bytes)
  | number (raw : Bytes) (isBigint : Bool)
  | string (value : Bytes)
  | paren (inner : Term)
  | array (elements : List Term)
  | unary (op : PrefixOp) (operand : Term)
  | binary (op : InfixOp) (left right : Term)
  | conditional (test consequent alternate : Term)
  | call (callee : Term) (args : List Term)
  | index (receiver key : Term)
  | member (receiver : Term) (key : Bytes)
  | spread (argument : Term)
  | hole

namespace Term

def isHole : Term → Bool
  | .hole => true
  | _ => false

/-- A number that is no bigint. -/
def isBareNumber : Term → Bool
  | .number _ isBigint => !isBigint
  | _ => false

mutual

/-- The node is the term with some ranges. -/
def Depicts : Term → Node → Prop
  | .name spelling, node => ∃ range, node = .plain range (.identifier spelling)
  | .number raw isBigint, node => ∃ range, node = .plain range (.number raw isBigint)
  | .string value, node => ∃ range, node = .plain range (.string value)
  | .paren inner, node => ∃ range part, node = .plain range (.paren part) ∧ inner.Depicts part
  | .array elements, node =>
    ∃ range parts, node = .plain range (.array parts) ∧ DepictAll elements parts
  | .unary op operand, node =>
    ∃ range part, node = .plain range (.unary op.text part true) ∧ operand.Depicts part
  | .binary op left right, node => ∃ range first second,
    node = .plain range (.binary op.text first second) ∧ left.Depicts first ∧ right.Depicts second
  | .conditional test consequent alternate, node => ∃ range first second third,
    node = .plain range (.conditional first second third) ∧
      test.Depicts first ∧ consequent.Depicts second ∧ alternate.Depicts third
  | .call callee args, node => ∃ range part parts,
    node = .plain range (.call part [] parts false) ∧ callee.Depicts part ∧ DepictAll args parts
  | .index receiver key, node => ∃ range first second,
    node = .plain range (.member first (.computed second) false) ∧
      receiver.Depicts first ∧ key.Depicts second
  | .member receiver key, node => ∃ range part,
    node = .plain range (.member part (.named key) false) ∧ receiver.Depicts part
  | .spread argument, node => ∃ range part, node = .plain range (.spread part) ∧
    argument.Depicts part
  | .hole, node => ∃ range, node = .plain range .omitted

def DepictAll : List Term → List Node → Prop
  | [], nodes => nodes = []
  | t :: rest, nodes => ∃ node others, nodes = node :: others ∧ t.Depicts node ∧
    DepictAll rest others

end

mutual

/-- The names that a term refers to are no words of the language and no primitives. -/
def HasPlainNames : Term → Prop
  | .name spelling => Word.ofSpelling? spelling = none ∧ Primitive.isImplicit spelling = false
  | .number _ _ | .string _ | .hole => True
  | .paren inner => inner.HasPlainNames
  | .array elements => HavePlainNames elements
  | .unary _ operand => operand.HasPlainNames
  | .binary _ left right => left.HasPlainNames ∧ right.HasPlainNames
  | .conditional test consequent alternate =>
    test.HasPlainNames ∧ consequent.HasPlainNames ∧ alternate.HasPlainNames
  | .call callee args => callee.HasPlainNames ∧ HavePlainNames args
  | .index receiver key => receiver.HasPlainNames ∧ key.HasPlainNames
  | .member receiver _ => receiver.HasPlainNames
  | .spread argument => argument.HasPlainNames

def HavePlainNames : List Term → Prop
  | [] => True
  | t :: rest => t.HasPlainNames ∧ HavePlainNames rest

end

mutual

/-- The names that a term refers to are no words of the language and no primitives, and no bare
number stands in front of a dot. -/
def IsPlain : Term → Prop
  | .name spelling => Word.ofSpelling? spelling = none ∧ Primitive.isImplicit spelling = false
  | .number _ _ | .string _ | .hole => True
  | .paren inner => inner.IsPlain
  | .array elements => ArePlain elements
  | .unary _ operand => operand.IsPlain
  | .binary _ left right => left.IsPlain ∧ right.IsPlain
  | .conditional test consequent alternate =>
    test.IsPlain ∧ consequent.IsPlain ∧ alternate.IsPlain
  | .call callee args => callee.IsPlain ∧ ArePlain args
  | .index receiver key => receiver.IsPlain ∧ key.IsPlain
  | .member receiver _ => receiver.IsPlain ∧ receiver.isBareNumber = false
  | .spread argument => argument.IsPlain

def ArePlain : List Term → Prop
  | [] => True
  | t :: rest => t.IsPlain ∧ ArePlain rest

end

/-! ## Text -/

/-- What separates an item of a list from the items behind it; a hole at the end needs a comma. -/
def gapText (t : Term) (rest : List Term) : Bytes :=
  if rest.isEmpty then if t.isHole then bytes "," else [] else bytes ", "

mutual

/-- A term as it is written. -/
def text : Term → Bytes
  | .name spelling => spelling
  | .number raw _ => raw
  | .string value => Quoted.quoted value
  | .paren inner => bytes "(" ++ inner.text ++ bytes ")"
  | .array elements => bytes "[" ++ listText elements ++ bytes "]"
  | .unary op operand => Emission.leadingText op.text operand.text
  | .binary op left right => left.text ++ bytes " " ++ op.text ++ bytes " " ++ right.text
  | .conditional test consequent alternate =>
    test.text ++ bytes " ? " ++ consequent.text ++ bytes " : " ++ alternate.text
  | .call callee args => callee.text ++ bytes "(" ++ listText args ++ bytes ")"
  | .index receiver key => receiver.text ++ bytes "[" ++ key.text ++ bytes "]"
  | .member receiver key => receiver.text ++ bytes "." ++ key
  | .spread argument => bytes "..." ++ argument.text
  | .hole => []

def listText : List Term → Bytes
  | [] => []
  | t :: rest => t.text ++ gapText t rest ++ listText rest

end

/-! ## Tokens -/

/-- The comma behind an item of a list. -/
def gapSigns (t : Term) (rest : List Term) : List Sign :=
  if rest.isEmpty && !t.isHole then [] else [Mark.comma.sign]

mutual

/-- The tokens of a term as it is written. -/
def signs : Term → List Sign
  | .name spelling => [⟨.identifier, spelling⟩]
  | .number raw isBigint => [⟨if isBigint then .bigint else .number, raw⟩]
  | .string value => [⟨.string, value⟩]
  | .paren inner => Mark.openParen.sign :: inner.signs ++ [Mark.closeParen.sign]
  | .array elements => Mark.openBracket.sign :: listSigns elements ++ [Mark.closeBracket.sign]
  | .unary op operand => op.sign :: operand.signs
  | .binary op left right => left.signs ++ op.sign :: right.signs
  | .conditional test consequent alternate =>
    test.signs ++ Mark.question.sign :: consequent.signs ++ Mark.colon.sign :: alternate.signs
  | .call callee args =>
    callee.signs ++ Mark.openParen.sign :: listSigns args ++ [Mark.closeParen.sign]
  | .index receiver key =>
    receiver.signs ++ Mark.openBracket.sign :: key.signs ++ [Mark.closeBracket.sign]
  | .member receiver key => receiver.signs ++ [Mark.dot.sign, ⟨.identifier, key⟩]
  | .spread argument => Mark.ellipsis.sign :: argument.signs
  | .hole => []

def listSigns : List Term → List Sign
  | [] => []
  | t :: rest => t.signs ++ gapSigns t rest ++ listSigns rest

end

end Term

end SignalView
