import SignalView.Text.Position

/-!
# Tokens

The words and marks of the source language, and the tokens that a source is cut into. Reserved
words are never names; contextual words are names wherever a declaration does not need them. The
angle brackets of type arguments and of tags are marks of their own, apart from the comparison
operators.
-/

namespace SignalView

/-! ## Words -/

/-- The keywords: the reserved ones, then those that are contextual. -/
inductive Word where
  | break_ | case | catch_ | class_ | const | continue_ | debugger | default | delete | do_
  | else_ | enum | export_ | extends_ | finally_ | for_ | function | if_ | import_ | in_
  | instanceof | new | return_ | super | switch | this | throw | try_ | typeof | var | void
  | while_ | true_ | false_ | null
  | component | interface | type | namespace_ | module_ | declare | abstract | implements | async
  | await | yield | let_ | static | as | satisfies | from_ | of | get | set | keyof | readonly
  | public_ | private_ | protected_
  deriving DecidableEq, Repr

namespace Word

def spelling : Word → String
  | .break_ => "break"
  | .case => "case"
  | .catch_ => "catch"
  | .class_ => "class"
  | .const => "const"
  | .continue_ => "continue"
  | .debugger => "debugger"
  | .default => "default"
  | .delete => "delete"
  | .do_ => "do"
  | .else_ => "else"
  | .enum => "enum"
  | .export_ => "export"
  | .extends_ => "extends"
  | .finally_ => "finally"
  | .for_ => "for"
  | .function => "function"
  | .if_ => "if"
  | .import_ => "import"
  | .in_ => "in"
  | .instanceof => "instanceof"
  | .new => "new"
  | .return_ => "return"
  | .super => "super"
  | .switch => "switch"
  | .this => "this"
  | .throw => "throw"
  | .try_ => "try"
  | .typeof => "typeof"
  | .var => "var"
  | .void => "void"
  | .while_ => "while"
  | .true_ => "true"
  | .false_ => "false"
  | .null => "null"
  | .component => "component"
  | .interface => "interface"
  | .type => "type"
  | .namespace_ => "namespace"
  | .module_ => "module"
  | .declare => "declare"
  | .abstract => "abstract"
  | .implements => "implements"
  | .async => "async"
  | .await => "await"
  | .yield => "yield"
  | .let_ => "let"
  | .static => "static"
  | .as => "as"
  | .satisfies => "satisfies"
  | .from_ => "from"
  | .of => "of"
  | .get => "get"
  | .set => "set"
  | .keyof => "keyof"
  | .readonly => "readonly"
  | .public_ => "public"
  | .private_ => "private"
  | .protected_ => "protected"

def isContextual : Word → Bool
  | .component | .interface | .type | .namespace_ | .module_ | .declare | .abstract | .implements
  | .async | .await | .yield | .let_ | .static | .as | .satisfies | .from_ | .of | .get | .set
  | .keyof | .readonly | .public_ | .private_ | .protected_ => true
  | _ => false

/-- The words in the order of their groups. -/
def all : List Word := [
  .break_, .case, .catch_, .class_, .const, .continue_, .debugger, .default, .delete, .do_, .else_,
  .enum, .export_, .extends_, .finally_, .for_, .function, .if_, .import_, .in_, .instanceof, .new,
  .return_, .super, .switch, .this, .throw, .try_, .typeof, .var, .void, .while_, .true_, .false_,
  .null, .component, .interface, .type, .namespace_, .module_, .declare, .abstract, .implements,
  .async, .await, .yield, .let_, .static, .as, .satisfies, .from_, .of, .get, .set, .keyof,
  .readonly, .public_, .private_, .protected_]

def ofSpelling? (text : Bytes) : Option Word := all.find? fun w ↦ bytes w.spelling == text

end Word

/-! ## Marks -/

/-- Operators and delimiters: assignments, operators, delimiters, brackets of types and of tags. -/
inductive Mark where
  | assign | plusAssign | minusAssign | starAssign | slashAssign | percentAssign | powerAssign
  | shlAssign | shrAssign | ushrAssign | andBitsAssign | orBitsAssign | xorBitsAssign | andAssign
  | orAssign | nullishAssign
  | eq | neq | strictEq | strictNeq | lt | gt | le | ge | plus | minus | star | slash | percent
  | power | plusPlus | minusMinus | shl | shr | ushr | ampersand | pipe | caret | bang | tilde
  | and | or | nullish
  | openParen | closeParen | openBrace | closeBrace | openBracket | closeBracket | semicolon
  | comma | dot | ellipsis | question | questionDot | colon | arrow | atSign
  | typeOpen | typeClose | tagOpen | closingTagOpen | tagEnd | tagSelfClose
  deriving DecidableEq, Repr

namespace Mark

def text : Mark → String
  | .assign => "="
  | .plusAssign => "+="
  | .minusAssign => "-="
  | .starAssign => "*="
  | .slashAssign => "/="
  | .percentAssign => "%="
  | .powerAssign => "**="
  | .shlAssign => "<<="
  | .shrAssign => ">>="
  | .ushrAssign => ">>>="
  | .andBitsAssign => "&="
  | .orBitsAssign => "|="
  | .xorBitsAssign => "^="
  | .andAssign => "&&="
  | .orAssign => "||="
  | .nullishAssign => "??="
  | .eq => "=="
  | .neq => "!="
  | .strictEq => "==="
  | .strictNeq => "!=="
  | .lt => "<"
  | .gt => ">"
  | .le => "<="
  | .ge => ">="
  | .plus => "+"
  | .minus => "-"
  | .star => "*"
  | .slash => "/"
  | .percent => "%"
  | .power => "**"
  | .plusPlus => "++"
  | .minusMinus => "--"
  | .shl => "<<"
  | .shr => ">>"
  | .ushr => ">>>"
  | .ampersand => "&"
  | .pipe => "|"
  | .caret => "^"
  | .bang => "!"
  | .tilde => "~"
  | .and => "&&"
  | .or => "||"
  | .nullish => "??"
  | .openParen => "("
  | .closeParen => ")"
  | .openBrace => "\x7b"
  | .closeBrace => "\x7d"
  | .openBracket => "["
  | .closeBracket => "]"
  | .semicolon => ";"
  | .comma => ","
  | .dot => "."
  | .ellipsis => "..."
  | .question => "?"
  | .questionDot => "?."
  | .colon => ":"
  | .arrow => "=>"
  | .atSign => "@"
  | .typeOpen => "<"
  | .typeClose => ">"
  | .tagOpen => "<"
  | .closingTagOpen => "</"
  | .tagEnd => ">"
  | .tagSelfClose => "/>"

/-- The name of a mark in a listing of tokens. -/
def name : Mark → String
  | .assign => "ASSIGN"
  | .plusAssign => "PLUS_ASSIGN"
  | .minusAssign => "MINUS_ASSIGN"
  | .starAssign => "STAR_ASSIGN"
  | .slashAssign => "SLASH_ASSIGN"
  | .percentAssign => "PERCENT_ASSIGN"
  | .powerAssign => "STAR_STAR_ASSIGN"
  | .shlAssign => "LSHIFT_ASSIGN"
  | .shrAssign => "RSHIFT_ASSIGN"
  | .ushrAssign => "URSHIFT_ASSIGN"
  | .andBitsAssign => "AMPERSAND_ASSIGN"
  | .orBitsAssign => "PIPE_ASSIGN"
  | .xorBitsAssign => "CARET_ASSIGN"
  | .andAssign => "AND_ASSIGN"
  | .orAssign => "OR_ASSIGN"
  | .nullishAssign => "NULLISH_ASSIGN"
  | .eq => "EQ"
  | .neq => "NEQ"
  | .strictEq => "STRICT_EQ"
  | .strictNeq => "STRICT_NEQ"
  | .lt => "LT"
  | .gt => "GT"
  | .le => "LTE"
  | .ge => "GTE"
  | .plus => "PLUS"
  | .minus => "MINUS"
  | .star => "STAR"
  | .slash => "SLASH"
  | .percent => "PERCENT"
  | .power => "STAR_STAR"
  | .plusPlus => "PLUS_PLUS"
  | .minusMinus => "MINUS_MINUS"
  | .shl => "LSHIFT"
  | .shr => "RSHIFT"
  | .ushr => "URSHIFT"
  | .ampersand => "AMPERSAND"
  | .pipe => "PIPE"
  | .caret => "CARET"
  | .bang => "NOT"
  | .tilde => "TILDE"
  | .and => "AND"
  | .or => "OR"
  | .nullish => "NULLISH"
  | .openParen => "LPAREN"
  | .closeParen => "RPAREN"
  | .openBrace => "LBRACE"
  | .closeBrace => "RBRACE"
  | .openBracket => "LBRACKET"
  | .closeBracket => "RBRACKET"
  | .semicolon => "SEMICOLON"
  | .comma => "COMMA"
  | .dot => "DOT"
  | .ellipsis => "ELLIPSIS"
  | .question => "QUESTION"
  | .questionDot => "QUESTION_DOT"
  | .colon => "COLON"
  | .arrow => "ARROW"
  | .atSign => "AT"
  | .typeOpen => "GENERIC_OPEN"
  | .typeClose => "GENERIC_CLOSE"
  | .tagOpen => "JSX_TAG_START"
  | .closingTagOpen => "JSX_CLOSE_TAG_START"
  | .tagEnd => "JSX_TAG_END"
  | .tagSelfClose => "JSX_SELF_CLOSE"

def isAssignment : Mark → Bool
  | .assign | .plusAssign | .minusAssign | .starAssign | .slashAssign | .percentAssign
  | .powerAssign | .shlAssign | .shrAssign | .ushrAssign | .andBitsAssign | .orBitsAssign
  | .xorBitsAssign | .andAssign | .orAssign | .nullishAssign => true
  | _ => false

end Mark

/-! ## Kinds of tokens -/

/-- The pieces of a template literal around its substitutions. -/
inductive TemplatePiece where
  | whole | head | middle | tail
  deriving DecidableEq, Repr

def TemplatePiece.name : TemplatePiece → String
  | .whole => "NO_SUBSTITUTION_TEMPLATE"
  | .head => "TEMPLATE_HEAD"
  | .middle => "TEMPLATE_MIDDLE"
  | .tail => "TEMPLATE_TAIL"

inductive TokenKind where
  | word (w : Word)
  | mark (m : Mark)
  | identifier
  | number
  | bigint
  | string
  | regex
  | template (piece : TemplatePiece)
  | markupText
  | error
  | eof
  deriving DecidableEq, Repr

namespace TokenKind

def isWord : TokenKind → Bool
  | .word _ => true
  | _ => false

def isContextual : TokenKind → Bool
  | .word w => w.isContextual
  | _ => false

/-- The kinds that can name a binding. -/
def isName (kind : TokenKind) : Bool := kind == .identifier || kind.isContextual

/-- The kinds that can name a member after a dot. -/
def isMemberName (kind : TokenKind) : Bool := kind == .identifier || kind.isWord

/-- The kinds that can name a property in a literal: any name or word, a string or a number. -/
def isPropertyName (kind : TokenKind) : Bool :=
  kind.isMemberName || kind == .string || kind == .number || kind == .bigint

/-- The name of a kind in a listing of tokens. -/
def name : TokenKind → Bytes
  | .word .null => bytes "NULL_KEYWORD"
  | .word w => (bytes w.spelling).map Byte.toUpper
  | .mark m => bytes m.name
  | .identifier => bytes "IDENTIFIER"
  | .number => bytes "NUMBER_LITERAL"
  | .bigint => bytes "BIGINT_LITERAL"
  | .string => bytes "STRING_LITERAL"
  | .regex => bytes "REGEX_LITERAL"
  | .template piece => bytes piece.name
  | .markupText => bytes "JSX_TEXT"
  | .error => bytes "ERROR"
  | .eof => bytes "END_OF_FILE"

end TokenKind

/-! ## Tokens -/

/-- A token with the place of its first byte and the offset behind its last. The value is what the
token stands for: decoded text for a string, raw text for a template piece, otherwise its
spelling. -/
structure Token where
  kind : TokenKind
  value : Bytes := []
  start : Position := ⟨1, 1, 0⟩
  stop : Nat := 0
  newlineBefore : Bool := false
  deriving DecidableEq, Repr

/-- The place behind a token, on the line where it starts. -/
def Token.stopPosition (token : Token) : Position :=
  ⟨token.start.line, token.start.column + (token.stop - token.start.offset), token.stop⟩

end SignalView
