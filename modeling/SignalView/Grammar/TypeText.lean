import SignalView.Grammar.Lookahead

/-!
# Types

Types are read and kept as text with normalised spaces; nothing checks them. Conditional types bind
weakest, then unions, intersections, operators and the brackets of arrays and indexed access.
-/

namespace SignalView.Grammar

open Parse

variable (g : Grammar)

/-! ## Angle brackets -/

def atAngle : Parse Bool := atMarks [.typeOpen, .lt]

def openAngle (what : String) : Parse Unit := do
  if ← atAngle then advance else fail "PSR-P002" ("Expected '<' to open " ++ what)

def closeAngle (what : String) : Parse Unit := do
  if ← atMarks [.typeClose, .gt] then advance
  else fail "PSR-P002" ("Expected '>' to close " ++ what)

def beforeAngle : Parse Bool := return !(← atMarks [.typeClose, .gt]) && !(← atEnd)

def typeArguments : Parse (List Bytes) := do
  openAngle "type arguments"
  let args ← commaList g.rounds beforeAngle g.type
  closeAngle "type arguments"
  return args

/-- The text of type arguments with their brackets, where they follow. -/
def angleArguments : Parse Bytes := textIf (atMark .typeOpen) do
  let args ← g.typeArguments
  return bytes "<" ++ Bytes.join (bytes ", ") args ++ bytes ">"

/-- A word of variance or constness in front of a type parameter. -/
def atTypeParameterModifier : Parse Bool := do
  return ((← atWord .const) || (← atWord .in_) || (← atSpelling "out")) && (← nameAhead 1)

def typeParameter : Parse Bytes := do
  let modifiers ← manyWhile g.rounds atTypeParameterModifier take
  let name ← expectName "Expected type parameter name"
  let bound ← textIf (acceptWord .extends_) (return bytes " extends " ++ (← g.type))
  let initial ← textIf (acceptMark .assign) (return bytes " = " ++ (← g.type))
  return modifiers.flatMap (· ++ bytes " ") ++ name ++ bound ++ initial

/-- Type parameters with their brackets. -/
def typeParameters : Parse Bytes := do
  openAngle "type parameters"
  let params ← commaList g.rounds beforeAngle g.typeParameter
  closeAngle "type parameters"
  return bytes "<" ++ Bytes.join (bytes ", ") params ++ bytes ">"

def optionalTypeParameters : Parse Bytes := textIf atAngle g.typeParameters

/-! ## Annotations -/

/-- The type behind a colon, empty when there is none. -/
def annotation : Parse Bytes := textIf (acceptMark .colon) g.type

/-- The annotation as it stands in a signature. -/
def annotationText : Parse Bytes := do
  let type ← g.annotation
  return if type.isEmpty then [] else bytes ": " ++ type

/-! ## Members of object types -/

/-- A key in brackets: an index signature, the key of a mapped type, or a computed name. -/
def bracketedKey : Parse Bytes := do
  if (← nameAhead 1) && (← markAhead 2 .colon) then
    advance
    let key ← take
    advance
    let type ← g.type
    expectMark .closeBracket "Expected ']' in index signature"
    return bytes "[" ++ key ++ bytes ": " ++ type ++ bytes "]"
  else if (← nameAhead 1) && (← wordAhead 2 .in_) then
    advance
    let key ← take
    advance
    let source ← g.type
    let renamed ← textIf (acceptWord .as) (return bytes " as " ++ (← g.type))
    expectMark .closeBracket "Expected ']' in mapped type"
    return bytes "[" ++ key ++ bytes " in " ++ source ++ renamed ++ bytes "]"
  else balanced

/-- A property name as it is written back. -/
def propertyNameText : Parse Bytes := do
  let token ← current
  if token.kind.isPropertyName then
    advance
    return if token.kind == .string then Quoted.quoted token.value else token.value
  else fail "PSR-P004" "Expected property name"

/-- The signature of something that can be called, from its type parameters on. -/
def parameterText : Parse Bytes := do
  let typeParameters ← textIf (return !(← atMark .openParen)) g.typeParameters
  let params ← balanced
  return typeParameters ++ params

def atSignature : Parse Bool := return (← atMark .openParen) || (← atAngle)

/-- The word `readonly` in front of a member, with the sign that mapped types put before it. -/
def readonlyText : Parse Bytes := do
  if (← atMarks [.minus, .plus]) && (← wordAhead 1 .readonly) then
    let sign ← take
    advance
    return sign ++ bytes "readonly "
  let next := (← peek 1).kind
  let isName := [.mark .colon, .mark .question, .mark .openParen, .mark .semicolon].contains next
  if (← atWord .readonly) && !isName then
    advance
    return bytes "readonly "
  return []

/-- The question mark of an optional member, with the sign that mapped types put before it. -/
def optionalText : Parse Bytes := do
  if (← atMarks [.minus, .plus]) && (← markAhead 1 .question) then
    let sign ← take
    advance
    return sign ++ bytes "?"
  textIf (acceptMark .question) (return bytes "?")

def memberKeyText : Parse Bytes := do
  if ← atMark .openBracket then g.bracketedKey
  else
    let isAccessor := ((← atWord .get) || (← atWord .set)) && (← peek 1).kind.isPropertyName &&
      (← markAhead 2 .openParen)
    let accessor ← textIf (return isAccessor) (return (← take) ++ bytes " ")
    return accessor ++ (← propertyNameText)

/-- One member of an object type, without what separates it from the next. -/
def typeMember : Parse Bytes := do
  let lead ← readonlyText
  let isConstructor := (← atWord .new) && ((← markAhead 1 .openParen) || (← markAhead 1 .typeOpen))
  if ← atSignature then
    let params ← g.parameterText
    return lead ++ params ++ (← g.annotationText)
  else if isConstructor then
    advance
    let params ← g.parameterText
    return lead ++ bytes "new " ++ params ++ (← g.annotationText)
  else
    let key ← g.memberKeyText
    let optional ← optionalText
    let params ← textIf atSignature g.parameterText
    return lead ++ key ++ optional ++ params ++ (← g.annotationText)

/-- Members up to the closing brace, with semicolons or commas between them. -/
def typeMembers : Parse (List Bytes) := manyWhile g.rounds (beforeMark .closeBrace) do
  let text ← g.typeMember
  if ← atMarks [.semicolon, .comma] then advance
  return text

def objectType : Parse Bytes := do
  expectMark .openBrace "Expected '\x7b'"
  let texts ← g.typeMembers
  expectMark .closeBrace "Expected '\x7d' to close object type"
  if texts.isEmpty then return bytes "\x7b\x7d"
  return bytes "\x7b " ++ Bytes.join (bytes "; ") texts ++ bytes " \x7d"

/-! ## Tuples and templates -/

/-- An element of a tuple; a label stands in front of its type. -/
def tupleElement : Parse Bytes := do
  let spread ← textIf (acceptMark .ellipsis) (return bytes "...")
  let isLabeled := (← nameAhead 0) &&
    ((← markAhead 1 .colon) || ((← markAhead 1 .question) && (← markAhead 2 .colon)))
  let label ← textIf (return isLabeled) do
    let name ← take
    let optional ← textIf (acceptMark .question) (return bytes "?")
    advance
    return name ++ optional ++ bytes ": "
  let type ← g.type
  let optional ← textIf (acceptMark .question) (return bytes "?")
  return spread ++ label ++ type ++ optional

def tupleType : Parse Bytes := do
  expectMark .openBracket "Expected '['"
  let elements ← commaList g.rounds (beforeMark .closeBracket) g.tupleElement
  expectMark .closeBracket "Expected ']' to close tuple type"
  return bytes "[" ++ Bytes.join (bytes ", ") elements ++ bytes "]"

def templateType (head : Bytes) : Parse Bytes := iterate (fun text ↦ do
  let hole ← g.type
  let text := text ++ bytes "$\x7b" ++ hole ++ bytes "\x7d"
  let piece ← current
  if ← accept (.template .middle) then return (text ++ piece.value, true)
  let tail ← expect (.template .tail) "Expected end of template literal type"
  return (text ++ tail.value ++ bytes "`", false)) g.rounds (bytes "`" ++ head)

/-! ## Operands -/

def arrowType (message : String) (params : Bytes) : Parse Bytes := do
  expectMark .arrow message
  return params ++ bytes " => " ++ (← g.type)

def parenthesizedType : Parse Bytes := do
  if (← kindAfterClosing) == some (.mark .arrow) then
    g.arrowType "Expected '=>' in function type" (← balanced)
  else
    advance
    let inner ← g.type
    expectMark .closeParen "Expected ')' in parenthesized type"
    return bytes "(" ++ inner ++ bytes ")"

def constructorType : Parse Bytes := do
  advance
  let typeParameters ← g.optionalTypeParameters
  let params ← balanced
  return bytes "new " ++
    (← g.arrowType "Expected '=>' in constructor type" (typeParameters ++ params))

/-- The type behind `is` on the same line, for a predicate on a subject. -/
def predicateOr (subject : Bytes) (otherwise : Parse Bytes) : Parse Bytes := do
  if (← atSpelling "is") && !(← onNewLine) then
    advance
    return subject ++ bytes " is " ++ (← g.type)
  else otherwise

def typeQuery : Parse Bytes := do
  advance
  let name ←
    if ← acceptWord .import_ then pure (bytes "import" ++ (← balanced))
    else expectName "Expected name after 'typeof'"
  let path ← dottedNames g.rounds
    (expectMemberName "PSR-P004" "Expected name after '.' in type query")
  return bytes "typeof " ++ name ++ path ++ (← g.angleArguments)

def importType : Parse Bytes := do
  advance
  let source ← balanced
  let path ← dottedNames g.rounds (expectName "Expected name after '.' in import type")
  return bytes "import" ++ source ++ path ++ (← g.angleArguments)

/-- A name with its path and arguments, a predicate on a name, or an assertion. -/
def typeReference : Parse Bytes := do
  unless ← nameAhead 0 do fail "PSR-P007" "Expected type"
  if (← atSpelling "asserts") && (← nameAhead 1) && !(← peek 1).newlineBefore then
    advance
    let subject := bytes "asserts " ++ (← take)
    g.predicateOr subject (return subject)
  else
    let name ← take
    g.predicateOr name do
      let path ← dottedNames g.rounds
        (expectMemberName "PSR-P004" "Expected name after '.' in type reference")
      return name ++ path ++ (← g.angleArguments)

def primaryType : Parse Bytes := do
  let start ← current
  match start.kind with
  | .mark .openParen => g.parenthesizedType
  | .mark .typeOpen | .mark .lt =>
    let typeParameters ← g.typeParameters
    let params ← balanced
    g.arrowType "Expected '=>' in generic function type" (typeParameters ++ params)
  | .word .new => g.constructorType
  | .word .abstract =>
    if ← wordAhead 1 .new then
      advance
      return bytes "abstract " ++ (← g.constructorType)
    else g.typeReference
  | .mark .openBrace => g.objectType
  | .mark .openBracket => g.tupleType
  | .string =>
    advance
    return Quoted.quoted start.value
  | .number | .bigint | .word .true_ | .word .false_ | .word .null | .word .void | .word .const =>
    take
  | .word .this =>
    advance
    g.predicateOr (bytes "this") (return start.value)
  | .mark .minus =>
    advance
    return bytes "-" ++ (← expect .number "Expected number after '-' in type").value
  | .template .whole =>
    advance
    return bytes "`" ++ start.value ++ bytes "`"
  | .template .head =>
    advance
    g.templateType start.value
  | .word .typeof => g.typeQuery
  | .word .import_ => g.importType
  | _ => g.typeReference

/-! ## Operators -/

/-- An operand with the brackets behind it, which start on its line. -/
def suffixedType : Parse Bytes := do
  iterate (fun text ↦ do
    if (← atMark .openBracket) && !(← onNewLine) then
      advance
      if ← acceptMark .closeBracket then return (text ++ bytes "[]", true)
      let index ← g.type
      expectMark .closeBracket "Expected ']' in indexed access type"
      return (text ++ bytes "[" ++ index ++ bytes "]", true)
    return (text, false)) g.rounds (← g.primaryType)

/-- The bound of an inferred type. What looks like a bound is the condition of a conditional type
when a question mark follows it, and then it is left alone. -/
def inferredBound : Parse Bytes := do
  if (← atWord .extends_) && !(← markAhead 2 .question) then
    let place ← cursor
    advance
    let bound ← g.suffixedType
    if ← atMark .question then
      resume place
      return []
    return bytes " extends " ++ bound
  return []

def typeOperatorStep : Parse Bytes := do
  if (← atWord .keyof) || (← atWord .readonly) || (← atSpelling "unique") ||
      (← atSpelling "infer") then
    let op ← take
    let operand ← g.typeOperator
    let bound ← textIf (return op == bytes "infer") g.inferredBound
    return op ++ bytes " " ++ operand ++ bound
  else g.suffixedType

/-- Operands with a mark between them and perhaps one in front. -/
def joinedTypes (m : Mark) (operand : Parse Bytes) : Parse Bytes := do
  discard (acceptMark m)
  let operands ← separated g.rounds m operand
  return Bytes.join (bytes " " ++ bytes m.text ++ bytes " ") operands

def unionType : Parse Bytes := g.joinedTypes .pipe (g.joinedTypes .ampersand g.typeOperator)

def typeStep : Parse Bytes := nested do
  let checked ← g.unionType
  if (← atWord .extends_) && !(← onNewLine) then
    advance
    let bound ← g.unionType
    expectMark .question "Expected '?' in conditional type"
    let whenTrue ← g.type
    expectMark .colon "Expected ':' in conditional type"
    let whenFalse ← g.type
    return checked ++ bytes " extends " ++ bound ++ bytes " ? " ++ whenTrue ++ bytes " : " ++
      whenFalse
  else return checked

end SignalView.Grammar
