import SignalView.Grammar.Expression
import SignalView.Markup.Entity
import SignalView.Markup.Folding

/-!
# Markup

Elements, fragments, attributes and children. Text between tags is folded and its entities are
decoded; text that folds to nothing is left out, and so are empty braces.
-/

namespace SignalView.Grammar

open Parse

variable (g : Grammar)

/-- A tag name: plain, with a namespace before a colon, or a path of names with dots. -/
def tagName : Parse Bytes := do
  let name ← expectMemberName "PSR-P008" "Expected JSX tag name"
  if ← acceptMark .colon then
    let localName ← expect .identifier "Expected name after ':' in JSX tag"
    return name ++ bytes ":" ++ localName.value
  else
    let path ← dottedNames g.rounds
      (expectMemberName "PSR-P008" "Expected name after '.' in JSX tag")
    return name ++ path

/-! ## Attributes -/

def attributeName : Parse Bytes := do
  let name ← expectMemberName "PSR-P008" "Unexpected token in JSX tag"
  let suffix ← textIf (acceptMark .colon) do
    return bytes ":" ++ (← expect .identifier "Expected name after ':' in JSX attribute").value
  return name ++ suffix

def attributeValue : Parse Node := do
  let start ← current
  if ← accept .string then node start (.string (Entity.decode start.value))
  else if ← acceptMark .openBrace then
    if ← atMark .closeBrace then
      fail "PSR-P008" "JSX attribute value must not be an empty expression"
    let expression ← g.assignment
    expectMark .closeBrace "Expected '\x7d' after JSX attribute expression"
    surface start (.container (some expression))
  else if ← atMark .tagOpen then g.element
  else fail "PSR-P008" "Expected JSX attribute value"

def markupAttribute : Parse Node := do
  let start ← current
  if ← acceptMark .openBrace then
    expectMark .ellipsis "Expected '...' in JSX spread attribute"
    let value ← g.assignment
    expectMark .closeBrace "Expected '\x7d' after JSX spread attribute"
    surface start (.attr [] (some value) true)
  else
    let name ← attributeName
    let value ← optionally (acceptMark .assign) g.attributeValue
    surface start (.attr name value false)

/-! ## Children -/

/-- One child; nothing for text and braces without content. -/
def child : Parse (Option Node) := do
  let start ← current
  match start.kind with
  | .markupText =>
    advance
    let value := Entity.decode (Folding.fold start.value)
    if value.isEmpty then return none
    return some (← surface start (.text start.value value))
  | .mark .openBrace =>
    advance
    if ← acceptMark .closeBrace then return none
    let expression ← spreadOr g.assignment g.expression
    expectMark .closeBrace "Expected '\x7d' after JSX expression"
    return some (← surface start (.container (some expression)))
  | .mark .tagOpen => return some (← g.element)
  | _ => fail "PSR-P008" "Unexpected token in JSX children"

def childNodes : Parse (List Node) := do
  return (← manyWhile g.rounds (beforeMark .closingTagOpen) g.child).filterMap id

/-! ## Elements -/

def fragmentRest (start : Token) : Parse Node := do
  let children ← g.childNodes
  expectMark .closingTagOpen "Expected '</>' to close fragment"
  if ← acceptMark .tagEnd then surface start (.fragment children)
  else fail "PSR-P008" "Expected '</>' to close fragment"

/-- The children of an element up to its closing tag, which repeats the name. -/
def elementRest (start : Token) (tag : Bytes) (attributes : List Node) : Parse Node := do
  expectMark .tagEnd "Expected '>' to close JSX opening tag"
  let children ← g.childNodes
  discard (expectWith (.mark .closingTagOpen) (bytes "Expected closing tag </" ++ tag ++ bytes ">"))
  let place ← current
  let closing ← g.tagName
  if closing != tag then
    failAt place "PSR-P009" (bytes "Mismatched closing tag: expected </" ++ tag ++ bytes ">")
  expectMark .tagEnd "Expected '>' to close JSX closing tag"
  surface start (.element tag attributes children false)

def elementStep : Parse Node := nested do
  let start ← expect (.mark .tagOpen) "Expected '<'"
  if ← acceptMark .tagEnd then g.fragmentRest start
  else
    let tag ← g.tagName
    let inTag : Parse Bool := return !(← atMarks [.tagEnd, .tagSelfClose]) && !(← atEnd)
    let attributes ← manyWhile g.rounds inTag g.markupAttribute
    if ← acceptMark .tagSelfClose then surface start (.element tag attributes [] true)
    else g.elementRest start tag attributes

end SignalView.Grammar
