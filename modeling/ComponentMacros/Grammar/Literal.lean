import ComponentMacros.Grammar.Function

/-!
# Literals

Objects, arrays, templates and regular expressions, and the argument lists of
calls.
-/

namespace ComponentMacros.Reader

variable (rules : Rules)

def enclosed {α : Type} (p : Reader α) : Reader α :=
  within ({ · with noIn := false, noIndex := false, arrowBeforeColon := false }) p

def spread : Reader Tree := do
  let start ← here
  expect "..."
  let value ← rules .assignment
  let beforeComma ← isAt ","
  node (.spread beforeComma) start [value]

def spreadable : Reader Tree := do
  if ← isAt "..." then spread rules else rules .assignment

/-! ## Objects -/

def propertyValue (start : Nat) (name? : Option String) (key : Tree) (computed : Bool) :
    Reader Tree := do
  if ← eat ":" then
    let value ← rules .assignment
    node (.property .plain computed false false) start [key, value]
  else
    match name? with
    | none => failure
    | some name =>
      let value : Tree := .node (.identifier name) key.span []
      if ← isAt "=" then
        let default ← initializer rules
        node .defaultedProperty start [value, default]
      else node (.property .plain false true false) start [value]

def objectFunction (isAsync isGenerator : Bool) : Reader Tree := do
  let function ← methodFunction rules .function isAsync isGenerator
  require (function.kind = .function .expression isAsync isGenerator)
  return function

def objectMember : Reader Tree := do
  let start ← here
  if ← isAt "..." then spread rules
  else
    let words ← modifiers
    allowModifiers ["async"] words
    match ← access? with
    | some access =>
      let (key, computed) ← propertyKey rules
      let value ← objectFunction rules false false
      check (words.isEmpty && fitsAccess (← typed) access value)
      node (.property access computed false false) start [key, value]
    | none =>
      let isGenerator ← eat "*"
      let name? ← identifier?
      let (key, computed) ← propertyKey rules
      if isGenerator || (← isAt "(") || (← isAt "<") then
        let value ← objectFunction rules (words.contains "async") isGenerator
        node (.property .plain computed false true) start [key, value]
      else
        check words.isEmpty
        propertyValue rules start name? key computed

def objectLiteral : Reader Tree := do
  let start ← here
  expect "\x7b"
  let members ← enclosed (commaItems "\x7d" (objectMember rules))
  expect "\x7d"
  node .object start members

/-! ## Arrays and arguments -/

def arrayLiteral : Reader Tree := do
  let start ← here
  expect "["
  let elements ← enclosed (elementsWithHoles (spreadable rules))
  expect "]"
  node .array start elements

def arguments : Reader (List Tree) := do
  expect "("
  let items ← enclosed (commaItems ")" (spreadable rules))
  expect ")"
  return items

/-! ## Templates and regular expressions -/

def anyTemplate : Reader Tree := do
  let start ← here
  let parts ← templateParts (enclosed (rules .expression))
  node .template start parts

def templateLiteral : Reader Tree := do
  let start ← here
  let parts ← plainTemplateParts (enclosed (rules .expression))
  node .template start parts

def regexLiteral : Reader Tree := do
  let state ← get
  match readRegexBody false (state.start.rest.drop 1) with
  | none => failure
  | some (body, rest) =>
    let flags := rest.takeWhile isIdentifierPart
    require (areRegexFlags flags && !body.isEmpty)
    let raw := '/' :: body ++ '/' :: flags
    jump (state.start.past raw (rest.drop flags.length))
    node (.regex (String.ofList raw)) state.start.offset []

end ComponentMacros.Reader
