import ComponentMacros.Grammar.Literal

/-!
# Markup

Elements, fragments, their tags, attributes and children. Inside markup the
text is not made of tokens: names may hold hyphens, attribute values have no
escapes, and what stands between tags is taken as it is. An element is read up
to, not past, its last angle bracket, because what follows depends on what
stands around the element.
-/

namespace ComponentMacros.Reader

variable (rules : Rules)

/-! ## Names -/

def markupName : Reader (String × Span) := do
  let state ← get
  match state.token with
  | .word _ _ =>
    let tail := state.after.rest.takeWhile fun c => isIdentifierPart c || c = '-'
    let name := state.start.rest.take (state.start.rest.length - state.after.rest.length) ++ tail
    jump (state.start.past name (state.start.rest.drop name.length))
    return (String.ofList name, ⟨state.start.offset, ← behind⟩)
  | _ => failure

def hasHyphen (name : String) : Bool := name.toList.contains '-'

def isIntrinsicTag (name : String) : Bool :=
  hasHyphen name || match name.toList with
    | c :: _ => c.toNat < 128 && !(c.isUpper || c = '_' || c = '$')
    | [] => true

def tagName : Reader Tree := do
  let start ← here
  let (name, span) ← markupName
  if ← eat ":" then
    let (own, ownSpan) ← markupName
    node .tagNamespaced start
      [.node (.tagName name) span [], .node (.tagName own) ownSpan []]
  else if ← isAt "." then
    check (!hasHyphen name)
    let root : Tree := .node (if name = "this" then .this else .identifier name) span []
    extend (fun object => do
      if ← eat "." then
        let (part, partSpan) ← markupName
        check (!hasHyphen part)
        return some (← node .tagMember start [object, .node (.name part) partSpan []])
      return none) root
  else if name = "this" then return .node .this span []
  else if isIntrinsicTag name then return .node (.tagName name) span []
  else return .node (.identifier name) span []

def tagParts : Tree → List String
  | .node (.tagName name) _ _ | .node (.identifier name) _ _ | .node (.name name) _ _ => [name]
  | .node .this _ _ => ["this"]
  | .node .tagMember _ [object, part] => tagParts object ++ "." :: tagParts part
  | .node .tagNamespaced _ [space, part] => tagParts space ++ ":" :: tagParts part
  | _ => []

/-! ## Attributes -/

def markupString : Reader Tree := do
  let state ← get
  match state.start.rest with
  | quote :: rest =>
    require (quote = '"' || quote = '\'')
    let body := rest.takeWhile (· ≠ quote)
    match rest.drop body.length with
    | _ :: after =>
      jump (state.start.past (quote :: body ++ [quote]) after)
      node (.string (String.ofList body)) state.start.offset []
    | [] => failure
  | [] => failure

def bracedExpression : Reader Tree :=
  within ({ · with noIndex := false, arrowBeforeColon := false }) (rules .expression)

/-- Braces and what they hold, up to the closing brace, which is left standing.
The node reaches to the end of that brace. -/
def markupBraces (spreadKind : Option Kind) : Reader Tree := do
  let start ← here
  expect "\x7b"
  match spreadKind, ← eat "..." with
  | some kind, true =>
    let value ← bracedExpression rules
    finish kind start [value]
  | none, true => failure
  | _, false =>
    if ← isAt "\x7d" then finish .markupExpression start []
    else
      let value ← bracedExpression rules
      finish .markupExpression start [value]
where
  finish (kind : Kind) (start : Nat) (parts : List Tree) : Reader Tree := do
    require (← isAt "\x7d")
    return .node kind ⟨start, (← get).after.offset⟩ parts

def attributeValue : Reader Tree := do
  if ← isAt "\x7b" then
    let value ← markupBraces rules none
    require (!value.children.isEmpty)
    advance
    return value
  else if ← isAt "<" then
    let element ← rules .element
    advance
    return element
  else markupString

def tagAttribute : Reader Tree := do
  let start ← here
  if ← isAt "\x7b" then
    let value ← markupBraces rules (some .spreadAttribute)
    require (value.kind = .spreadAttribute)
    advance
    return value
  else
    let (name, span) ← markupName
    let name ← if ← eat ":" then
        let (part, partSpan) ← markupName
        node .tagNamespaced start
          [.node (.tagName name) span [], .node (.tagName part) partSpan []]
      else pure (.node (.tagName name) span [])
    let value ← if ← eat "=" then pure [← attributeValue rules] else pure []
    node .tagAttribute start (name :: value)

/-! ## Elements -/

def markupText? (cursor : Cursor) : Option (Tree × Cursor) :=
  let text := cursor.rest.takeWhile fun c => c ≠ '\x7b' && c ≠ '<' && c ≠ '\x7d' && c ≠ '>'
  if text.isEmpty then none
  else
    let after := cursor.past text (cursor.rest.drop text.length)
    some (.node .markupText ⟨cursor.offset, after.offset⟩ [], after)

def land (cursor : Cursor) : Reader Unit :=
  modify fun s =>
    let lexeme := readLexeme cursor.rest
    { s with
      previous := cursor, start := cursor, token := lexeme.token, newline := false
      after := cursor.past lexeme.raw lexeme.rest }

/-- The children of an element whose opening tag ends at the current token, up
to the angle bracket of its closing tag. -/
def markupChildren : Reader (List Tree) := do
  let (children, _) ← extend (fun (children, done) => do
    if done then return none
    let cursor := (← get).after
    let (text, cursor) := match markupText? cursor with
      | some (text, cursor) => ([text], cursor)
      | none => ([], cursor)
    land cursor
    if ← isAt "\x7b" then
      let inner ← markupBraces rules (some .markupSpread)
      return some (children ++ text ++ [inner], false)
    else
      require (← isAt "<")
      if ← nextIs fun next _ => next = .punct "/" then return some (children ++ text, true)
      let inner ← rules .element
      return some (children ++ text ++ [inner], false)) ([], false)
  return children

def closingTag (parts : List String) : Reader Tree := do
  let start ← here
  expect "<"
  expect "/"
  let name ← if ← isAt ">" then pure [] else pure [← tagName]
  require ((name.flatMap tagParts) = parts && (← isAt ">"))
  return .node .closingTag ⟨start, (← get).after.offset⟩ name

def elementRule : Reader Tree := do
  let start ← here
  expect "<"
  if ← isAt ">" then
    let children ← markupChildren rules
    let closing ← closingTag []
    return .node .fragment ⟨start, (← get).after.offset⟩ (children ++ [closing])
  else
    let name ← tagName
    let generics ← typeArguments? rules
    let attributes ← many do
      if (← isAt ">") || (← isAt "/") then return none
      return some (← tagAttribute rules)
    let selfClosing ← eat "/"
    require (← isAt ">")
    let opening : Tree := .node (.openingTag selfClosing) ⟨start, (← get).after.offset⟩
      (name :: (generics ++ attributes))
    if selfClosing then return .node .element opening.span [opening]
    let children ← markupChildren rules
    let closing ← closingTag (tagParts name)
    return .node .element ⟨start, (← get).after.offset⟩ (opening :: (children ++ [closing]))

def markupExpression : Reader Tree := do
  let element ← rules .element
  advance
  return element

end ComponentMacros.Reader
