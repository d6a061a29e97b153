import ComponentMacros.Grammar.Class
import ComponentMacros.Grammar.Markup
import ComponentMacros.Grammar.Target

/-!
# Expressions

From names and literals through member accesses, calls and operators up to
arrow functions and assignments.
-/

namespace ComponentMacros.Reader

variable (rules : Rules)

/-! ## Primary expressions -/

def parenthesized : Reader Tree := do
  let start ← here
  expect "("
  let inner ← enclosed (rules .expression)
  expect ")"
  node .parenthesized start [inner]

def importCallRest (start : Nat) : Reader Tree := do
  expect "("
  let items ← enclosed (commaItems ")" (rules .assignment))
  expect ")"
  require (items.length = 1 || items.length = 2)
  node .importCall start items

def importExpression : Reader Tree := do
  let start ← here
  expectWord "import"
  if ← eat "." then
    if ← eatWord "meta" then
      modify ({ · with moduleSyntax := true })
      node .metaProperty start []
    else
      require (← isAtAnyWord ["defer", "source"])
      advance
      importCallRest rules start
  else importCallRest rules start

/-! ## Type arguments of expressions -/

def binaryLevel? : String → Option Nat
  | "??" => some 1
  | "||" => some 2
  | "&&" => some 3
  | "|" => some 4
  | "^" => some 5
  | "&" => some 6
  | "==" | "!=" | "===" | "!==" => some 7
  | "<" | ">" | "<=" | ">=" | "instanceof" | "in" | "as" | "satisfies" => some 8
  | "<<" | ">>" | ">>>" => some 9
  | "+" | "-" => some 10
  | "*" | "/" | "%" => some 11
  | "**" => some 12
  | _ => none

def expressionWords : List String :=
  ["this", "super", "null", "true", "false", "function", "class", "new", "delete", "typeof", "void"]

def startsExpression : Token → Bool
  | .word text escaped => isNameToken (.word text escaped) || expressionWords.contains text
  | .string _ _ | .number _ | .bigint _ | .template _ _ | .privateName _ => true
  | .punct text =>
    ["(", "[", "\x7b", "+", "-", "~", "!", "++", "--", "<", "/", "/=", "@"].contains text
  | _ => false

/-- The type arguments before the cursor are no comparison: what follows can
follow type arguments, and cannot be the right operand of one. -/
def endsTypeArguments : Reader Bool := do
  let newline ← newline
  match ← token with
  | .template _ _ | .punct "(" => return true
  | .punct text =>
    let compares := ["<", ">", "+", "-"].contains text
    return !compares &&
      (newline || (binaryLevel? text).isSome || !startsExpression (.punct text))
  | .word "in" _ => return newline || (← context).noIn
  | .word "import" _ =>
    return newline || !(← nextIs fun next _ =>
      next = .punct "(" || next = .punct "<" || next = .punct ".")
  | .word text escaped =>
    return newline || (binaryLevel? text).isSome || !startsExpression (.word text escaped)
  | token => return newline || !startsExpression token

def typeArgumentsInExpression : Reader Tree := do
  let start ← here
  let arguments ← openTypeArguments rules
  require (match (← get).after.rest with
    | c :: _ => c ≠ '>' && c ≠ '='
    | [] => true)
  expect ">"
  let arguments ← node .typeArguments start arguments
  require (← endsTypeArguments)
  return arguments

/-! ## Members and calls -/

def memberName (object : Tree) : Reader Tree := do
  check (object.kind ≠ .instantiation)
  match ← token with
  | .privateName text => leaf (.privateName text)
  | _ => word .name

def optionalSuffix (start : Nat) (object : Tree) : Reader Tree := do
  if ← eat "[" then
    let key ← enclosed (rules .expression)
    expect "]"
    node (.index true) start [object, key]
  else if ← isAt "(" then
    let items ← arguments rules
    node (.call true) start (object :: items)
  else if (← typed) && (← isAt "<") then
    let generics ← typeArguments rules
    let items ← arguments rules
    node (.call true) start (object :: generics :: items)
  else
    let name ← memberName object
    node (.member true) start [object, name]

def taggedTemplate (start : Nat) (tag : List Tree) (inChain : Bool) : Reader (Tree × Bool) := do
  check (!inChain)
  let template ← anyTemplate rules
  return (← node .taggedTemplate start (tag ++ [template]), false)

def genericSuffix? (start : Nat) (calls : Bool) (object : Tree) (inChain : Bool) :
    Reader (Option (Tree × Bool)) := do
  match ← attempt (typeArgumentsInExpression rules) with
  | none => return none
  | some generics =>
    match ← token with
    | .template _ _ => return some (← taggedTemplate rules start [object, generics] inChain)
    | .punct "(" =>
      if calls then
        let items ← arguments rules
        return some (← node (.call false) start (object :: generics :: items), inChain)
      return some (← node .instantiation start [object, generics], inChain)
    | _ => return some (← node .instantiation start [object, generics], inChain)

def suffix (start : Nat) (calls : Bool) : Tree × Bool → Reader (Option (Tree × Bool))
  | (object, inChain) => do
    match ← token with
    | .punct "." =>
      advance
      let name ← memberName object
      return some (← node (.member false) start [object, name], inChain)
    | .punct "?." =>
      if calls then
        advance
        return some (← optionalSuffix rules start object, true)
      return none
    | .punct "[" =>
      if (← context).noIndex then return none
      advance
      let key ← enclosed (rules .expression)
      expect "]"
      return some (← node (.index false) start [object, key], inChain)
    | .punct "!" =>
      if (← typed) && !(← newline) then
        advance
        return some (← node .nonNull start [object], inChain)
      return none
    | .template _ _ => return some (← taggedTemplate rules start [object] inChain)
    | .punct "<" => if ← typed then genericSuffix? rules start calls object inChain else return none
    | .punct "(" =>
      if calls then
        let items ← arguments rules
        return some (← node (.call false) start (object :: items), inChain)
      return none
    | _ => return none

def newExpression : Reader Tree := do
  let start ← here
  expectWord "new"
  if ← eat "." then
    expectWord "target"
    node .metaProperty start []
  else
    let callee ← rules .newCallee
    check (callee.kind ≠ .importCall)
    let callee := match callee with
      | .node .instantiation _ parts => parts
      | callee => [callee]
    if ← isAt "(" then
      let items ← arguments rules
      node .new start (callee ++ items)
    else
      require (!(← isAt "?."))
      node .new start callee

def wordPrimary (text : String) : Reader Tree := do
  match text with
  | "this" => leaf .this
  | "null" => leaf .null
  | "true" => leaf (.boolean true)
  | "false" => leaf (.boolean false)
  | "super" =>
    let parent ← leaf .super
    check (← isAtAny [".", "[", "("])
    return parent
  | "function" => functionExpression rules
  | "class" => classExpression rules
  | "new" => newExpression rules
  | "import" => importExpression rules
  | "async" =>
    if ← nextIs fun next line => !line && next.isWord "function" then functionExpression rules
    else identifier .identifier
  | _ => identifier .identifier

def primary : Reader Tree := do
  match ← token with
  | .word text _ => wordPrimary rules text
  | .string value _ => leaf (.string value)
  | .number raw => leaf (.number raw)
  | .bigint raw => leaf (.bigint raw)
  | .template _ _ => templateLiteral rules
  | .punct "(" => parenthesized rules
  | .punct "[" => arrayLiteral rules
  | .punct "\x7b" => objectLiteral rules
  | .punct "/" | .punct "/=" => regexLiteral
  | .punct "@" => classExpression rules
  | _ => failure

def newCalleeRule : Reader Tree := do
  let start ← here
  let first ← primary rules
  return (← extend (suffix rules start false) (first, false)).1

def leftHandSideRule : Reader Tree := do
  let start ← here
  let first ← primary rules
  let (tree, inChain) ← extend (suffix rules start true) (first, false)
  if inChain then node .chain start [tree] else return tree

/-! ## Operators -/

/-- A value with a type in angle brackets before it. Where the extension says
how the file is loaded, there is none. -/
def typeAssertion : Reader Tree := do
  let start ← here
  let dialect := (← context).dialect
  check (!dialect.isModule && !dialect.isCommon)
  expect "<"
  let type ← rules .type
  expect ">"
  let value ← rules .unary
  node .typeAssertion start [type, value]

def operated (kind : Kind) : Reader Tree := do
  let start ← here
  advance
  let operand ← rules .unary
  node kind start [operand]

/-- `await` is an operator here: where it is no name, or before a word or a
literal on the same line. -/
def isAtAwait : Reader Bool := do
  if !(← isAtWord "await") then return false
  if (← context).awaits then return true
  nextIs fun next line => !line && match next with
    | .word text _ => text ≠ "in" && text ≠ "instanceof"
    | .string _ _ | .number _ | .bigint _ => true
    | _ => false

/-- A value waited for. At the top level of a file it shows that the file may be
a module. -/
def awaitExpression : Reader Tree := do
  let start ← here
  let context ← context
  check (context.awaits || (context.topLevel && context.dialect.isUndecided))
  advance
  let operand ← within ({ · with awaits := true }) (rules .unary)
  node .await start [operand]

def simpleTarget (expression : Tree) : Reader Tree :=
  match expression.toSimpleTarget? with
  | some target => return target
  | none => failure

def postfixExpression : Reader Tree := do
  let start ← here
  let operand ← rules .leftHandSide
  match ← token with
  | .punct text =>
    if (text = "++" || text = "--") && !(← newline) then
      let target ← simpleTarget operand
      advance
      node (.update text true) start [target]
    else return operand
  | _ => return operand

def unaryRule : Reader Tree := do
  let start ← here
  match ← token with
  | .punct text =>
    if text = "++" || text = "--" then
      advance
      let target ← simpleTarget (← rules .unary)
      node (.update text false) start [target]
    else if ["+", "-", "~", "!"].contains text then operated rules (.unary text)
    else if text = "<" then
      if (← context).dialect.markup then markupExpression rules
      else
        require (← typed)
        typeAssertion rules
    else postfixExpression rules
  | .word text _ =>
    if ["delete", "void", "typeof"].contains text then operated rules (.unary text)
    else if ← isAtAwait then awaitExpression rules
    else postfixExpression rules
  | _ => postfixExpression rules

/-- The operator under the cursor and where it ends. Angle brackets are joined
with what follows them. -/
def operator? : Reader (Option (String × Cursor)) := do
  let state ← get
  match state.token with
  | .punct text =>
    let joined := if text = "<" then ["<<=", "<<", "<=", "<"]
      else if text = ">" then [">>>=", ">>=", ">>>", ">=", ">>", ">"]
      else [text]
    match readPunct joined state.start.rest with
    | some (text, rest) => return some (text, state.start.past text.toList rest)
    | none => return none
  | .word text _ => return some (text, state.after)
  | _ => return none

/-- `??` does not mix with the other logical operators unless parenthesized. -/
def mixesLogic (operator : String) (left right : Tree) : Bool :=
  let isBoolean t := t = Kind.binary "||" || t = Kind.binary "&&"
  if operator = "??" then isBoolean left.kind || isBoolean right.kind
  else if operator = "||" || operator = "&&" then
    left.kind = .binary "??" || right.kind = .binary "??"
  else false

def isBase (t : Tree) : Bool :=
  match t.kind with
  | .unary _ | .await => false
  | _ => true

def binaryStep (start level : Nat) (left : Tree) : Reader (Option Tree) := do
  let some (operator, after) ← operator? | return none
  let some own := binaryLevel? operator | return none
  if own ≤ level then return none
  if operator = "in" && (← context).noIn then return none
  if operator = "as" || operator = "satisfies" then
    if !(← typed) || (← newline) then return none
    advance
    let type ← rules .type
    let kind := if operator = "as" then Kind.asExpression else .satisfiesExpression
    return some (← node kind start [left, type])
  if operator = "in" || operator = "instanceof" then advance else jump after
  let right ← rules (.binary (if operator = "**" then own - 1 else own))
  check (!mixesLogic operator left right && (operator ≠ "**" || isBase left))
  return some (← node (.binary operator) start [left, right])

def binaryRule (level : Nat) : Reader Tree := do
  let start ← here
  let first ← match ← token with
    | .privateName text => do
      let name ← leaf (.privateName text)
      require ((← isAtWord "in") && !(← context).noIn && level < 8)
      pure name
    | _ => rules .unary
  extend (binaryStep rules start level) first

/-! ## Arrow functions -/

/-- Whether an arrow function starts somewhere. -/
inductive ArrowChance where
  | no
  | maybe
  | yes
  deriving DecidableEq, Repr

def parenthesisChance : Reader ArrowChance := do
  let chance ← ahead do
    expect "("
    match ← token with
    | .punct ")" =>
      advance
      if ← isAtAny ["=>", "\x7b"] then return ArrowChance.yes
      return if (← typed) && (← isAt ":") then .maybe else .no
    | .punct "..." =>
      advance
      return if isNameToken (← token) then .yes else .maybe
    | .punct "[" | .punct "\x7b" => return .maybe
    | first =>
      require (isNameToken first || first.isWord "this")
      skip
      match ← token with
      | .punct ":" => return .yes
      | .punct "?" =>
        advance
        return if ← isAtAny [":", ",", "=", ")"] then .yes else .no
      | .punct "," | .punct "=" | .punct ")" => return .maybe
      | _ => return .no
  return chance.getD .no

/-- The angle bracket under the cursor opens the type parameters of an arrow
function. Where it could also open an element, a comma, an equals sign or a
bound must follow. -/
def angleChance : Reader ArrowChance := do
  let dialect := (← context).dialect
  if !dialect.typed then return .no
  let chance ← ahead do
    expect "<"
    require (isNameToken (← token) || (← isAtWord "const"))
    if !dialect.markup then return ArrowChance.maybe
    let _ ← eatWord "const"
    skip
    if ← isAtWord "extends" then
      skip
      return if ← isAtAny ["=", ">", "/"] then .no else .yes
    return if ← isAtAny [",", "="] then .yes else .no
  return chance.getD .no

def arrowChance : Reader ArrowChance := do
  match ← token with
  | .punct "(" => parenthesisChance
  | .punct "<" => angleChance
  | .word "async" _ =>
    let chance ← ahead do
      skip
      require (!(← newline))
      match ← token with
      | .punct "(" => parenthesisChance
      | .punct "<" => angleChance
      | _ => failure
    return chance.getD .no
  | _ => return .no

/-- What stands before the body of an arrow function. -/
structure ArrowHead where
  start : Nat
  isAsync : Bool
  parts : List Tree
  hasResult : Bool

/-- Type parameters that a file could not have where its extension says how it
is loaded, because they look like the type of a value. -/
def looksAsserted : Tree → Bool
  | .node (.typeParameters false) _ [.node (.typeParameter false) _ _] => true
  | _ => false

def arrowHead : Reader ArrowHead := do
  let start ← here
  let isAsync ← eatWord "async"
  let dialect := (← context).dialect
  let (generics, parameters) ← within (fun c => { c with awaits := isAsync || c.awaits }) do
    let generics ← typeParameters? rules
    let parameters ← parameters rules .function
    return (generics, parameters)
  check (dialect.isUndecided || !generics.any looksAsserted)
  check (parameters.children.all (·.kind ≠ .thisParameter))
  let result ← returnType? rules
  check (!(← newline))
  expect "=>"
  return ⟨start, isAsync, generics ++ parameters :: result, !result.isEmpty⟩

/-- An arrow function after its head. If `colon`, a bare body is followed by
one. -/
def arrowRest (head : ArrowHead) (colon : Bool) : Reader Tree := do
  let body ← if ← isAt "\x7b" then functionBody rules (Context.inArrow head.isAsync)
    else within (fun c => { c.inArrow head.isAsync with
      noIndex := c.noIndex, arrowBeforeColon := colon }) (rules .assignment)
  node (.arrow head.isAsync) head.start (head.parts ++ [body])

def bareHead : Reader ArrowHead := do
  let start ← here
  let isAsync ← if ← nextIsNameOnLine then eatWord "async" else pure false
  let name ← binding
  let parameter : Tree := .node .parameter name.span [name]
  let parameters : Tree := .node .parameters name.span [parameter]
  require (!(← newline))
  expect "=>"
  return ⟨start, isAsync, [parameters], false⟩

/-- An arrow function whose head can be read. If `colon`, one with a result type
counts only if a colon follows it. -/
def possibleArrow? (colon : Bool) : Reader (Option Tree) := do
  let before ← get
  match ← attempt (arrowHead rules) with
  | none => return none
  | some head =>
    if colon && head.hasResult then
      let arrow ← attempt do
        let arrow ← arrowRest rules head colon
        require (← isAt ":")
        return arrow
      if arrow.isNone then set before
      return arrow
    else return some (← arrowRest rules head colon)

def arrow? (colon : Bool) : Reader (Option Tree) := do
  match ← arrowChance with
  | .yes => return some (← arrowRest rules (← arrowHead rules) false)
  | .maybe => possibleArrow? rules colon
  | .no =>
    match ← attempt bareHead with
    | some head => return some (← arrowRest rules head colon)
    | none => return none

/-! ## Assignments -/

def assignmentOperators : List String :=
  ["=", "+=", "-=", "*=", "/=", "%=", "**=", "<<=", ">>=", ">>>=", "&=", "|=", "^=", "&&=",
   "||=", "??="]

/-- A value handed out by a generator, unless something follows that no value
starts with. -/
def yieldExpression : Reader Tree := do
  let start ← here
  expectWord "yield"
  if ← newline then node (.yield false) start []
  else if ← eat "*" then
    let value ← rules .assignment
    node (.yield true) start [value]
  else if (← isAtAny [";", "\x7d", ")", "]", ":", ","]) || (← isAtWord "in") ||
      (← token) = .done then
    node (.yield false) start []
  else
    let value ← rules .assignment
    node (.yield false) start [value]

def conditionalRest (start : Nat) (test : Tree) (colon : Bool) : Reader Tree := do
  expect "?"
  let yes ← within ({ · with noIn := false, arrowBeforeColon := true }) (rules .assignment)
  expect ":"
  let no ← within ({ · with arrowBeforeColon := colon }) (rules .assignment)
  node .conditional start [test, yes, no]

def assignmentRest (start : Nat) (left : Tree) (operator : String) (after : Cursor)
    (colon : Bool) : Reader Tree := do
  match left.toTarget? with
  | none => failure
  | some target =>
    jump after
    let right ← within ({ · with arrowBeforeColon := colon }) (rules .assignment)
    node (.assignment operator) start [target, right]

def assignmentRule : Reader Tree := do
  let colon := (← context).arrowBeforeColon
  within ({ · with arrowBeforeColon := false }) do
    if (← context).yields && (← isAtWord "yield") then yieldExpression rules
    else
      match ← arrow? rules colon with
      | some arrow => return arrow
      | none =>
        let start ← here
        let left ← rules (.binary 0)
        if ← isAt "?" then conditionalRest rules start left colon
        else
          match ← operator? with
          | some (operator, after) =>
            if assignmentOperators.contains operator then
              assignmentRest rules start left operator after colon
            else return left
          | none => return left

def expressionRule : Reader Tree := do
  let start ← here
  let parts ← separated "," (rules .assignment)
  match parts with
  | [single] => return single
  | _ => node .sequence start parts

end ComponentMacros.Reader
