import ComponentMacros.Grammar.Pattern

/-!
# Types

Type expressions, type parameters and arguments, and the members of object
types.
-/

namespace ComponentMacros

/-! ## Where a type can start -/

def typeWords : List String :=
  ["void", "null", "this", "typeof", "new", "true", "false", "import", "function"]

def startsPlainType : Token → Bool
  | .word text escaped => isNameToken (.word text escaped) || typeWords.contains text
  | .string _ _ | .number _ | .bigint _ | .template _ _ => true
  | .punct text => ["\x7b", "[", "<", "|", "&", "*", "?", "!", "..."].contains text
  | _ => false

def followsTypeParenthesis : Token → Bool
  | .privateName _ => true
  | .punct text => text = ")" || text = "@" || startsPlainType (.punct text)
  | token => startsPlainType token || token.isAnyWord ["in", "const", "export", "default"]

def isOptionalMember (member : Tree) : Bool :=
  match member.kind with
  | .optionalType | .namedTupleMember true => true
  | _ => false

def isArrayMember : Tree → Bool
  | .node .restType _ [.node (.namedTupleMember _) _ [_, type]] => type.kind = .arrayType
  | .node .restType _ [type] => type.kind = .arrayType
  | _ => false

/-- The members of a tuple are in an order that tells which elements are there:
only one stands for an array, no optional one follows that, and no required one
follows an optional one. -/
def areMembersOrdered (optionalSeen arraySeen : Bool) : List Tree → Bool
  | [] => true
  | member :: rest =>
    if isOptionalMember member then !arraySeen && areMembersOrdered true arraySeen rest
    else if isArrayMember member then !arraySeen && areMembersOrdered optionalSeen true rest
    else (!optionalSeen || member.kind = .restType) && areMembersOrdered optionalSeen arraySeen rest

namespace Reader

variable (rules : Rules)

def startsType : Reader Bool := do
  match ← token with
  | .punct "-" => nextIs fun next _ => match next with
    | .number _ | .bigint _ => true
    | _ => false
  | .punct "(" => wouldBe do
    let _ ← many do
      if ← eat "(" then return some ()
      return none
    if ← isAt "-" then nextIs fun next _ => match next with
      | .number _ | .bigint _ => true
      | _ => false
    else return followsTypeParenthesis (← token)
  | token => return startsPlainType token

/-! ## Parameters and arguments -/

def typeParameter : Reader Tree := do
  let start ← here
  allowModifiers ["in", "out", "const"] (← modifiersUntil (fun _ => false) true)
  let name ← binding
  let bound ← if ← eatWord "extends" then pure [← rules .type] else pure []
  let value ← if ← eat "=" then pure [← rules .type] else pure []
  node (.typeParameter (!bound.isEmpty)) start (name :: (bound ++ value))

def typeParameters : Reader Tree := do
  let start ← here
  expect "<"
  let parameters ← commaItems ">" (typeParameter rules)
  check (!parameters.isEmpty)
  let ended ← behind
  expect ">"
  let endsInComma := parameters.getLast?.any (·.span.stop ≠ ended)
  node (.typeParameters endsInComma) start parameters

def typeParameters? : Reader (List Tree) := do
  optional ((← typed) && (← isAt "<")) (typeParameters rules)

def openTypeArguments : Reader (List Tree) := do
  expect "<"
  let arguments ← commaItems ">" (rules .type)
  check (!arguments.isEmpty)
  return arguments

def typeArguments : Reader Tree := do
  let start ← here
  let arguments ← openTypeArguments rules
  expect ">"
  node .typeArguments start arguments

def typeArguments? : Reader (List Tree) := do
  optional ((← typed) && (← isAt "<")) (typeArguments rules)

def typeArgumentsOnLine? : Reader (List Tree) := do
  optional ((← isAt "<") && !(← newline)) (typeArguments rules)

/-! ## Names of types -/

def qualified (start : Nat) (first : Tree) : Reader Tree :=
  extend (fun name => do
    if ← eat "." then
      let part ← word .name
      return some (← node .qualifiedName start [name, part])
    return none) first

def entityName : Reader Tree := do
  qualified (← here) (← word .identifier)

def typeReference : Reader Tree := do
  let start ← here
  let name ← entityName
  let arguments ← typeArgumentsOnLine? rules
  node .typeReference start (name :: arguments)

def moduleSpecifier : Reader Tree := do
  match ← token with
  | .string value _ => leaf (.string value)
  | _ => failure

def importType (start : Nat) : Reader Tree := do
  expectWord "import"
  expect "("
  let argumentStart ← here
  let argument ← node .literalType argumentStart [← moduleSpecifier]
  let settings ← if ← eat "," then
      if ← isAt ")" then pure [] else do
        require (← isAt "\x7b")
        pure [← rules .assignment]
    else pure []
  let _ ← eat ","
  expect ")"
  let names ← many do
    if ← eat "." then return some (← word .name)
    return none
  let arguments ← typeArgumentsOnLine? rules
  node .importType start (argument :: (settings ++ names ++ arguments))

def typeQuery : Reader Tree := do
  let start ← here
  expectWord "typeof"
  let subject ← if ← isAtWord "import" then importType rules (← here)
    else if ← isAtWord "this" then qualified (← here) (← leaf .this)
    else entityName
  let arguments ← typeArgumentsOnLine? rules
  node .typeQuery start (subject :: arguments)

/-! ## Function types -/

def predicateType : Reader Tree := do
  let start ← here
  let type ← rules .type
  node .ascription start [type]

def typeOrPredicate : Reader Tree := do
  let start ← here
  let named := match ← token with
    | .word _ _ => true
    | _ => false
  if named && (← nextIs fun next line => !line && next.isWord "is") then
    let subject ← word .name
    expectWord "is"
    let type ← predicateType rules
    node (.typePredicate false) start [subject, type]
  else rules .type

def returnType (mark : String) : Reader Tree := do
  let start ← here
  expect mark
  let type ← typeOrPredicate rules
  node .ascription start [type]

def returnType? : Reader (List Tree) := do
  optional ((← typed) && (← isAt ":")) (returnType rules ":")

def skipParameterStart : Reader Bool := do
  let _ ← modifiers
  if isNameToken (← token) || (← isAtWord "this") then
    skip
    return true
  else if (← isAt "[") || (← isAt "\x7b") then
    modify ({ · with faulty := false })
    let pattern ← attempt (rules .pattern)
    return pattern.isSome && !(← get).faulty
  else return false

def opensFunctionType : Reader Bool :=
  wouldBe do
    expect "("
    if (← isAt ")") || (← isAt "...") then return true
    if !(← skipParameterStart rules) then return false
    if ← isAtAny [":", ",", "?", "="] then return true
    return (← isAt ")") && (← nextIs fun next _ => next = .punct "=>")

def functionType : Reader Tree := do
  let start ← here
  let generics ← typeParameters? rules
  let parameters ← parameters rules .function
  let result ← returnType rules "=>"
  node .functionType start (generics ++ [parameters, result])

def constructorType : Reader Tree := do
  let start ← here
  let _ ← eatWord "abstract"
  expectWord "new"
  let generics ← typeParameters? rules
  let parameters ← parameters rules .function
  let result ← returnType rules "=>"
  node .constructorType start (generics ++ [parameters, result])

/-! ## Members of object types -/

def isKeyToken : Token → Bool
  | .word _ _ | .string _ _ | .number _ | .bigint _ | .privateName _ => true
  | .punct text => text = "["
  | _ => false

def isAtIndexSignature : Reader Bool :=
  wouldBe do
    expect "["
    let _ ← identifier .name
    isAt ":"

def indexSignature (start : Nat) : Reader Tree := do
  expect "["
  let name ← identifier .name
  let keyType ← ascription rules
  expect "]"
  let type ← ascription rules
  node .indexSignature start [name, keyType, type]

def signature (host : ParameterHost) : Reader (List Tree) := do
  let generics ← typeParameters? rules
  let parameters ← parameters rules host
  let result ← returnType? rules
  return generics ++ parameters :: result

def typeMemberSeparator : Reader Unit := do
  unless ← eat "," do semicolon

def access? : Reader (Option Access) := do
  if (← isAtAnyWord ["get", "set"]) && (← nextIs fun next _ => isKeyToken next) then
    let access := if ← isAtWord "get" then Access.getter else .setter
    advance
    return some access
  return none

def keyedMember (start : Nat) : Reader Tree := do
  let words ← modifiers
  allowModifiers ["readonly"] words
  match ← access? with
  | some access =>
    let (key, computed) ← propertyKey rules
    let parameters ← parameters rules .function
    let result ← returnType? rules
    check (words.isEmpty && (access ≠ .setter || result.isEmpty))
    node (.methodSignature access computed) start (key :: parameters :: result)
  | none =>
    if ← isAtIndexSignature then indexSignature rules start
    else
      let (key, computed) ← propertyKey rules
      let _ ← eat "?"
      if (← isAt "(") || (← isAt "<") then
        check words.isEmpty
        node (.methodSignature .plain computed) start (key :: (← signature rules .function))
      else
        node (.propertySignature computed) start (key :: (← ascription? rules))

def typeMember : Reader Tree := do
  let start ← here
  let member ← if (← isAt "(") || (← isAt "<") then
      node .callSignature start (← signature rules .function)
    else if (← isAtWord "new") &&
        (← nextIs fun next _ => next = .punct "(" || next = .punct "<") then
      advance
      node .constructSignature start (← signature rules .function)
    else keyedMember rules start
  typeMemberSeparator
  return member

def typeMembers : Reader (List Tree) := do
  expect "\x7b"
  let members ← itemsUntil "\x7d" (typeMember rules)
  expect "\x7d"
  return members

/-! ## Mapped and tuple types -/

def signed (mark : Reader Bool) : Reader Bool := do
  if (← isAt "+") || (← isAt "-") then
    advance
    require (← mark)
    return true
  else mark

def isAtMappedType : Reader Bool :=
  wouldBe do
    expect "\x7b"
    let _ ← signed (eatWord "readonly")
    expect "["
    let _ ← identifier .name
    isAtWord "in"

def mappedType : Reader Tree := do
  let start ← here
  expect "\x7b"
  let _ ← signed (eatWord "readonly")
  expect "["
  let key ← binding
  expectWord "in"
  let keys ← rules .type
  let renamed ← if ← eatWord "as" then pure [← rules .type] else pure []
  expect "]"
  let _ ← signed (eat "?")
  let value ← if ← eat ":" then pure [← rules .type] else pure []
  let _ ← eat ";"
  expect "\x7d"
  node .mappedType start (key :: keys :: (renamed ++ value))

def isAtTupleLabel : Reader Bool :=
  wouldBe do
    let _ ← eat "..."
    let _ ← word .name
    let _ ← eat "?"
    isAt ":"

def plainTupleMember : Reader Tree := do
  let start ← here
  if ← eat "..." then
    let type ← rules .type
    node .restType start [type]
  else
    match ← rules .type with
    | .node (.nullableType true) span [type] => return .node .optionalType span [type]
    | type => return type

def namedTupleMember (isRest : Bool) : Reader Tree := do
  let start ← here
  let name ← word .name
  let isOptional ← eat "?"
  expect ":"
  let type ← plainTupleMember rules
  check (!(isRest && isOptional) && type.kind ≠ .restType && type.kind ≠ .optionalType)
  node (.namedTupleMember isOptional) start [name, type]

def tupleMember : Reader Tree := do
  let start ← here
  if ← isAtTupleLabel then
    if ← eat "..." then
      let member ← namedTupleMember rules true
      node .restType start [member]
    else namedTupleMember rules false
  else plainTupleMember rules

def tupleType : Reader Tree := do
  let start ← here
  expect "["
  let members ← commaItems "]" (tupleMember rules)
  check (areMembersOrdered false false members)
  expect "]"
  node .tupleType start members

/-! ## Templates -/

/-- The part of a template after a substitution, whose closing brace is the
current token. -/
def templateContinuation : Reader (Tree × Bool) := do
  require (← isAt "\x7d")
  let state ← get
  match readTemplate (state.start.rest.drop 1) with
  | none => failure
  | some (body, rest, isLast) =>
    let raw := '\x7d' :: body ++ (if isLast then ['\x60'] else ['$', '\x7b'])
    let start := state.start.offset
    jump (state.start.past raw rest)
    return (← node (.templateText (String.ofList body)) start [], isLast)

def templateParts (substitution : Reader Tree) : Reader (List Tree) := do
  match ← token with
  | .template raw isLast =>
    let first ← leaf (.templateText raw)
    if isLast then return [first]
    let (parts, closed) ← extend (fun (parts, closed) => do
      if closed then return none
      let inner ← substitution
      let (text, isLast) ← templateContinuation
      return some (parts ++ [inner, text], isLast)) ([first], false)
    require closed
    return parts
  | _ => failure

/-- Texts and substitutions of a template that is not given to a tag; all its
escapes must be readable. -/
def plainTemplateParts (substitution : Reader Tree) : Reader (List Tree) := do
  let parts ← templateParts substitution
  check (parts.all fun part => match part.kind with
    | .templateText raw => isPlainTemplate raw.length raw.toList
    | _ => true)
  return parts

/-! ## Types without operators -/

def keywordTypes : List String :=
  ["any", "unknown", "string", "number", "bigint", "symbol", "boolean", "undefined", "never",
   "object", "null"]

def literalType (start : Nat) (kind : Kind) : Reader Tree := do
  let value ← leaf kind
  node .literalType start [value]

def negativeType : Reader Tree := do
  let start ← here
  expect "-"
  let value ← match ← token with
    | .number raw => leaf (.number raw)
    | .bigint raw => leaf (.bigint raw)
    | _ => failure
  node .literalType start [← node (.unary "-") start [value]]

def assertedPredicate : Reader Tree := do
  let start ← here
  expectWord "asserts"
  let subject ← word .name
  let type ← if ← eatWord "is" then pure [← predicateType rules] else pure []
  node (.typePredicate true) start (subject :: type)

def thisType : Reader Tree := do
  let start ← here
  if ← nextIs fun next line => !line && next.isWord "is" then
    let subject ← leaf (.name "this")
    expectWord "is"
    let type ← predicateType rules
    node (.typePredicate false) start [subject, type]
  else leaf (.keywordType "this")

def wordType (text : String) : Reader Tree := do
  let start ← here
  if keywordTypes.contains text && !(← nextIs fun next _ => next = .punct ".") then
    leaf (.keywordType text)
  else match text with
    | "void" => leaf (.keywordType text)
    | "this" => thisType rules
    | "true" | "false" => literalType start (.boolean (text = "true"))
    | "typeof" => typeQuery rules
    | "import" => importType rules start
    | "asserts" =>
      let asserted ← nextIs fun next line => !line && match next with
        | .word _ _ => true
        | _ => false
      if asserted then assertedPredicate rules else typeReference rules
    | _ => typeReference rules

def questionedType : Reader Tree := do
  let start ← here
  expect "?"
  if ← isAtAny [",", "\x7d", ")", ">", "=", "|"] then node .unknownType start []
  else
    let type ← rules .type
    node (.nullableType false) start [type]

def primaryTypeRule : Reader Tree := do
  let start ← here
  match ← token with
  | .word text _ => wordType rules text
  | .string value _ => literalType start (.string value)
  | .number raw => literalType start (.number raw)
  | .bigint raw => literalType start (.bigint raw)
  | .template _ _ =>
    let parts ← plainTemplateParts (rules .type)
    node .templateType start parts
  | .punct "-" => negativeType
  | .punct "?" => questionedType rules
  | .punct "!" =>
    advance
    let type ← rules .primaryType
    node .nonNullType start [type]
  | .punct "\x7b" =>
    if ← isAtMappedType then mappedType rules
    else
      let members ← typeMembers rules
      node .typeLiteral start members
  | .punct "[" => tupleType rules
  | .punct "(" =>
    advance
    let type ← rules .type
    expect ")"
    node .parenthesizedType start [type]
  | _ => failure

def postfixType : Reader Tree := do
  let start ← here
  extend (fun type => do
    if ← newline then return none
    match ← token with
    | .punct "!" =>
      advance
      return some (← node .nonNullType start [type])
    | .punct "?" =>
      let conditional ← wouldBe do
        advance
        startsType
      if conditional then return none
      advance
      return some (← node (.nullableType true) start [type])
    | .punct "[" =>
      advance
      if ← eat "]" then return some (← node .arrayType start [type])
      let index ← rules .type
      expect "]"
      return some (← node .indexedAccessType start [type, index])
    | _ => return none) (← rules .primaryType)

def inferredBound : Reader (List Tree) := do
  let bound ← attempt do
    expectWord "extends"
    let bound ← within ({ · with noConditionalType := true }) (rules .type)
    require ((← context).noConditionalType || !(← isAt "?"))
    return bound
  return bound.toList

def hasElements (type : Tree) : Bool :=
  match type.kind with
  | .arrayType | .tupleType => true
  | _ => false

def typeOperandRule : Reader Tree := do
  let start ← here
  match ← token with
  | .word text _ =>
    if ["keyof", "unique", "readonly"].contains text then
      advance
      let type ← rules .typeOperand
      check (text ≠ "readonly" || hasElements type)
      node (.typeOperator text) start [type]
    else if text = "infer" then
      advance
      let parameterStart ← here
      let name ← binding
      let bound ← inferredBound rules
      let parameter ← node (.typeParameter (!bound.isEmpty)) parameterStart (name :: bound)
      node .inferType start [parameter]
    else within ({ · with noConditionalType := false }) (postfixType rules)
  | _ => within ({ · with noConditionalType := false }) (postfixType rules)

/-! ## Types with operators -/

def joinedType (operator : String) (kind : Kind) (member : Reader Tree) : Reader Tree := do
  let start ← here
  let leading ← eat operator
  let members ← separated operator member
  match members, leading with
  | [single], false => return single
  | _, _ => node kind start members

def unionType : Reader Tree :=
  joinedType "|" .unionType (joinedType "&" .intersectionType (rules .typeOperand))

def conditionalTypeRest (start : Nat) (type : Tree) : Reader Tree := do
  expectWord "extends"
  let matchStart ← here
  let bound ← within ({ · with noConditionalType := true }) (rules .type)
  expect "?"
  let yes ← within ({ · with noConditionalType := false }) (rules .type)
  let matched ← node .conditionalMatch matchStart [bound, yes]
  expect ":"
  let no ← within ({ · with noConditionalType := false }) (rules .type)
  node .conditionalType start [type, matched, no]

def typeRule : Reader Tree := do
  let start ← here
  if (← isAt "<") || ((← isAt "(") && (← opensFunctionType rules)) then functionType rules
  else if (← isAtWord "new") ||
      ((← isAtWord "abstract") && (← nextIs fun next _ => next.isWord "new")) then
    constructorType rules
  else
    let type ← unionType rules
    if !(← context).noConditionalType && !(← newline) && (← isAtWord "extends") then
      conditionalTypeRest rules start type
    else return type

end Reader

end ComponentMacros
