import ComponentMacros.Grammar.Class

/-!
# Declarations

Variables, type aliases, interfaces, enumerations and namespaces.
-/

namespace ComponentMacros.Reader

variable (rules : Rules)

/-! ## Variables -/

def isBinding (target : Tree) : Bool :=
  match target.kind with
  | .binding _ => true
  | _ => false

def isUsingKeyword (keyword : String) : Bool :=
  keyword = "using" || keyword = "await using"

/-- A declared name or pattern, with its type and value. In a loop head the
value may be missing; where nothing is run, only a constant without a type has
one. -/
def declarator (keyword : String) (inHead : Bool) : Reader Tree := do
  let start ← here
  let target ← rules .pattern
  check (!isUsingKeyword keyword || isBinding target)
  let isDefinite ← eatIf ((← typed) && isBinding target && !(← newline)) "!"
  let type ← ascription? rules
  let value ← if ← eat "=" then pure [← rules .assignment] else pure []
  let ambient := (← context).ambient
  let needsValue := !(keyword = "var" || keyword = "let") || !isBinding target
  check (!value.isEmpty || inHead || ambient || !needsValue)
  check (!isDefinite || (value.isEmpty && !type.isEmpty))
  check (value.isEmpty || !ambient || (keyword = "const" && type.isEmpty))
  node (.declarator keyword) start (target :: (type ++ value))

def usingKeyword? : Reader (Option String) := do
  if (← isAtWord "using") && (← nextIsNameOnLine) then return some "using"
  let awaited ← wouldBe do
    expectWord "await"
    return !(← newline) && (← isAtWord "using") && (← nextIsNameOnLine)
  return if awaited then some "await using" else none

def headKeyword? : Reader (Option String) := do
  match ← token with
  | .word "var" _ => return some "var"
  | .word "const" _ => return some "const"
  | .word "let" _ =>
    let declares ← nextIs fun next _ => match next with
      | .word text _ => text ≠ "in"
      | next => next = .punct "\x7b" || next = .punct "["
    return if declares then some "let" else none
  | .word "using" _ =>
    if ← nextIs fun next _ => next.isWord "of" then return none else usingKeyword?
  | _ => usingKeyword?

def variableList (keyword : String) (inHead : Bool) (start : Nat) : Reader Tree := do
  if keyword = "await using" then advance
  advance
  let declarators ← separated "," (declarator rules keyword inHead)
  node (.variableDeclaration keyword) start declarators

def variableStatement (keyword : String) (start : Nat) : Reader Tree := do
  let declaration ← variableList rules keyword false start
  semicolon
  node declaration.kind start declaration.children

/-! ## Types -/

def typeAlias (start : Nat) : Reader Tree := do
  expectWord "type"
  let name ← binding
  let tailStart ← here
  let generics ← typeParameters? rules
  expect "="
  let type ← rules .type
  let tail ← node .typeAliasTail tailStart (generics ++ [type])
  semicolon
  node .typeAlias start [name, tail]

def interfaceParent : Reader Tree := do
  let start ← here
  let name ← qualified start (← identifier .identifier)
  let arguments ← typeArguments? rules
  let parent ← node .typeReference start (name :: arguments)
  node .interfaceExtends start [parent]

def interfaceDeclaration (start : Nat) : Reader Tree := do
  expectWord "interface"
  let name ← binding
  let tailStart ← here
  let generics ← typeParameters? rules
  let parents ← if ← eatWord "extends" then separated "," (interfaceParent rules) else pure []
  let bodyStart ← here
  let members ← typeMembers rules
  let body ← node .interfaceBody bodyStart members
  let tail ← node .interfaceTail tailStart (generics ++ parents ++ [body])
  node .interfaceDeclaration start [name, tail]

/-- The name of an enumeration's member, and whether it is in brackets, where it
is a string. -/
def enumKey : Reader (Tree × Bool) := do
  match ← token with
  | .word text _ => return (← nameLeaf (.name text), false)
  | .string value _ => return (← leaf (.string value), false)
  | .punct "[" =>
    advance
    let keyStart ← here
    let key ← match ← token with
      | .string value _ => leaf (.string value)
      | _ => do
        let parts ← plainTemplateParts failure
        node .template keyStart parts
    expect "]"
    return (key, true)
  | _ => failure

def enumMember : Reader Tree := do
  let start ← here
  let (key, computed) ← enumKey
  let value ← optional (← isAt "=") (initializer rules)
  node (.enumMember computed) start (key :: value)

def enumDeclaration (start : Nat) : Reader Tree := do
  let _ ← eatWord "const"
  expectWord "enum"
  let name ← binding
  let bodyStart ← here
  expect "\x7b"
  let members ← commaItems "\x7d" (enumMember rules)
  expect "\x7d"
  let body ← node .enumBody bodyStart members
  node .enumDeclaration start [name, body]

/-! ## Namespaces -/

def moduleBody : Reader Tree := do
  let start ← here
  expect "\x7b"
  let inside := fun (c : Context) =>
    { dialect := c.dialect, pageComments := c.pageComments, ambient := c.ambient }
  let statements ← within inside (itemsUntil "\x7d" (rules .statement))
  expect "\x7d"
  node .moduleBody start statements

def moduleTailRule : Reader Tree := do
  let start ← here
  let name ← binding
  let bodyStart ← here
  if ← eat "." then
    let inner ← rules .moduleTail
    let body ← node .moduleBody bodyStart [inner]
    node .moduleDeclaration start [name, body]
  else
    let body ← moduleBody rules
    node .moduleDeclaration start [name, body]

def moduleDeclaration (start : Nat) : Reader Tree := do
  if ← isAtWord "global" then
    let name ← leaf (.name "global")
    let body ← moduleBody rules
    node .moduleDeclaration start [name, body]
  else
    let mayQuote ← isAtWord "module"
    advance
    match ← token with
    | .string value _ =>
      require mayQuote
      let name ← leaf (.string value)
      let body ← optional (← isAt "\x7b") (moduleBody rules)
      if body.isEmpty then semicolon
      node .moduleDeclaration start (name :: body)
    | _ =>
      let tail ← rules .moduleTail
      node .moduleDeclaration start tail.children

def importEqualsRest (start : Nat) : Reader Tree := do
  let name ← binding
  expect "="
  let target ← if ← eatWord "require" then do
      expect "("
      let specifier ← moduleSpecifier
      expect ")"
      pure specifier
    else entityName
  semicolon
  node .importEquals start [name, target]

/-! ## Choosing a declaration -/

def isAtFunction : Reader Bool := do
  return (← isAtWord "function") || ((← isAtWord "async") &&
    (← nextIs fun next line => !line && next.isWord "function"))

def typedDeclarationWords : List String :=
  accessModifiers ++
    ["interface", "type", "module", "namespace", "declare", "enum", "abstract", "accessor",
     "static", "readonly", "global", "async"]

def isAtDeclarationHead : Reader Bool := do
  match ← token with
  | .word text _ =>
    match text with
    | "var" | "let" | "const" | "function" | "class" | "enum" => return true
    | "interface" | "type" => nextIsNameOnLine
    | "module" | "namespace" => nextIs fun next line => !line && match next with
      | .string _ _ => true
      | next => isNameToken next
    | "global" => nextIs fun next _ => next = .punct "\x7b"
    | "import" => nextIs fun next _ => match next with
      | .word _ _ | .string _ _ => true
      | next => next = .punct "*" || next = .punct "\x7b"
    | _ => return false
  | _ => return false

def isAtTypedDeclaration : Reader Bool := do
  if !(← typed) || !(← isAtAnyWord typedDeclarationWords) then return false
  wouldBe do
    let _ ← many do
      if ← isAtWord "static" then
        skip
        return some ()
      if ← isAtAnyWord
          (accessModifiers ++ ["abstract", "accessor", "async", "declare", "readonly"]) then
        skip
        require (!(← newline))
        return some ()
      return none
    isAtDeclarationHead

/-- The modifiers before a declaration. `async` is part of a function. -/
def declarationModifiers : Reader (List String) :=
  modifiersUntil (· = "async") false

def declarationRest (words : List String) (start : Nat) : Reader Tree := do
  if ← isAtWord "class" then classRest rules start [] words true
  else
    allowModifiers ["declare"] words
    let typed ← typed
    within (Context.declaredBy words) do
      if ← isAtFunction then
        let declared := words.contains "declare"
        check (!(declared && (← isAtWord "async")))
        functionDeclaration rules false declared start
      else match ← token with
        | .word "const" _ =>
          if typed && (← nextIs fun next _ => next.isWord "enum") then enumDeclaration rules start
          else variableStatement rules "const" start
        | .word "var" _ => variableStatement rules "var" start
        | .word "let" _ => variableStatement rules "let" start
        | .word text _ =>
          require typed
          match text with
          | "type" => typeAlias rules start
          | "interface" => interfaceDeclaration rules start
          | "enum" => enumDeclaration rules start
          | "module" | "namespace" | "global" => moduleDeclaration rules start
          | "import" =>
            advance
            let _ ← eatWordIf (← nextIs fun next _ => isNameToken next) "type"
            importEqualsRest start
          | _ => failure
        | _ => failure

def typedDeclaration (start : Nat) : Reader Tree := do
  let words ← declarationModifiers
  within ({ · with awaits := false }) (declarationRest rules words start)

end ComponentMacros.Reader
