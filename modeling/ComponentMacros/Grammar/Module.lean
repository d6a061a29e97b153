import ComponentMacros.Grammar.Declaration

/-!
# Imports and exports
-/

namespace ComponentMacros.Reader

variable (rules : Rules)

/-! ## Names -/

def moduleName : Reader Tree := do
  match ← token with
  | .string value plain =>
    check plain
    leaf (.string value)
  | _ => word .name

def nameText (t : Tree) : String :=
  match t.kind with
  | .name text | .string text | .identifier text => text
  | _ => ""

def isAtModuleName : Reader Bool := do
  match ← token with
  | .word _ _ | .string _ _ => return true
  | _ => return false

/-- `type` in a list marks the entry as a type, rather than naming it: what
follows is a name, and it is not `as` with one more name after it. -/
def isAtTypeMark : Reader Bool := do
  if !(← typed) || !(← isAtWord "type") then return false
  wouldBe do
    skip
    if ← isAtWord "as" then
      -- `type as`, `type as as x` mark; `type as x`, `type as as` name
      skip
      if ← isAtWord "as" then
        skip
        isAtModuleName
      else return !(← isAtModuleName)
    else isAtModuleName

/-- The mark of an entry that is a type, if it is there. In a list that is marked
as a whole no entry is marked. -/
def typeMark (inMarked : Bool) : Reader Bool := do
  let marked ← isAtTypeMark
  if marked then
    advance
    check (!inMarked)
  return marked

def attributeName : Reader Tree := do
  match ← token with
  | .string value _ => leaf (.string value)
  | _ => word .name

/-- Attributes after `with`, or `assert` on the same line. No name is given
twice. -/
def importAttributes : Reader (List Tree) := do
  if (← isAtWord "with") || ((← isAtWord "assert") && !(← newline)) then
    let start ← here
    advance
    expect "\x7b"
    let entries ← commaItems "\x7d" do
      let start ← here
      let key ← attributeName
      expect ":"
      let value ← moduleSpecifier
      node .importAttribute start [key, value]
    expect "\x7d"
    check (decide (entries.flatMap (·.children.take 1 |>.map nameText)).Nodup)
    return [← node .importAttributes start entries]
  else return []

def noteModule : Reader Unit := do
  if (← context).topLevel then modify ({ · with moduleSyntax := true })

/-! ## Imports -/

def importSpecifier (inMarked : Bool) : Reader Tree := do
  let start ← here
  let typeOnly ← typeMark inMarked
  let bare ← identifier?
  let imported ← moduleName
  if ← eatWord "as" then
    let own ← binding
    node (.importSpecifier (nameText imported) typeOnly) start [imported, own]
  else
    match bare with
    | some name =>
      check (!suspendingWords.contains name)
      node (.importSpecifier name typeOnly) start [.node (.binding name) imported.span []]
    | none => failure

def namedImports (inMarked : Bool) : Reader (List Tree) := do
  expect "\x7b"
  let specifiers ← commaItems "\x7d" (importSpecifier inMarked)
  expect "\x7d"
  return specifiers

def namespaceImport : Reader Tree := do
  let start ← here
  expect "*"
  expectWord "as"
  let name ← binding
  node .importNamespace start [name]

def importClause (typeOnly : Bool) : Reader (List Tree) := do
  if ← isAt "\x7b" then namedImports typeOnly
  else if ← isAt "*" then return [← namespaceImport]
  else
    let start ← here
    let name ← binding
    let default ← node .importDefault start [name]
    if ← eat "," then
      if ← isAt "*" then return [default, ← namespaceImport]
      return default :: (← namedImports typeOnly)
    return [default]

def isAtImportTypeMark : Reader Bool := do
  if !(← typed) || !(← isAtWord "type") then return false
  wouldBe do
    skip
    if (← isAt "\x7b") || (← isAt "*") then return true
    if ← isAtWord "from" then
      -- the default import may be called `type`
      nextIs fun next _ => next.isWord "from" || next = .punct "="
    else return isNameToken (← token)

/-- A word that says in which phase of its loading a module is wanted, rather
than naming its default. -/
def isAtPhase : Reader Bool := do
  if ← isAtWord "defer" then nextIs fun next _ => next = .punct "*"
  else if ← isAtWord "source" then
    wouldBe do
      skip
      if ← isAtWord "from" then nextIs fun next _ => next.isWord "from"
      else return isNameToken (← token)
  else return false

def importSource (start : Nat) (typeOnly : Bool) (clause : List Tree) : Reader Tree := do
  let source ← moduleSpecifier
  let attributes ← importAttributes
  semicolon
  noteModule
  node (.importDeclaration typeOnly) start (clause ++ source :: attributes)

def importDeclaration (start : Nat) : Reader Tree := do
  expectWord "import"
  let typeOnly ← isAtImportTypeMark
  if typeOnly then advance
  let equals ← wouldBe do
    let _ ← binding
    isAt "="
  if (← typed) && equals then importEqualsRest start
  else
    match ← token with
    | .string _ _ => importSource start false []
    | _ =>
      if ← isAtPhase then advance
      let clause ← importClause typeOnly
      expectWord "from"
      importSource start typeOnly clause

/-! ## Exports -/

def exportSpecifier (inMarked : Bool) : Reader Tree := do
  let start ← here
  let typeOnly ← typeMark inMarked
  let own ← moduleName
  let exported ← if ← eatWord "as" then pure [← moduleName] else pure []
  node (.exportSpecifier typeOnly) start (own :: exported)

/-- The entry of a list that exports this module's own names, which are names a
module may declare. -/
def ownExport? : Tree → Option Tree
  | .node kind span (.node (.name name) nameSpan [] :: exported) =>
    if (reservedWords ++ suspendingWords ++ futureReservedWords).contains name then none
    else some (.node kind span (.node (.identifier name) nameSpan [] :: exported))
  | _ => none

def exportList (typeOnly : Bool) (start : Nat) : Reader Tree := do
  expect "\x7b"
  let specifiers ← commaItems "\x7d" (exportSpecifier typeOnly)
  expect "\x7d"
  if ← eatWord "from" then
    let source ← moduleSpecifier
    let attributes ← importAttributes
    semicolon
    node (.exportNamed typeOnly) start (specifiers ++ source :: attributes)
  else
    semicolon
    match specifiers.mapM ownExport? with
    | some specifiers => node (.exportNamed typeOnly) start specifiers
    | none => failure

def exportAll (typeOnly : Bool) (start : Nat) : Reader Tree := do
  expect "*"
  let name ← if ← eatWord "as" then pure [← moduleName] else pure []
  expectWord "from"
  let source ← moduleSpecifier
  let attributes ← importAttributes
  semicolon
  node (.exportAll typeOnly) start (name ++ source :: attributes)

def laterDecorators (earlier : List Tree) : Reader (List Tree) := do
  let own ← decorators rules
  check (earlier.isEmpty || own.isEmpty)
  return own

def exportDefault (start : Nat) (decorators : List Tree) : Reader Tree := do
  expectWord "default"
  let valueStart ← here
  let own ← laterDecorators rules decorators
  let isAbstract := (← isAtWord "abstract") &&
    (← nextIs fun next line => !line && next.isWord "class")
  let value ← if (← isAtWord "class") || isAbstract then do
      let words ← declarationModifiers
      classRest rules valueStart own words true
    else do
      require (decorators.isEmpty && own.isEmpty)
      if ← isAtFunction then functionDeclaration rules true false valueStart
      else if (← typed) && (← isAtWord "interface") then interfaceDeclaration rules valueStart
      else do
        let value ← rules .assignment
        semicolon
        pure value
  node .exportDefault start (decorators ++ [value])

def exportedDeclaration (start : Nat) (decorators : List Tree) : Reader Tree := do
  let declarationStart ← here
  let own ← laterDecorators rules decorators
  let words ← if ← typed then declarationModifiers else pure []
  let declaration ← if ← isAtWord "class" then classRest rules declarationStart own words true
    else do
      check (decorators.isEmpty && own.isEmpty)
      declarationRest rules words declarationStart
  node (.exportNamed false) start (decorators ++ [declaration])

def typedExport? (start : Nat) : Reader (Option Tree) := do
  if !(← typed) then return none
  if ← eat "=" then
    let value ← rules .assignment
    semicolon
    return some (← node .exportAssignment start [value])
  if (← isAtWord "as") && (← nextIs fun next _ => next.isWord "namespace") then
    advance
    advance
    let name ← identifier .name
    semicolon
    return some (← node .exportAsNamespace start [name])
  if (← isAtWord "type") && (← nextIs fun next _ => next = .punct "\x7b" || next = .punct "*") then
    advance
    noteModule
    return some (← if ← isAt "*" then exportAll true start else exportList true start)
  if ← isAtWord "import" then
    let declaration ← importDeclaration (← here)
    require (declaration.kind = .importEquals)
    noteModule
    return some (← node (.exportNamed false) start [declaration])
  return none

def exportDeclaration (start : Nat) (decorators : List Tree) : Reader Tree := do
  expectWord "export"
  match ← typedExport? rules start with
  | some declaration => return declaration
  | none =>
    noteModule
    if ← isAt "\x7b" then exportList false start
    else if ← isAt "*" then exportAll false start
    else if ← isAtWord "default" then exportDefault rules start decorators
    else exportedDeclaration rules start decorators

end ComponentMacros.Reader
