import ComponentMacros.Grammar.Expression
import ComponentMacros.Grammar.Module

/-!
# Statements
-/

namespace ComponentMacros.Reader

variable (rules : Rules)

def block : Reader Tree := do
  let start ← here
  expect "\x7b"
  let statements ← itemsUntil "\x7d" (rules .statement)
  expect "\x7d"
  node .block start statements

def fullExpression : Reader Tree :=
  within ({ · with noIn := false }) (rules .expression)

def condition : Reader Tree := do
  expect "("
  let test ← fullExpression rules
  expect ")"
  return test

def ifStatement : Reader Tree := do
  let start ← here
  expectWord "if"
  let test ← condition rules
  let yes ← rules .substatement
  let no ← if ← eatWord "else" then pure [← rules .substatement] else pure []
  node .ifStatement start (test :: yes :: no)

def whileStatement : Reader Tree := do
  let start ← here
  expectWord "while"
  let test ← condition rules
  let body ← rules .substatement
  node .whileStatement start [test, body]

def doWhileStatement : Reader Tree := do
  let start ← here
  expectWord "do"
  let body ← rules .substatement
  expectWord "while"
  let test ← condition rules
  let _ ← eat ";"
  node .doWhileStatement start [body, test]

/-! ## Loops over a head -/

def headPart (close : String) (part : Reader Tree) : Reader Tree := do
  let start ← here
  if ← isAt close then return .node .omitted ⟨start, start⟩ []
  part

def forRest (start : Nat) (first : Tree) : Reader Tree := do
  expect ";"
  let test ← headPart ";" (fullExpression rules)
  expect ";"
  let update ← headPart ")" (fullExpression rules)
  expect ")"
  let body ← rules .substatement
  node .forStatement start [first, test, update, body]

/-- A loop over the values or keys of something, after its variable. Only values
are waited for. -/
def forEachRest (start : Nat) (first : Tree) (awaits : Bool) : Reader Tree := do
  if ← eatWord "of" then
    let subject ← within ({ · with noIn := false }) (rules .assignment)
    expect ")"
    let body ← rules .substatement
    node (.forOfStatement awaits) start [first, subject, body]
  else
    expectWord "in"
    check (!awaits)
    let subject ← fullExpression rules
    expect ")"
    let body ← rules .substatement
    node .forInStatement start [first, subject, body]

def isInitialized (declaration : Tree) : Bool :=
  declaration.children.all fun declarator =>
    match declarator.kind, declarator.children with
    | .declarator keyword, target :: parts =>
      let plain := match target.kind with
        | .binding _ => true
        | _ => false
      (plain && (keyword = "var" || keyword = "let")) || parts.any (·.kind.isExpression)
    | _, _ => true

/-- The head of a loop starts with `async of`, which is no variable called
`async`. -/
def isAtAsyncOf : Reader Bool := do
  return (← token) = .word "async" false && (← nextIs fun next _ => next.isWord "of")

def forStatement : Reader Tree := do
  let start ← here
  expectWord "for"
  let awaits ← isAtWord "await"
  if awaits then
    check (← context).awaits
    advance
  expect "("
  let firstStart ← here
  let isEach : Reader Bool := return (← isAtWord "of") || (← isAtWord "in")
  match ← headKeyword? with
  | some keyword =>
    let first ← within ({ · with noIn := true }) (variableList rules keyword true firstStart)
    if ← isEach then
      -- keys are nothing to dispose of
      check (!isUsingKeyword keyword || (← isAtWord "of"))
      forEachRest rules start first awaits
    else
      check ((isInitialized first || (← context).ambient) && !awaits)
      forRest rules start first
  | none =>
    let asyncOf ← isAtAsyncOf
    let first ← headPart ";" (within ({ · with noIn := true }) (rules .expression))
    if ← isEach then
      check (!(asyncOf && !awaits && (← isAtWord "of")))
      match first.toTarget? with
      | some target => forEachRest rules start target awaits
      | none => failure
    else
      check (!awaits)
      forRest rules start first

/-! ## Jumps -/

def jumpStatement (keyword : String) (kind : Kind) : Reader Tree := do
  let start ← here
  expectWord keyword
  let label ← optional (!(← newline) && (← isAtIdentifier)) (identifier .name)
  semicolon
  node kind start label

def debuggerStatement : Reader Tree := do
  let start ← here
  expectWord "debugger"
  semicolon
  node .debuggerStatement start []

def returnStatement : Reader Tree := do
  let start ← here
  check (← context).returns
  expectWord "return"
  let ended := (← isAt ";") || (← isAt "\x7d") || (← newline) || (← token) = .done
  let value ← optional (!ended) (fullExpression rules)
  semicolon
  node .returnStatement start value

def throwStatement : Reader Tree := do
  let start ← here
  expectWord "throw"
  check (!(← newline))
  let value ← fullExpression rules
  semicolon
  node .throwStatement start [value]

/-! ## Switches and handlers -/

def isUsingDeclaration (statement : Tree) : Bool :=
  match statement.kind with
  | .variableDeclaration keyword => isUsingKeyword keyword
  | _ => false

def switchCase : Reader Tree := do
  let start ← here
  let isDefault ← eatWord "default"
  let test ← if isDefault then pure [] else do
    expectWord "case"
    pure [← rules .expression]
  expect ":"
  let statements ← many do
    if (← isAt "\x7d") || (← isAtWord "case") || (← isAtWord "default") then return none
    return some (← rules .statement)
  check (!statements.any isUsingDeclaration)
  node (.switchCase isDefault) start (test ++ statements)

def switchStatement : Reader Tree := do
  let start ← here
  expectWord "switch"
  let subject ← condition rules
  let blockStart ← here
  expect "\x7b"
  let cases ← itemsUntil "\x7d" (switchCase rules)
  expect "\x7d"
  let cases ← node .caseBlock blockStart cases
  node .switchStatement start [subject, cases]

def catchClause : Reader Tree := do
  let start ← here
  expectWord "catch"
  let parameter ← if ← eat "(" then do
      let parameterStart ← here
      let target ← rules .pattern
      let type ← ascription? rules
      let parameter ← node .catchParameter parameterStart (target :: type)
      expect ")"
      pure [parameter]
    else pure []
  let body ← block rules
  node .catchClause start (parameter ++ [body])

def tryStatement : Reader Tree := do
  let start ← here
  expectWord "try"
  let body ← block rules
  let handler ← optional (← isAtWord "catch") (catchClause rules)
  let finalizer ← if ← eatWord "finally" then do
      let start ← here
      let body ← block rules
      pure [← node .finallyClause start [body]]
    else pure []
  require (!(handler ++ finalizer).isEmpty)
  node .tryStatement start (body :: (handler ++ finalizer))

def withStatement : Reader Tree := do
  let start ← here
  expectWord "with"
  let object ← condition rules
  let bodyStart ← here
  let body ← rules .substatement
  let body ← node .withBody bodyStart [body]
  node .withStatement start [object, body]

/-! ## Expressions and labels -/

def expressionStatement : Reader Tree := do
  let start ← here
  let expression ← rules .expression
  semicolon
  node .expressionStatement start [expression]

def labeledStatement : Reader Tree := do
  let start ← here
  let label ← identifier .name
  expect ":"
  let body ← rules .substatement
  node .labeledStatement start [label, body]

def expressionOrLabel : Reader Tree := do
  if (← isAtIdentifier) && (← nextIs fun next _ => next = .punct ":") then labeledStatement rules
  else expressionStatement rules

/-! ## Declarations as statements -/

def decoratedStatement : Reader Tree := do
  let start ← here
  let decorators ← decorators rules
  if ← isAtWord "export" then exportDeclaration rules start decorators
  else
    let words ← modifiers
    classRest rules start decorators words true

def functionStatement (isPart : Bool) : Reader Tree := do
  let function ← functionDeclaration rules false false (← here)
  check (!isPart || match function.kind with
    | .function _ isAsync isGenerator => !isAsync && !isGenerator
    | _ => true)
  return function

def constStatement (isPart : Bool) : Reader Tree := do
  let start ← here
  if (← typed) && (← nextIs fun next _ => next.isWord "enum") then enumDeclaration rules start
  else
    check (!isPart)
    variableStatement rules "const" start

def operatorsAfterLet : List String :=
  assignmentOperators ++
    ["==", "!=", "===", "!==", "<", ">", "+", "-", "*", "/", "%", "|", "^", "&", "**", ".", "("]

/-- `let` as the start of an expression, as an expression of its own, or as the
keyword of a declaration. -/
def letStatement (isPart : Bool) : Reader Tree := do
  let start ← here
  let isOperand ← nextIs fun next _ => match next with
    | .punct text => operatorsAfterLet.contains text
    | next => next.isAnyWord ["in", "instanceof"]
  if isOperand then expressionStatement rules
  else if ← nextIs fun next _ => next = .punct ";" || (isPart && next ≠ .punct "[") then
    let name ← identifier .identifier
    semicolon
    node .expressionStatement start [name]
  else
    check (!isPart)
    variableStatement rules "let" start

/-! ## All statements -/

def keywordStatement? (isPart : Bool) : Reader (Option Tree) := do
  match ← token with
  | .word text _ =>
    match text with
    | "if" => return some (← ifStatement rules)
    | "while" => return some (← whileStatement rules)
    | "do" => return some (← doWhileStatement rules)
    | "for" => return some (← forStatement rules)
    | "continue" => return some (← jumpStatement "continue" .continueStatement)
    | "break" => return some (← jumpStatement "break" .breakStatement)
    | "return" => return some (← returnStatement rules)
    | "throw" => return some (← throwStatement rules)
    | "try" => return some (← tryStatement rules)
    | "switch" => return some (← switchStatement rules)
    | "with" => return some (← withStatement rules)
    | "debugger" => return some (← debuggerStatement)
    | "export" => return some (← exportDeclaration rules (← here) [])
    | "import" =>
      if ← nextIs fun next _ => next = .punct "(" || next = .punct "." then return none
      return some (← importDeclaration (← here))
    | "var" => return some (← variableStatement rules "var" (← here))
    | "const" => return some (← constStatement rules isPart)
    | "class" =>
      check (!isPart)
      return some (← classRest rules (← here) [] [] true)
    | _ => return none
  | _ => return none

def otherStatement (isPart : Bool) : Reader Tree := do
  if ← isAtFunction then functionStatement rules isPart
  else if (← token) = .word "let" false then letStatement rules isPart
  else match ← usingKeyword? with
    | some keyword =>
      check (!isPart)
      variableStatement rules keyword (← here)
    | none =>
      if ← isAtTypedDeclaration then typedDeclaration rules (← here) else expressionOrLabel rules

def statementRule (isPart : Bool) : Reader Tree := do
  match ← token with
  | .punct "\x7b" => block rules
  | .punct ";" => leaf .emptyStatement
  | .punct "@" => decoratedStatement rules
  | _ =>
    match ← keywordStatement? rules isPart with
    | some statement => return statement
    | none => otherStatement rules isPart

end ComponentMacros.Reader
