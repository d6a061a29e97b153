import ComponentMacros.Grammar.Modifier

/-!
# Patterns and parameters

What binds names: identifiers, destructuring patterns, and the parameter lists
of functions and function types.
-/

namespace ComponentMacros

/-- Whose parameters a list holds. What may stand before one depends on it. -/
inductive ParameterHost where
  | function
  | method
  | constructor
  deriving DecidableEq, Repr

def ParameterHost.modifiers : ParameterHost → List String
  | .constructor => accessModifiers ++ ["readonly", "override"]
  | _ => []

namespace Reader

variable (rules : Rules)

def ascription : Reader Tree := do
  let start ← here
  expect ":"
  let type ← within ({ · with noConditionalType := false }) (rules .type)
  node .ascription start [type]

def ascription? : Reader (List Tree) := do
  optional ((← typed) && (← isAt ":")) (ascription rules)

def initializer : Reader Tree := do
  expect "="
  within ({ · with noIn := false, noIndex := false }) (rules .assignment)

def defaulted (start : Nat) (target : Tree) : Reader Tree := do
  if ← isAt "=" then
    let value ← initializer rules
    node .defaultPattern start [target, value]
  else return target

def restElement (close : String) : Reader Tree := do
  let start ← here
  expect "..."
  let target ← rules .pattern
  check (← isAt close)
  node .restElement start [target]

def patternProperty : Reader Tree := do
  let start ← here
  if ← isAt "..." then
    let element ← restElement rules "\x7d"
    check (element.children.all fun target => match target.kind with
      | .binding _ => true
      | _ => false)
    return element
  else if isNameToken (← token) && !(← nextIs fun next _ => next = .punct ":") then
    let value ← defaulted rules start (← binding)
    node (.bindingProperty false true) start [value]
  else
    let (key, computed) ← propertyKey rules
    expect ":"
    let valueStart ← here
    let value ← defaulted rules valueStart (← rules .pattern)
    node (.bindingProperty computed false) start [key, value]

def patternElement : Reader Tree := do
  let start ← here
  if ← isAt "..." then restElement rules "]"
  else defaulted rules start (← rules .pattern)

/-- A list of elements with holes, up to a closing bracket that is left
standing. A hole is as long as its comma. -/
def elementsWithHoles (item : Reader Tree) : Reader (List Tree) :=
  many do
    if ← isAt "]" then return none
    if ← isAt "," then return some (← leaf .hole)
    let element ← item
    unless ← eat "," do require (← isAt "]")
    return some element

def patternRule : Reader Tree := do
  let start ← here
  if ← eat "\x7b" then
    let properties ← commaItems "\x7d" (patternProperty rules)
    expect "\x7d"
    node .objectPattern start properties
  else if ← eat "[" then
    let elements ← elementsWithHoles (patternElement rules)
    expect "]"
    node .arrayPattern start elements
  else binding

/-! ## Decorators -/

def decorator : Reader Tree := do
  let start ← here
  expect "@"
  let expression ← within ({ · with noIndex := true }) (rules .leftHandSide)
  node .decorator start [expression]

def decorators : Reader (List Tree) :=
  many do
    if ← isAt "@" then return some (← decorator rules)
    return none

/-! ## Parameters -/

def thisParameter : Reader Tree := do
  let start ← here
  expectWord "this"
  let type ← ascription? rules
  node .thisParameter start type

def restParameter (start : Nat) (decorators : List Tree) : Reader Tree := do
  expect "..."
  let target ← rules .pattern
  let type ← ascription? rules
  let ambient := (← context).ambient
  let last ← wouldBe do
    let _ ← eatIf ambient ","
    isAt ")"
  check last
  node .restParameter start (decorators ++ target :: type)

def parameter (host : ParameterHost) : Reader Tree := do
  let start ← here
  let decorators ← decorators rules
  check (decorators.isEmpty || (host ≠ .function && (← typed)))
  let modifiers ← modifiers
  allowModifiers (if ← typed then host.modifiers else []) modifiers
  if ← isAt "..." then
    check modifiers.isEmpty
    restParameter rules start decorators
  else
    let target ← rules .pattern
    check (modifiers.isEmpty || match target.kind with
      | .binding _ => true
      | _ => false)
    let isOptional ← eatIf (← typed) "?"
    let type ← ascription? rules
    let value ← optional (← isAt "=") (initializer rules)
    check (!isOptional || value.isEmpty)
    node .parameter start (decorators ++ target :: (type ++ value))

/-- A parenthesized parameter list. The first parameter may be `this`. -/
def parameters (host : ParameterHost) : Reader Tree := do
  let start ← here
  expect "("
  let receiver ← optional ((← typed) && (← isAtWord "this")) (thisParameter rules)
  unless receiver.isEmpty || (← isAt ")") do expect ","
  let items ← commaItems ")" (parameter rules host)
  expect ")"
  node .parameters start (receiver ++ items)

end Reader

end ComponentMacros
