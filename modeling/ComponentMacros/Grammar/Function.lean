import ComponentMacros.Grammar.Type

/-!
# Functions

Bodies, headers and methods.
-/

namespace ComponentMacros

namespace Context

def inFunction (isAsync isGenerator : Bool) (c : Context) : Context :=
  { dialect := c.dialect, pageComments := c.pageComments, ambient := c.ambient,
    awaits := isAsync, yields := isGenerator, returns := true }

def inArrow (isAsync : Bool) (c : Context) : Context :=
  { c.inFunction isAsync false with noIn := c.noIn }

end Context

namespace Reader

variable (rules : Rules)

def functionBody (change : Context → Context) : Reader Tree := do
  let start ← here
  expect "\x7b"
  let statements ← within change (itemsUntil "\x7d" (rules .statement))
  expect "\x7d"
  node .functionBody start statements

/-- A body, if there is one. Only a typed dialect lets it be missing, and then
the statement ends. -/
def functionBody? (isAsync isGenerator : Bool) : Reader (List Tree) := do
  if ← isAt "\x7b" then
    return [← functionBody rules (Context.inFunction isAsync isGenerator)]
  else
    require (← typed)
    semicolon
    return []

def functionHeader (host : ParameterHost) (isAsync isGenerator : Bool) : Reader (List Tree) :=
  within (Context.inFunction isAsync isGenerator) (signature rules host)

def methodFunction (host : ParameterHost) (isAsync isGenerator : Bool) : Reader Tree := do
  let start ← here
  check (!(isGenerator && (← context).ambient))
  let header ← functionHeader rules host isAsync isGenerator
  let body ← functionBody? rules isAsync isGenerator
  let role := if body.isEmpty then FunctionRole.signature else .expression
  node (.function role isAsync isGenerator) start (header ++ body)

def functionExpression : Reader Tree := do
  let start ← here
  let isAsync ← eatWord "async"
  expectWord "function"
  let isGenerator ← eat "*"
  let name ← within (Context.inFunction isAsync isGenerator) do
    optional (isNameToken (← token)) binding
  let header ← functionHeader rules .function isAsync isGenerator
  let body ← functionBody? rules isAsync isGenerator
  node (.function .expression isAsync isGenerator) start (name ++ header ++ body)

def functionDeclaration (nameless declared : Bool) (start : Nat) : Reader Tree := do
  let isAsync ← eatWord "async"
  expectWord "function"
  let isGenerator ← eat "*"
  check (!(isGenerator && (← context).ambient))
  let name ← optional (!nameless || isNameToken (← token)) binding
  let header ← functionHeader rules .function isAsync isGenerator
  let body ← functionBody? rules isAsync isGenerator
  check (!declared || body.isEmpty)
  let role := if body.isEmpty then FunctionRole.signature else .declaration
  node (.function role isAsync isGenerator) start (name ++ header ++ body)

/-! ## Accessors -/

def ownParameters (function : Tree) : List Tree :=
  match function.find? (· = .parameters) with
  | some list => list.children.filter (·.kind ≠ .thisParameter)
  | none => []

/-- The function takes what its access gives it: a getter nothing, a setter one
value, and a setter returns nothing. In a typed dialect the value has no default. -/
def fitsAccess (typed : Bool) (access : Access) (function : Tree) : Bool :=
  match access, ownParameters function with
  | .plain, _ => true
  | .getter, own => own.isEmpty
  | .setter, [own] =>
    own.kind = .parameter && !(typed && own.children.any (·.kind.isExpression)) &&
      (function.find? (· = .ascription)).isNone
  | .setter, _ => false

end Reader

end ComponentMacros
