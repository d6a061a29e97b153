import ComponentMacros.Grammar.Literal

/-!
# Classes

Class declarations and expressions and their members.
-/

namespace ComponentMacros

namespace Context

def inField (c : Context) : Context :=
  { c.inFunction false false with returns := false }

/-- The context of a block that a class runs, where `in` means what it means
around the class. -/
def inStaticBlock (c : Context) : Context :=
  { c.inFunction true false with returns := false, noIn := c.noIn }

def declaredBy (words : List String) (c : Context) : Context :=
  { c with ambient := c.ambient || words.contains "declare" }

end Context

/-- A member of a class before its value: where it starts, what stands before
its key, and the key. -/
structure MemberHead where
  start : Nat
  decorators : List Tree
  modifiers : List String
  key : Tree
  computed : Bool

namespace MemberHead

def has (head : MemberHead) (modifier : String) : Bool := head.modifiers.contains modifier

def isCalled (head : MemberHead) (name : String) : Bool :=
  !head.computed && match head.key.kind with
    | .name own | .string own => own = name
    | _ => false

/-- A private name is not that of the constructor, and no modifier says who may
use it or that it is defined elsewhere. -/
def isKeyAllowed (head : MemberHead) : Bool :=
  match head.key.kind with
  | .privateName name =>
    name ≠ "constructor" &&
      (accessModifiers ++ ["abstract", "declare"]).all fun word => !head.has word
  | _ => true

def isNameFree (head : MemberHead) : Bool :=
  if head.has "static" then !head.isCalled "prototype" else !head.isCalled "constructor"

end MemberHead

namespace Reader

variable (rules : Rules)

def staticBlock (start : Nat) : Reader Tree := do
  expectWord "static"
  expect "\x7b"
  let statements ← within Context.inStaticBlock (itemsUntil "\x7d" (rules .statement))
  expect "\x7d"
  node .staticBlock start statements

def memberKey : Reader (Tree × Bool) := do
  match ← token with
  | .privateName name => return (← leaf (.privateName name), false)
  | _ => propertyKey rules

def checkUndefined (head : MemberHead) (hasDefinition : Bool) : Reader Unit := do
  check (!(hasDefinition && (head.has "abstract" || (← context).ambient)))

def methodRest (head : MemberHead) (isGenerator : Bool) : Reader Tree := do
  allowModifiers (accessModifiers ++ ["static", "abstract", "override", "async"]) head.modifiers
  let isAsync := head.has "async"
  check (head.isKeyAllowed && (head.isNameFree || !(isGenerator || isAsync)))
  check (!(head.has "static" && !head.isNameFree))
  let value ← methodFunction rules .method isAsync isGenerator
  checkUndefined head (value.kind = .function .expression isAsync isGenerator)
  node (.method .plain head.computed head.modifiers) head.start
    (head.decorators ++ [head.key, value])

def accessorRest (head : MemberHead) (access : Access) : Reader Tree := do
  allowModifiers (accessModifiers ++ ["static", "abstract", "override"]) head.modifiers
  check (head.isKeyAllowed && head.isNameFree)
  let value ← methodFunction rules .method false false
  check (fitsAccess (← typed) access value)
  checkUndefined head (value.kind = .function .expression false false)
  node (.method access head.computed head.modifiers) head.start
    (head.decorators ++ [head.key, value])

def constructorRest (head : MemberHead) : Reader Tree := do
  check head.decorators.isEmpty
  allowModifiers accessModifiers head.modifiers
  let value ← methodFunction rules .constructor false false
  check (value.children.all fun part => match part.kind with
    | .parameters => part.children.all (·.kind ≠ .thisParameter)
    | kind => kind = .functionBody)
  checkUndefined head (value.kind = .function .expression false false)
  node (.method .plain head.computed head.modifiers) head.start [head.key, value]

/-- A field after its key and the mark of an optional one. What only declares
may still say what a constant is. -/
def fieldRest (head : MemberHead) (isOptional : Bool) : Reader Tree := do
  allowModifiers
    (accessModifiers ++
      ["static", "abstract", "override", "readonly", "declare", "accessor", "async"])
    head.modifiers
  check (head.isKeyAllowed && head.isNameFree && !head.isCalled "constructor")
  check (!(head.has "accessor" && (isOptional || head.has "async")))
  let isDefinite ← eatIf (!(← newline)) "!"
  check (!(isOptional && isDefinite))
  let type ← ascription? rules
  let value ← within Context.inField do
    optional (← isAt "=") (initializer rules)
  check (value.isEmpty || !head.has "abstract")
  check (value.isEmpty || !(← context).ambient || (head.has "readonly" && type.isEmpty))
  semicolon
  node (.field head.computed head.modifiers) head.start
    (head.decorators ++ head.key :: (type ++ value))

def isAtConstructor : Reader Bool := do
  let called := match ← token with
    | .word name _ | .string name _ => name = "constructor"
    | _ => false
  return called && (← nextIs fun next _ => next = .punct "(" || next = .punct "<")

def classMemberRest (start : Nat) (decorators : List Tree) (modifiers : List String) :
    Reader Tree := do
  match ← access? with
  | some access =>
    let (key, computed) ← memberKey rules
    accessorRest rules ⟨start, decorators, modifiers, key, computed⟩ access
  | none =>
    if !modifiers.contains "static" && (← isAtConstructor) then
      let (key, computed) ← memberKey rules
      constructorRest rules ⟨start, decorators, modifiers, key, computed⟩
    else if (← typed) && (← isAtIndexSignature) then
      check decorators.isEmpty
      allowModifiers ["static", "readonly"] modifiers
      let signature ← indexSignature rules start
      typeMemberSeparator
      return signature
    else
      let isGenerator ← eat "*"
      let (key, computed) ← memberKey rules
      let head : MemberHead := ⟨start, decorators, modifiers, key, computed⟩
      let isOptional ← eat "?"
      if isGenerator || (← isAt "(") || (← isAt "<") then methodRest rules head isGenerator
      else fieldRest rules head isOptional

def classMember : Reader Tree := do
  let start ← here
  let decorators ← decorators rules
  let words ← modifiers
  if (← isAtWord "static") && (← nextIs fun next _ => next = .punct "\x7b") then
    check (decorators.isEmpty && words.isEmpty)
    staticBlock rules start
  else within (Context.declaredBy words) (classMemberRest rules start decorators words)

def classBody : Reader Tree := do
  let start ← here
  expect "\x7b"
  let members ← many do
    if ← isAt "\x7d" then return none
    if ← eat ";" then return some []
    return some [← classMember rules]
  expect "\x7d"
  node .classBody start members.flatten

def superClass : Reader Tree := do
  let start ← here
  match ← rules .leftHandSide with
  | .node .instantiation _ parts => node .superClass start parts
  | expression =>
    let arguments ← typeArguments? rules
    node .superClass start (expression :: arguments)

def implementsClause : Reader (List Tree) :=
  separated "," do
    let start ← here
    let name ← entityName
    let arguments ← typeArgumentsOnLine? rules
    node .implementsClause start (name :: arguments)

/-- `class` and all that follows. The name may be missing, and `implements` is
no name. -/
def classRest (start : Nat) (decorators : List Tree) (words : List String)
    (isDeclaration : Bool) : Reader Tree := do
  allowModifiers ["abstract", "declare"] words
  expectWord "class"
  let named := isNameToken (← token) && !(← isAtWord "implements")
  let name ← optional named binding
  let tailStart ← here
  let generics ← typeParameters? rules
  let parent ← if ← eatWord "extends" then pure [← superClass rules] else pure []
  let interfaces ← if ← eatWord "implements" then implementsClause rules else pure []
  let body ← within (Context.declaredBy words) (classBody rules)
  let tail ← node .classTail tailStart (generics ++ parent ++ interfaces ++ [body])
  node (.classNode isDeclaration) start (decorators ++ name ++ [tail])

/-- A class as an expression. Modifiers may stand only between its decorators
and `class`. -/
def classExpression : Reader Tree := do
  let start ← here
  let decorators ← decorators rules
  let words ← if decorators.isEmpty then pure [] else modifiers
  classRest rules start decorators words false

end Reader

end ComponentMacros
