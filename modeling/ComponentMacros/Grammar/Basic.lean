import ComponentMacros.FileName
import ComponentMacros.Keyword
import ComponentMacros.Token
import ComponentMacros.Tree

/-!
# Reading by rules

A reader holds the current token and may fail; a failed reading leaves the
state it started from, so alternatives can be tried in turn. A mistake that does
not keep the rules from going on is only noted, because it must not make an
alternative look like the right one. Rules call each other through goals: each
rule takes the reader for every goal as an argument, and `Grammar/Program` ties
the knot with a bound on the depth.
-/

namespace ComponentMacros

/-- What a rule may assume about the code around it. -/
structure Context where
  dialect : Dialect
  pageComments : PageComments := .absent
  topLevel : Bool := false
  noIn : Bool := false
  awaits : Bool := false
  yields : Bool := false
  returns : Bool := false
  /-- The code only declares what exists elsewhere. -/
  ambient : Bool := false
  /-- `extends` does not start a conditional type here. -/
  noConditionalType : Bool := false
  /-- A bracket does not access a member here. -/
  noIndex : Bool := false
  /-- An arrow function with a return type must be followed by a colon. -/
  arrowBeforeColon : Bool := false
  deriving Repr, Inhabited

structure ReadState where
  previous : Cursor
  start : Cursor
  token : Token
  after : Cursor
  /-- A line ended between the previous token and this one, or there is none
  before it. -/
  newline : Bool
  context : Context
  faulty : Bool := false
  /-- Something was read that only a module has. -/
  moduleSyntax : Bool := false
  deriving Inhabited

def ReadState.scan (context : Context) (cursor : Cursor) : ReadState :=
  let (start, newline, closed) :=
    skipGap context.pageComments .blank cursor.rest cursor.offset (cursor.offset = 0)
  let lexeme := readLexeme start.rest
  { previous := cursor, start,
    token := if closed then lexeme.token else .invalid
    after := start.past lexeme.raw lexeme.rest
    newline, context }

def ReadState.moveTo (s : ReadState) (cursor : Cursor) : ReadState :=
  { ReadState.scan s.context cursor with faulty := s.faulty, moduleSyntax := s.moduleSyntax }

abbrev Reader := StateT ReadState Option

inductive Goal where
  | statement
  | substatement
  | expression
  | assignment
  | binary (level : Nat)
  | unary
  | leftHandSide
  | newCallee
  | pattern
  | type
  | typeOperand
  | primaryType
  | element
  | moduleTail
  deriving DecidableEq, Repr

abbrev Rules := Goal → Reader Tree

namespace Reader

/-! ## Looking at the current token -/

def token : Reader Token := return (← get).token

def newline : Reader Bool := return (← get).newline

def context : Reader Context := return (← get).context

def typed : Reader Bool := return (← get).context.dialect.typed

def here : Reader Nat := return (← get).start.offset

def behind : Reader Nat := return (← get).previous.offset

def isAt (text : String) : Reader Bool := return (← get).token = .punct text

def isAtWord (text : String) : Reader Bool := return (← get).token.isWord text

def isAtAnyWord (texts : List String) : Reader Bool := return (← get).token.isAnyWord texts

def isAtAny (texts : List String) : Reader Bool := do
  match (← get).token with
  | .punct text => return texts.contains text
  | _ => return false

/-! ## Going on, or not -/

def require (condition : Bool) : Reader Unit :=
  if condition then pure () else failure

def complain : Reader Unit := modify ({ · with faulty := true })

def check (condition : Bool) : Reader Unit :=
  unless condition do complain

def jump (cursor : Cursor) : Reader Unit := modify (·.moveTo cursor)

def skip : Reader Unit := do
  jump (← get).after

/-- Pass the current token for what it means. A keyword is written without
escapes. -/
def advance : Reader Unit := do
  match (← get).token with
  | .word text escaped => check (!(escaped && isKeyword text))
  | _ => pure ()
  skip

def eat (text : String) : Reader Bool := do
  if ← isAt text then
    advance
    return true
  else return false

def eatWord (text : String) : Reader Bool := do
  if ← isAtWord text then
    advance
    return true
  else return false

def eatIf (condition : Bool) (text : String) : Reader Bool :=
  if condition then eat text else return false

def eatWordIf (condition : Bool) (text : String) : Reader Bool :=
  if condition then eatWord text else return false

def expect (text : String) : Reader Unit := do
  require (← eat text)

def expectWord (text : String) : Reader Unit := do
  require (← eatWord text)

/-- The end of a statement: a semicolon, or a place where one may be left out. -/
def semicolon : Reader Unit := do
  unless ← eat ";" do
    require ((← isAt "\x7d") || (← newline) || (← token) = .done)

/-! ## Alternatives and repetition -/

def attempt {α : Type} (p : Reader α) : Reader (Option α) := fun s =>
  match p s with
  | some (a, s') => some (some a, s')
  | none => some (none, s)

def ahead {α : Type} (p : Reader α) : Reader (Option α) := fun s =>
  some ((p s).map (·.1), s)

def wouldBe (p : Reader Bool) : Reader Bool := do
  return (← ahead p).getD false

def within {α : Type} (change : Context → Context) (p : Reader α) : Reader α := do
  let outer ← context
  modify fun s => { s with context := change s.context }
  let a ← p
  modify fun s => { s with context := outer }
  return a

def collect {α : Type} (step : Reader (Option α)) : Nat → Reader (List α)
  | 0 => return []
  | n + 1 => do
    match ← step with
    | some a => return a :: (← collect step n)
    | none => return []

def many {α : Type} (step : Reader (Option α)) : Reader (List α) := do
  collect step ((← get).start.rest.length + 1)

/-- Replace a value as long as the step has something to replace it by, at
most `n` times. -/
def iterate {α : Type} (step : α → Reader (Option α)) : Nat → α → Reader α
  | 0, a => return a
  | n + 1, a => do
    match ← step a with
    | some b => iterate step n b
    | none => return a

def extend {α : Type} (step : α → Reader (Option α)) (a : α) : Reader α := do
  iterate step ((← get).start.rest.length + 1) a

def itemsUntil {α : Type} (close : String) (item : Reader α) : Reader (List α) :=
  many do
    if ← isAt close then return none
    return some (← item)

/-- Items separated by commas up to a closing token, which is left standing. A
comma may follow the last item. -/
def commaItems {α : Type} (close : String) (item : Reader α) : Reader (List α) :=
  many do
    if ← isAt close then return none
    let a ← item
    unless ← eat "," do require (← isAt close)
    return some a

def separated {α : Type} (separator : String) (item : Reader α) : Reader (List α) := do
  let first ← item
  let rest ← many do
    if ← eat separator then return some (← item)
    return none
  return first :: rest

/-! ## Building trees -/

def node (kind : Kind) (start : Nat) (children : List Tree) : Reader Tree := do
  return .node kind ⟨start, ← behind⟩ children

def leaf (kind : Kind) : Reader Tree := do
  let start ← here
  advance
  node kind start []

def nameLeaf (kind : Kind) : Reader Tree := do
  let start ← here
  skip
  node kind start []

def optional (condition : Bool) (p : Reader Tree) : Reader (List Tree) := do
  if condition then return [← p] else return []

end Reader

end ComponentMacros
