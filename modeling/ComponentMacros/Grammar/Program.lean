import ComponentMacros.Grammar.Export
import ComponentMacros.Grammar.Statement

/-!
# Programs

The rules of all goals, put together, and the tree of a whole text.
-/

namespace ComponentMacros

/-- The rule for each goal, given the readers it may call. -/
def ruleFor (rules : Rules) : Goal → Reader Tree
  | .statement => Reader.statementRule rules false
  | .substatement => Reader.statementRule rules true
  | .expression => Reader.expressionRule rules
  | .assignment => Reader.assignmentRule rules
  | .binary level => Reader.binaryRule rules level
  | .unary => Reader.unaryRule rules
  | .leftHandSide => Reader.leftHandSideRule rules
  | .newCallee => Reader.newCalleeRule rules
  | .pattern => Reader.patternRule rules
  | .type => Reader.typeRule rules
  | .typeOperand => Reader.typeOperandRule rules
  | .primaryType => Reader.primaryTypeRule rules
  | .element => Reader.elementRule rules
  | .moduleTail => Reader.moduleTailRule rules

def readersTo : Nat → Rules
  | 0, _ => failure
  | depth + 1, goal => ruleFor (readersTo depth) goal

def readStatements (rules : Rules) : Reader (List Tree) :=
  Reader.many do
    if (← Reader.token) = .done then return none
    return some (← rules .statement)

def skipInterpreterLine (cs : List Char) : Cursor :=
  match cs with
  | '#' :: '!' :: rest =>
    let line := rest.takeWhile (!isLineEnd ·)
    ⟨rest.drop line.length, 2 + byteLength line⟩
  | _ => ⟨cs, 0⟩

/-- Rules call each other at most this many times before one of them consumes a
character. -/
def rulesPerCharacter : Nat := 12

/-- How a text is read: for a file that is not yet known to be a module, as a
script. -/
inductive Reading where
  | script
  | module
  deriving DecidableEq, Repr

def Reading.context (reading : Reading) (dialect : Dialect) : Context :=
  { dialect, topLevel := true, awaits := reading = .module, returns := dialect.isCommon
    ambient := dialect.declarations
    pageComments := match reading with
      | .script => .skipped
      | .module => if dialect.isModule then .absent else .refused }

/-- The statements of a text and what was noted about them, if it can be read to
its end. -/
def readProgram (reading : Reading) (dialect : Dialect) (text : List Char) :
    Option (Tree × ReadState) := do
  let start := ReadState.scan (reading.context dialect) (skipInterpreterLine text)
  let depth := rulesPerCharacter * (text.length + 1)
  let (statements, last) ← (readStatements (readersTo depth)).run start
  if last.token ≠ .done then none
  return (.node .program ⟨0, byteLength text⟩ statements, last)

/-- The program is what it seems. A default in an object literal is left over
from an assignment that never came. -/
def isSound (dialect : Dialect) (program : Tree) (last : ReadState) : Bool :=
  !last.faulty && !program.any (· = .defaultedProperty) &&
    (dialect.typed || exportsOnce program.children)

/-- The tree of a program, if the text is one. A file that may be either is a
script until it turns out to hold what only a module has. -/
def parse (dialect : Dialect) (text : List Char) : Option Tree := do
  let first := if dialect.isModule then Reading.module else .script
  let (program, last) ← readProgram first dialect text
  let (program, last) ← if dialect.isUndecided && last.moduleSyntax then
      readProgram .module dialect text
    else some (program, last)
  if isSound dialect program last then some program else none

end ComponentMacros
