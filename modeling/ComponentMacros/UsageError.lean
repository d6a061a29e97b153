import ComponentMacros.Span
import ComponentMacros.Text.Location

/-!
# Usage errors

A macro used in a way it does not allow: what is wrong, where, and how that is
reported.
-/

namespace ComponentMacros

inductive Misuse where
  | notAnObject
  | notADefinition
  | notAnInjectionMap
  | wrongArity
  | notCalled
  | missingRender
  | factoryNameTaken
  | notAKey
  deriving DecidableEq, Repr

def Misuse.message (name : String) : Misuse → String
  | .notAnObject => s!"{name} can only accept object expression to define vue component"
  | .notADefinition =>
    s!"{name} can only accept object expression or render function to define vue component"
  | .notAnInjectionMap => s!"[{name}] must be given an object expression of injections."
  | .wrongArity => s!"{name} must be called with exactly one argument"
  | .notCalled => s!"{name} can only be used as a call expression"
  | .missingRender => "render(context) function must be defined for functional component."
  | .factoryNameTaken =>
    "Vue will inject 'h' identifier when parsing JSX, don't define local var 'h'."
  | .notAKey => s!"[{name}] can be only used as object property key."

structure UsageError where
  macroName : String
  message : String
  span : Span
  location : Option Location := none
  deriving DecidableEq, Repr

namespace UsageError

def of (misuse : Misuse) (macroName : String) (span : Span) : UsageError :=
  { macroName, message := misuse.message macroName, span }

def locatedIn (source : List Char) (error : UsageError) : UsageError :=
  { error with location := some (locate source error.span.start) }

def diagnostic (error : UsageError) (fileName : Option String) : String :=
  let file := fileName.getD "<anonymous>"
  match error.location with
  | some place => s!"{file}:{place.line}:{place.column}: {error.message}"
  | none => s!"{file}: {error.message}"

end UsageError

end ComponentMacros
