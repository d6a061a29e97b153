import ComponentMacros.Expansion.Member
import ComponentMacros.UsageError

/-!
# The element factory

Markup in a render function calls a function that makes elements. A functional
component receives it as the first parameter of its render function.
-/

namespace ComponentMacros

def factoryName : String := "h"

namespace Tree

def parameterList? (t : Tree) : Option Tree :=
  match t.kind with
  | .function _ _ _ | .arrow _ => t.children.find? (·.kind = .parameters)
  | _ => none

def parameterName? (t : Tree) : Option String :=
  match t.children.find? (·.kind ≠ .decorator) with
  | some (node (.binding name) _ _) => some name
  | _ => none

def plainParameters (list : Tree) : List Tree :=
  list.children.filter (·.kind = .parameter)

end Tree

/-- Make the factory the first parameter. A parameter `this` stays before it, and
a list without parentheses gets some. -/
def prependFactory (list : Tree) : List Edit :=
  match list.find? (· = .thisParameter), list.plainParameters, list.find? (· = .restParameter) with
  | some this, _, _ => [.append this.span.stop ", h"]
  | none, first :: _, _ =>
    if list.span = first.span then
      [.prepend first.span.start "(h, ", .append first.span.stop ")"]
    else [.prepend first.span.start "h, "]
  | none, [], some rest => [.prepend rest.span.start "h, "]
  | none, [], none => [.prepend (list.span.stop - 1) factoryName]

/-- Give a render function the factory, unless it takes it already. Nothing else
may be called like the factory where the function stands. -/
def injectFactory (isTaken : Span → Bool) (site : Site) (render : Tree) :
    Except UsageError (List Edit) :=
  let function := render.stripParens
  match function.parameterList? with
  | none => .ok []
  | some list =>
    if list.plainParameters.head?.bind (·.parameterName?) = some factoryName then .ok []
    else if isTaken function.span then
      .error (.of .factoryNameTaken site.name function.span)
    else .ok (prependFactory list)

end ComponentMacros
