import ComponentMacros.Tree

/-!
# Exported names

The names under which the statements of a program export something. Where types
share names with values, several exports may have one name; elsewhere each name
is exported once.
-/

namespace ComponentMacros

mutual

def Tree.boundNames : Tree → List String
  | .node (.binding name) _ _ => [name]
  | .node (.variableDeclaration _) _ parts | .node (.declarator _) _ parts
  | .node .objectPattern _ parts | .node .arrayPattern _ parts
  | .node (.bindingProperty _ _) _ parts | .node .defaultPattern _ parts
  | .node .restElement _ parts => boundNamesOf parts
  | _ => []

def boundNamesOf : List Tree → List String
  | [] => []
  | t :: ts => t.boundNames ++ boundNamesOf ts

end

def Tree.declaredNames (t : Tree) : List String :=
  match t.kind with
  | .variableDeclaration _ => t.boundNames
  | .function _ _ _ | .classNode _ =>
    t.children.filterMap fun part => match part.kind with
      | .binding name => some name
      | _ => none
  | _ => []

def Tree.exportedName? (t : Tree) : Option String :=
  match t.kind with
  | .name text | .string text | .identifier text => some text
  | _ => none

def Tree.exportedNames : Tree → List String
  | .node .exportDefault _ _ => ["default"]
  | .node (.exportAll _) _ (name :: .node (.string _) _ _ :: _) => name.exportedName?.toList
  | .node (.exportNamed _) _ parts =>
    parts.flatMap fun part => match part.kind with
      | .exportSpecifier _ => (part.children.getLast?.bind Tree.exportedName?).toList
      | _ => part.declaredNames
  | _ => []

def exportsOnce (statements : List Tree) : Bool :=
  decide (statements.flatMap Tree.exportedNames).Nodup

end ComponentMacros
