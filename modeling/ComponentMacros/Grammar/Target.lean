import ComponentMacros.Tree

/-!
# Assignment targets

The left side of an assignment is first read as an expression. These functions
turn such an expression into the target it denotes, if it denotes one.
-/

namespace ComponentMacros

namespace Tree

def isSimpleTarget : Tree → Bool
  | node (.identifier _) _ _ | node (.member _) _ _ | node (.index _) _ _ => true
  | node .parenthesized _ [inner] => isSimpleTarget inner
  | node .asExpression _ [inner, _] | node .satisfiesExpression _ [inner, _]
  | node .nonNull _ [inner] | node .typeAssertion _ [_, inner] => isSimpleTarget inner
  | _ => false

def toSimpleTarget? (t : Tree) : Option Tree :=
  if t.isSimpleTarget then some t.stripParens else none

end Tree

mutual

def Tree.toTarget? : Tree → Option Tree
  | .node .object span members =>
    (membersToTargets? members).map (.node .objectTarget span)
  | .node .array span elements =>
    (elementsToTargets? elements).map (.node .arrayTarget span)
  | t => t.toSimpleTarget?

def Tree.toDefaultedTarget? : Tree → Option Tree
  | .node (.assignment "=") span parts => some (.node .defaultTarget span parts)
  | .node .hole span parts => some (.node .hole span parts)
  | .node .object span members =>
    (membersToTargets? members).map (.node .objectTarget span)
  | .node .array span elements =>
    (elementsToTargets? elements).map (.node .arrayTarget span)
  | t => t.toSimpleTarget?

def membersToTargets? : List Tree → Option (List Tree)
  | [] => some []
  | .node (.property .plain false true false) span [value] :: rest =>
    (membersToTargets? rest).map (.node (.targetProperty false true) span [value] :: ·)
  | .node .defaultedProperty span [value, default] :: rest =>
    (membersToTargets? rest).map (.node (.targetProperty false true) span [value, default] :: ·)
  | .node (.property .plain computed false false) span [key, value] :: rest =>
    match value.toDefaultedTarget? with
    | some value => (membersToTargets? rest).map
        (.node (.targetProperty computed false) span [key, value] :: ·)
    | none => none
  | [.node (.spread false) span [inner]] =>
    inner.toSimpleTarget?.map fun target => [.node .restTarget span [target]]
  | _ => none

def elementsToTargets? : List Tree → Option (List Tree)
  | [] => some []
  | [.node (.spread false) span [inner]] =>
    inner.toTarget?.map fun target => [.node .restTarget span [target]]
  | element :: rest =>
    match element.toDefaultedTarget? with
    | some target => (elementsToTargets? rest).map (target :: ·)
    | none => none

end

end ComponentMacros
