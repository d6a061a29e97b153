import ComponentMacros.Expansion.Member
import ComponentMacros.Options
import ComponentMacros.UsageError

/-!
# Definitions

A component definition is a call of a macro around an object literal. The call
is peeled off, and what the literal lacks is put in front of its members.
-/

namespace ComponentMacros

def definitionCall (site : Site) : Except UsageError (Tree × Tree) :=
  match site.call? with
  | none => .error (.of .notCalled site.name site.span)
  | some call =>
    match call.arguments with
    | [.node (.spread _) _ _] => .error (.of .notAnObject site.name call.span)
    | [argument] => .ok (call, argument)
    | _ => .error (.of .wrongArity site.name call.span)

/-- A definition on its way to an object literal. -/
structure Definition where
  call : Tree
  object : Option Tree
  insertAt : Nat
  hasMembers : Bool

namespace Definition

def ofObject (call object : Tree) : Definition :=
  match object.children with
  | first :: _ => ⟨call, some object, first.span.start, true⟩
  | [] => ⟨call, some object, object.span.start + 1, false⟩

def unwrap (call object : Tree) : List Edit :=
  [.remove call.span.start object.span.start, .remove object.span.stop call.span.stop]

def unshift (definition : Definition) (key value : String) : Edit × Definition :=
  (.prepend definition.insertAt
    (if definition.hasMembers then s!"{key}: {value}, " else s!"{key}: {value}"),
    { definition with hasMembers := true })

def hasMember (definition : Definition) (name : String) : Bool :=
  definition.object.any (·.hasMember name)

end Definition

/-! ## Names -/

def declaredValue? (declarator : Tree) : Option Tree :=
  declarator.children.tail.find? (·.kind ≠ .ascription)

/-- What the nearest declaration or assignment calls the value of `call`. The
answer is `none` for a node that is neither. -/
def nameGivenBy (call : Span) (t : Tree) : Option (Option String) :=
  match t with
  | .node (.declarator _) _ (target :: _) =>
    match target.kind, declaredValue? t with
    | .binding name, some value => some (if value.stripParens.span = call then some name else none)
    | _, _ => some none
  | .node (.assignment _) _ [target, value] =>
    match target.kind with
    | .identifier name => some (if value.stripParens.span = call then some name else none)
    | _ => some none
  | _ => none

/-- The name of a definition: what it is assigned to, or else the name of the
file that exports it by default. -/
def definitionName? (options : Options) (site : Site) (definition : Definition) : Option String :=
  ((site.ancestors.findSome? (nameGivenBy definition.call.span)).join).or
    (if site.inDefaultExport then options.fileStem? else none)

/-- Name a component, unless it is named or nobody will look. -/
def giveName (options : Options) (site : Site) (definition : Definition) :
    List Edit × Definition :=
  if options.production || definition.hasMember "name" then ([], definition)
  else match definitionName? options site definition with
    | none => ([], definition)
    | some name =>
      let (edit, definition) := definition.unshift "name" (options.quote name)
      ([edit], definition)

end ComponentMacros
