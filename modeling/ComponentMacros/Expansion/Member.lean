import ComponentMacros.Edit
import ComponentMacros.Usage.Site

/-!
# Members of object literals

Finding the members of an object literal by name, and removing them together
with the comma that separates them from the next.
-/

namespace ComponentMacros

def erasedText : String := "void 0"

def sourceText (source : List Char) (span : Span) : String :=
  String.ofList ((slice? source span.start span.stop).getD [])

namespace Tree

def staticName? (t : Tree) : Option String :=
  match t with
  | node (.property _ false true _) _ [node (.identifier name) _ _] => some name
  | node (.property _ false false _) _ (node (.name name) _ _ :: _) => some name
  | node (.property _ false false _) _ (node (.string value) _ _ :: _) => some value
  | _ => none

def findMember? (object : Tree) (name : String) : Option (Nat × Tree) :=
  (object.children.zipIdx.find? fun (t, _) => t.staticName? = some name).map fun (t, i) => (i, t)

def hasMember (object : Tree) (name : String) : Bool :=
  (object.findMember? name).isSome

end Tree

def isMemberBlank (c : Char) : Bool :=
  c = ' ' || c = '\t' || c = '\n' || c = '\r' || c = '\x0c'

def trailingCommaEnd (source : List Char) (pos : Nat) : Nat :=
  match dropBytes source pos with
  | none => pos
  | some rest =>
    let blanks := rest.takeWhile isMemberBlank
    match rest.drop blanks.length with
    | ',' :: _ => pos + byteLength blanks + 1
    | _ => pos

/-- Remove the member at an index: up to the next member, or else with the
comma after it. -/
def removeMember (source : List Char) (members : List Tree) (index : Nat) : List Edit :=
  match members[index]? with
  | none => []
  | some member =>
    let stop := match members[index + 1]? with
      | some next => next.span.start
      | none => trailingCommaEnd source member.span.stop
    [.remove member.span.start stop]

end ComponentMacros
