import ComponentMacros.Expansion.Member
import ComponentMacros.UsageError

/-!
# Key macros

Macros written as a property key. Those that only carry types vanish with their
property; injections become an option of the component.
-/

namespace ComponentMacros

/-- A property that a key macro is the key of. -/
structure KeyedMember where
  object : Tree
  index : Nat
  property : Tree

def keyedMember (site : Site) : Except UsageError KeyedMember :=
  let found := do
    let property ← site.keyProperty?
    let object ← site.owner? property
    let index ← object.children.findIdx? (·.span = property.span)
    return ⟨object, index, property⟩
  match found with
  | some member => .ok member
  | none => .error (.of .notAKey site.name site.span)

def stripKey (source : List Char) (site : Site) : Except UsageError (List Edit) := do
  let member ← keyedMember site
  return removeMember source member.object.children member.index

/-! ## Injections -/

def stripInjectionTypes (source : List Char) (injections : Tree) : List Edit :=
  injections.children.flatMap fun injection =>
    match injection.value? with
    | none => []
    | some value =>
      let spec := value.stripParens
      if spec.isObject then
        match spec.findMember? "type" with
        | some (index, _) => removeMember source spec.children index
        | none => []
      else []

def mixinOf (injections : Span) (before after : String) : Fragment :=
  [.text (before ++ "\x7b inject: "), .source injections, .text (" \x7d" ++ after)]

def addMixin (mixins : Tree) (injections : Span) : List Edit :=
  let list := mixins.stripParens
  if list.kind = .array then
    match list.children.getLast? with
    | some last =>
      [⟨.append, ⟨last.span.stop, last.span.stop⟩, mixinOf injections ", " ""⟩]
    | none =>
      [⟨.append, ⟨list.span.start + 1, list.span.start + 1⟩, mixinOf injections "" ""⟩]
  else
    [.prepend list.span.start "[...",
      ⟨.append, ⟨list.span.stop, list.span.stop⟩, mixinOf injections ", " "]"⟩]

/-- Turn the property of injections into the option `inject`, or into a mixin if
the component has that option already. -/
def moveInjections (source : List Char) (member : KeyedMember) (value : Tree) : List Edit :=
  if !member.object.hasMember "inject" then
    [.overwrite ⟨member.property.span.start, value.span.start⟩ "inject: "]
  else
    match (member.object.findMember? "mixins").bind (·.2.value?) with
    | none => [⟨.overwrite, member.property.span, mixinOf value.span "mixins: [" "]"⟩]
    | some mixins =>
      removeMember source member.object.children member.index ++ addMixin mixins value.span

def expandInjections (source : List Char) (site : Site) : Except UsageError (List Edit) := do
  let member ← keyedMember site
  let refused := UsageError.of .notAnInjectionMap site.name member.property.span
  match member.property.kind, member.property.value? with
  | .property _ _ false _, some value =>
    if value.stripParens.isObject then
      return stripInjectionTypes source value.stripParens ++ moveInjections source member value
    else throw refused
  | _, _ => throw refused

end ComponentMacros
