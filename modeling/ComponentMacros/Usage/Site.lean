import ComponentMacros.Macro
import ComponentMacros.Scope
import ComponentMacros.Tree

/-!
# Usage sites

Places where a program uses a macro, with the nodes around them. What a site is
used for is read off these nodes by comparing spans.
-/

namespace ComponentMacros

inductive SitePosition where
  | reference
  | staticKey
  deriving DecidableEq, Repr

structure Site where
  kind : Macro
  name : String
  span : Span
  position : SitePosition
  scope : ScopeId
  ancestors : List Tree
  deriving Repr

namespace Tree

def isCall (t : Tree) : Bool :=
  match t.kind with
  | .call _ => true
  | _ => false

def isProperty (t : Tree) : Bool :=
  match t.kind with
  | .property _ _ _ _ => true
  | _ => false

def isObject (t : Tree) : Bool := t.kind = .object

def callee? (t : Tree) : Option Tree :=
  if t.isCall then t.children.head? else none

def typeArguments? (t : Tree) : Option Tree :=
  t.children.tail.find? (·.kind = .typeArguments)

def arguments (t : Tree) : List Tree :=
  t.children.tail.filter (·.kind ≠ .typeArguments)

def key? (t : Tree) : Option Tree :=
  if t.isProperty then t.children.head? else none

def value? (t : Tree) : Option Tree :=
  if t.isProperty then t.children.getLast? else none

end Tree

namespace Site

/-- The nearest node around the site whose span is another. A shorthand property
has the span of its value and still counts. -/
def parent? (site : Site) : Option Tree :=
  site.ancestors.find? fun t => t.span ≠ site.span || t.isProperty

/-- The call the site is the callee of. -/
def call? (site : Site) : Option Tree :=
  site.parent?.filter fun t =>
    (t.callee?.map (·.stripParens.span)) = some site.span

def keyProperty? (site : Site) : Option Tree :=
  site.parent?.filter fun t => (t.key?.map (·.span)) = some site.span

def owner? (site : Site) (property : Tree) : Option Tree :=
  site.ancestors.find? fun t => t.isObject && t.children.any (·.span = property.span)

def inDefaultExport (site : Site) : Bool :=
  site.ancestors.any (·.kind = .exportDefault)

def isWithin (site : Site) (span : Span) : Bool :=
  span.contains site.span

def typeArguments? (site : Site) : Option Tree :=
  site.call?.bind (·.typeArguments?)

end Site

end ComponentMacros
