/-!
# Lexical scopes

Scopes form a forest: each has at most one parent and a set of names bound in
it. Scopes are numbered in the order they were added, so the first one is the
scope of the whole program.
-/

namespace ComponentMacros

abbrev ScopeId := Nat

structure Scope where
  parent : Option ScopeId
  /-- A function or program scope, where `var` declarations land. -/
  hoisting : Bool
  names : List String
  deriving DecidableEq, Repr

structure ScopeTree where
  scopes : Array Scope
  deriving Repr

namespace ScopeTree

def empty : ScopeTree := ⟨#[]⟩

def root : ScopeId := 0

def size (tree : ScopeTree) : Nat :=
  tree.scopes.size

def get? (tree : ScopeTree) (id : ScopeId) : Option Scope :=
  tree.scopes[id]?

def addScope (tree : ScopeTree) (parent : Option ScopeId) (hoisting : Bool) : ScopeTree :=
  ⟨tree.scopes.push ⟨parent, hoisting, []⟩⟩

/-- Bind a name. An id that names no scope changes nothing. -/
def addBinding (tree : ScopeTree) (id : ScopeId) (name : String) : ScopeTree :=
  ⟨tree.scopes.modify id fun s => { s with names := name :: s.names }⟩

def parent (tree : ScopeTree) (id : ScopeId) : Option ScopeId :=
  (tree.get? id).bind (·.parent)

def hasOwnBinding (tree : ScopeTree) (id : ScopeId) (name : String) : Bool :=
  (tree.get? id).any (·.names.contains name)

def chain (tree : ScopeTree) : Nat → ScopeId → List ScopeId
  | 0, _ => []
  | n + 1, id => id :: (match tree.parent id with
    | some up => chain tree n up
    | none => [])

/-- `id` and all its ancestors. A parent added before its child makes a chain
no longer than the tree, and the end of a chain may name no scope. -/
def ancestors (tree : ScopeTree) (id : ScopeId) : List ScopeId :=
  tree.chain (tree.size + 1) id

/-- The scope that binds `name`, as seen from `id`. -/
def resolve (tree : ScopeTree) (id : ScopeId) (name : String) : Option ScopeId :=
  (tree.ancestors id).find? (tree.hasOwnBinding · name)

def hasBinding (tree : ScopeTree) (id : ScopeId) (name : String) : Bool :=
  (tree.resolve id name).isSome

def isHoisting (tree : ScopeTree) (id : ScopeId) : Bool :=
  (tree.get? id).any (·.hoisting)

/-- The nearest scope where `var` declarations land, or the outermost one. -/
def hoistingScope (tree : ScopeTree) (id : ScopeId) : ScopeId :=
  ((tree.ancestors id).find? tree.isHoisting).getD ((tree.ancestors id).getLastD id)

end ScopeTree

end ComponentMacros
