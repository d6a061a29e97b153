import ComponentMacros.Usage.Import
import ComponentMacros.Usage.Queue

/-!
# Collecting usages

One walk over a program builds its scopes and notes every name that is spelled
like an imported macro. Scopes are complete only after the walk, so only then
are names dropped that a nearer declaration binds.
-/

namespace ComponentMacros

structure Place where
  scope : ScopeId
  /-- The scope that also receives the names of a `var` declaration. -/
  hoistInto : Option ScopeId := none
  typeLevel : Bool := false
  ancestors : List Tree := []

structure Findings where
  scopes : ScopeTree
  functions : List (Span × ScopeId)
  candidates : List Site

namespace Findings

def declare (found : Findings) (place : Place) (name : String) : Findings :=
  let scopes := found.scopes.addBinding place.scope name
  { found with scopes := match place.hoistInto with
      | some scope => scopes.addBinding scope name
      | none => scopes }

def note (found : Findings) (place : Place) (kind : Macro) (name : String) (span : Span)
    (position : SitePosition) : Findings :=
  { found with candidates := found.candidates ++
      [⟨kind, name, span, position, place.scope, place.ancestors⟩] }

end Findings

section
variable (lookup : String → Option Macro)

def meet (place : Place) (t : Tree) (found : Findings) : Findings :=
  match t.kind with
  | .binding name => found.declare place name
  | .identifier name =>
    match place.typeLevel, lookup name with
    | false, some kind => found.note place kind name t.span .reference
    | _, _ => found
  | .function .declaration _ _ =>
    -- a declared function is also bound around itself
    match t.boundName? with
    | some name => { found with scopes := found.scopes.addBinding place.scope name }
    | none => found
  | .property _ false false _ =>
    match t.key? with
    | some (.node (.name name) span _) =>
      match lookup name with
      | some kind =>
        if kind.isKey then
          found.note { place with ancestors := t :: place.ancestors } kind name span .staticKey
        else found
      | none => found
    | _ => found
  | _ => found

def Place.inside (place : Place) (t : Tree) (scopes : ScopeTree) : Place :=
  { scope := if t.kind.scope?.isSome then scopes.size else place.scope
    hoistInto := match t.kind with
      | .declarator keyword =>
        if keyword = "var" then some (scopes.hoistingScope place.scope) else none
      | kind => if kind.isExpression then none else place.hoistInto
    typeLevel := place.typeLevel || t.kind.isTypeContext
    ancestors := t :: place.ancestors }

def Findings.openScope (found : Findings) (place : Place) (t : Tree) : Findings :=
  match t.kind.scope? with
  | none => found
  | some hoisting =>
    let functions := match t.kind with
      | .function _ _ _ | .arrow _ => found.functions ++ [(t.span, found.scopes.size)]
      | _ => found.functions
    { found with scopes := found.scopes.addScope (some place.scope) hoisting, functions }

mutual

def walk (place : Place) : Tree → Findings → Findings
  | .node kind span children, found =>
    let t := Tree.node kind span children
    let found := meet lookup place t found
    walkAll (place.inside t found.scopes) children (found.openScope place t)

def walkAll (place : Place) : List Tree → Findings → Findings
  | [], found => found
  | t :: ts, found => walkAll place ts (walk place t found)

end

def walkProgram (program : Tree) : Findings :=
  walkAll lookup { scope := ScopeTree.root, ancestors := [program] } program.children
    { scopes := ScopeTree.empty.addScope none true, functions := [], candidates := [] }

end

structure Collected where
  imports : List MacroImport
  usages : Usages
  scopes : ScopeTree
  functions : List (Span × ScopeId)

namespace Collected

/-- The site is no name that a nearer declaration binds. -/
def isUsage (scopes : ScopeTree) (site : Site) : Bool :=
  site.position = .staticKey || scopes.resolve site.scope site.name = some ScopeTree.root

def functionScope? (collected : Collected) (span : Span) : Option ScopeId :=
  (collected.functions.find? (·.1 = span)).map (·.2)

end Collected

/-- Collect the macro imports and usages of a program, if it imports macros. -/
def collect? (options : Options) (program : Tree) : Option Collected :=
  let imports := MacroImport.all options program
  if imports.isEmpty then none
  else
    let found := walkProgram (MacroImport.lookup imports) program
    let usages := (found.candidates.filter (Collected.isUsage found.scopes)).foldl
      Usages.push Usages.empty
    some { imports, usages, scopes := found.scopes, functions := found.functions }

end ComponentMacros
