import ComponentMacros.Macro
import ComponentMacros.Options
import ComponentMacros.Tree

/-!
# Macro imports

The import declarations of a program that import from the macro module, and
what they call the macros.
-/

namespace ComponentMacros

structure ImportedName where
  /-- The exported name; `default` and `*` stand for the whole module. -/
  imported : String
  own : String
  /-- The macro it is, if the macro module exports that name. -/
  kind : Option Macro
  deriving DecidableEq, Repr

structure MacroImport where
  span : Span
  source : String
  names : List ImportedName
  deriving DecidableEq, Repr

namespace Tree

def boundName? (t : Tree) : Option String :=
  t.children.findSome? fun part => match part.kind with
    | .binding name => some name
    | _ => none

def moduleSpecifier? (t : Tree) : Option String :=
  t.children.findSome? fun part => match part.kind with
    | .string value => some value
    | _ => none

end Tree

namespace ImportedName

def of (imported own : String) : ImportedName :=
  ⟨imported, own, Macro.ofName? imported⟩

def ofTree? (t : Tree) : Option ImportedName :=
  match t.kind, t.boundName? with
  | .importSpecifier imported false, some own => some (of imported own)
  | .importDefault, some own => some (of "default" own)
  | .importNamespace, some own => some (of "*" own)
  | _, _ => none

end ImportedName

namespace MacroImport

def ofTree? (options : Options) (t : Tree) : Option MacroImport :=
  match t.kind, t.moduleSpecifier? with
  | .importDeclaration false, some source =>
    if options.isMacroSource source then
      some ⟨t.span, source, t.children.filterMap ImportedName.ofTree?⟩
    else none
  | _, _ => none

def all (options : Options) (program : Tree) : List MacroImport :=
  program.children.filterMap (ofTree? options)

/-- The macro a program calls `name`. Of several imports the last one counts. -/
def lookup (imports : List MacroImport) (name : String) : Option Macro :=
  ((imports.flatMap (·.names)).filter fun n => n.own = name && n.kind.isSome).getLast?.bind (·.kind)

end MacroImport

end ComponentMacros
