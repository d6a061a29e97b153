import ComponentMacros.Expansion.Definition
import ComponentMacros.Expansion.RuntimeType
import ComponentMacros.Usage.Queue

/-!
# Props

In development the types of props become runtime types. In production the props
are reduced to a list of their names, and the types in them go with them.
-/

namespace ComponentMacros

def Definition.props? (definition : Definition) : Option Tree := do
  let object ← definition.object
  let (_, property) ← object.findMember? "props"
  let value ← property.value?
  if value.stripParens.isObject then some value.stripParens else none

/-! ## Development -/

def annotate (site : Site) : List Edit :=
  match site.call? with
  | none => []
  | some call =>
    let type? := site.typeArguments?.bind (·.children.head?)
    [.overwrite call.span ((type?.map runtimeType).getD erasedText)]

def annotateProps (usages : Usages) (props : Tree) : List Edit × Usages :=
  match usages.typeAlias with
  | none => ([], usages)
  | some typeName =>
    let (sites, usages) := usages.takeMatching .type fun site =>
      site.name = typeName && site.isWithin props.span && site.call?.isSome
    (sites.flatMap annotate, usages)

/-! ## Production -/

def propName (options : Options) (source : List Char) (member : Tree) : String :=
  match member with
  | .node (.property _ true _ _) _ (key :: _) => sourceText source key.span
  | .node (.property _ false _ _) _ (key :: _) =>
    match key.kind with
    | .name name | .identifier name => options.quote name
    | .string value => options.quote value
    | _ => options.quote (sourceText source key.span)
  | .node (.spread _) _ [argument] => "...Object.keys(" ++ sourceText source argument.span ++ ")"
  | _ => ""

def collapseProps (options : Options) (source : List Char) (usages : Usages) (props : Tree) :
    List Edit × Usages :=
  let (_, usages) := usages.takeMatching .type (·.isWithin props.span)
  let names := props.children.map (propName options source)
  ([.overwrite props.span ("[" ++ ", ".intercalate names ++ "]")], usages)

def expandProps (options : Options) (source : List Char) (usages : Usages)
    (definition : Definition) : List Edit × Usages :=
  match definition.props? with
  | none => ([], usages)
  | some props =>
    match options.mode with
    | .development => annotateProps usages props
    | .production => collapseProps options source usages props

end ComponentMacros
