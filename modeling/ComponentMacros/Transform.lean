import ComponentMacros.Expansion.Factory
import ComponentMacros.Expansion.Key
import ComponentMacros.Expansion.Props
import ComponentMacros.Grammar.Program
import ComponentMacros.Usage.Collect

/-!
# The transform

Every usage of a macro is expanded by the rule of its macro, the macro imports
are removed, and the edits are rendered. A text without macro imports comes back
as it is.
-/

namespace ComponentMacros

inductive Failure where
  | parse
  | usage (error : UsageError)
  | render (error : RenderError)
  deriving Repr

structure Transformed where
  code : String
  changed : Bool
  usages : Nat
  deriving DecidableEq, Repr

def Transformed.unchanged (source : String) : Transformed :=
  ⟨source, false, 0⟩

/-! ## Rules -/

/-- What the rules need to know besides a site. -/
structure Setting where
  options : Options
  source : List Char
  collected : Collected

namespace Setting

/-- The factory's name is bound around or inside the function with a span. -/
def isFactoryTaken (setting : Setting) (span : Span) : Bool :=
  (setting.collected.functionScope? span).any (setting.collected.scopes.hasBinding · factoryName)

end Setting

structure Progress where
  draft : Draft
  usages : Usages

def Progress.record (progress : Progress) (edits : List Edit) : Progress :=
  { progress with draft := progress.draft.recordAll edits }

/-- The last steps every definition takes: it gets its name and, if it is
functional, its mark; then its props are expanded. -/
def finishDefinition (setting : Setting) (site : Site) (definition : Definition)
    (functional : Bool) (progress : Progress) : Progress :=
  let (named, definition) := giveName setting.options site definition
  let marked := if functional then [(definition.unshift "functional" "true").1] else []
  let (props, usages) :=
    expandProps setting.options setting.source progress.usages definition
  { progress.record (named ++ marked ++ props) with usages }

def expandComponent (setting : Setting) (site : Site) (progress : Progress) :
    Except UsageError Progress := do
  let (call, argument) ← definitionCall site
  let object := argument.stripParens
  if object.isObject then
    return finishDefinition setting site (.ofObject call object) false
      (progress.record (Definition.unwrap call object))
  else throw (.of .notAnObject site.name object.span)

/-- Make an object literal with a single member around a render function. -/
def wrapRender (call render : Span) : List Edit :=
  [.overwrite ⟨call.start, render.start⟩ "\x7b ", .prepend render.start "render: ",
    .overwrite ⟨render.stop, call.stop⟩ " \x7d"]

def expandFunctional (setting : Setting) (site : Site) (progress : Progress) :
    Except UsageError Progress := do
  let (call, argument) ← definitionCall site
  let argument := argument.stripParens
  if argument.parameterList?.isSome then
    let factory ← injectFactory setting.isFactoryTaken site argument
    let definition := ⟨call, none, argument.span.start, true⟩
    return finishDefinition setting site definition true
      (progress.record (factory ++ wrapRender call.span argument.span))
  else if argument.isObject then
    match (argument.findMember? "render").bind (·.2.value?) with
    | none => throw (.of .missingRender site.name argument.span)
    | some render =>
      let factory ← injectFactory setting.isFactoryTaken site render
      return finishDefinition setting site (.ofObject call argument) true
        (progress.record (factory ++ Definition.unwrap call argument))
  else throw (.of .notADefinition site.name argument.span)

def eraseType (site : Site) : Except UsageError (List Edit) :=
  match site.call? with
  | some call => .ok [.overwrite call.span erasedText]
  | none => .error (.of .notCalled site.name site.span)

def expandSite (setting : Setting) (progress : Progress) (site : Site) :
    Except UsageError Progress :=
  match site.kind with
  | .component => expandComponent setting site progress
  | .functional => expandFunctional setting site progress
  | .events | .states | .scopedSlots => progress.record <$> stripKey setting.source site
  | .injections => progress.record <$> expandInjections setting.source site
  | .type => progress.record <$> eraseType site

def expandMacro (setting : Setting) (progress : Progress) (kind : Macro) :
    Except UsageError Progress :=
  let (sites, usages) := progress.usages.take kind
  sites.foldlM (expandSite setting) { progress with usages }

/-- Expand all sites, macro by macro. The first misuse ends it. -/
def expandAll (setting : Setting) : Except UsageError Progress :=
  Macro.expansionOrder.foldlM (expandMacro setting)
    { draft := ⟨setting.source, []⟩, usages := setting.collected.usages }

/-! ## Imports -/

/-- Where the line of a statement that ends at `pos` ends: after one line break. -/
def lineBreakEnd (source : List Char) (pos : Nat) : Nat :=
  match dropBytes source pos with
  | some ('\r' :: '\n' :: _) => pos + 2
  | some ('\r' :: _) | some ('\n' :: _) => pos + 1
  | _ => pos

def removeImport (source : List Char) (imported : MacroImport) : Edit :=
  .remove imported.span.start (lineBreakEnd source imported.span.stop)

/-! ## The whole -/

/-- The draft with every macro of a program expanded and every import removed. -/
def expansion (setting : Setting) : Except UsageError Draft := do
  let progress ← expandAll setting
  return progress.draft.recordAll (setting.collected.imports.map (removeImport setting.source))

/-- Expand the macros of a source text. -/
def transform (options : Options) (source : String) : Except Failure Transformed :=
  let text := source.toList
  if !options.mayImportMacros text then .ok (.unchanged source)
  else match parse options.dialect text with
    | none => .error .parse
    | some program =>
      match collect? options program with
      | none => .ok (.unchanged source)
      | some collected =>
        match expansion ⟨options, text, collected⟩ with
        | .error error => .error (.usage (error.locatedIn text))
        | .ok draft =>
          match draft.render with
          | .error error => .error (.render error)
          | .ok code => .ok ⟨code, !draft.isEmpty, collected.usages.size⟩

end ComponentMacros
