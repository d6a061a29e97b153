import ComponentMacros.FileName
import ComponentMacros.Text.Offset
import ComponentMacros.Text.Quoted

/-!
# Options

What the caller says about a file: the build it is for, its name, the quotes
to write, and which module specifiers stand for the macro module.
-/

namespace ComponentMacros

inductive BuildMode where
  | development
  | production
  deriving DecidableEq, Repr, Inhabited

namespace BuildMode

def name : BuildMode → String
  | .development => "development"
  | .production => "production"

def ofName? : String → Option BuildMode
  | "development" => some .development
  | "production" => some .production
  | _ => none

def ofEnvironment (value : Option String) : BuildMode :=
  if value = some "production" then .production else .development

end BuildMode

structure Options where
  mode : BuildMode := .development
  /-- Decides the dialect, and the name of a component exported by default. -/
  fileName : Option String := none
  quotes : QuoteStyle := .double
  /-- Specifiers of the macro module. If there are none, the ending of a
  specifier decides. -/
  importSources : List String := []
  deriving Repr, Inhabited

namespace Options

def production (options : Options) : Bool :=
  options.mode = .production

def fileStem? (options : Options) : Option String :=
  options.fileName.bind FileName.stem?

/-- The dialect to parse; types and markup if the file name does not say. -/
def dialect (options : Options) : Dialect :=
  (options.fileName.bind FileName.dialect?).getD .full

def stripEnding? (ending text : List Char) : Option (List Char) :=
  if ending.isSuffixOf text then some (text.take (text.length - ending.length)) else none

/-- A specifier of the macro module by its ending: `/macro` or `.macro`, with or
without a script extension. -/
def isConventionalSource (specifier : List Char) : Bool :=
  let trimmed := ((stripEnding? ".cjs".toList specifier).or
    (stripEnding? ".js".toList specifier)).getD specifier
  "/macro".toList.isSuffixOf trimmed || ".macro".toList.isSuffixOf trimmed

def isMacroSource (options : Options) (specifier : String) : Bool :=
  if options.importSources.isEmpty then isConventionalSource specifier.toList
  else options.importSources.contains specifier

/-- A look at the text that is cheaper than parsing. If it fails, the text is
taken to import no macro. -/
def mayImportMacros (options : Options) (source : List Char) : Bool :=
  if options.importSources.isEmpty then occursIn "macro".toList source
  else options.importSources.any fun specifier => occursIn specifier.toList source

def quote (options : Options) (value : String) : String :=
  quoteString options.quotes value

end Options

end ComponentMacros
