import ComponentMacros.Text.Offset

/-!
# File names

What the name of a file says about it: its stem, its extension, and through
the extension which dialect of the language the file is written in.
-/

namespace ComponentMacros

/-- Whether a dialect has type annotations, and how its files are loaded. -/
structure Dialect where
  typed : Bool
  declarations : Bool
  markup : Bool
  /-- The extension alone says that the file is a module. -/
  isModule : Bool
  /-- The extension alone says that the file is not a module. -/
  isCommon : Bool
  deriving DecidableEq, Repr, Inhabited

def Dialect.isUndecided (dialect : Dialect) : Bool := !dialect.isModule && !dialect.isCommon

def Dialect.full : Dialect :=
  { typed := true, declarations := false, markup := true, isModule := false, isCommon := false }

namespace FileName

def components : List Char → List (List Char)
  | [] => [[]]
  | c :: cs =>
    match components cs with
    | [] => [[c]]
    | first :: rest => if c = '/' then [] :: first :: rest else (c :: first) :: rest

/-- The last component of a path that names something. Empty components and,
past the first one, single dots name nothing. -/
def last? (path : List Char) : Option (List Char) :=
  let named := (components path).zipIdx.filter fun (part, i) =>
    !part.isEmpty && !(part = ['.'] && i ≠ 0)
  match named.getLast? with
  | some (part, _) => if part = ['.'] || part = ['.', '.'] then none else some part
  | none => none

/-- Split a name at its last dot. A dot that starts the name does not count. -/
def splitAtDot (name : List Char) : List Char × Option (List Char) :=
  let after := (name.reverse.takeWhile (· ≠ '.')).reverse
  let before := name.take (name.length - after.length - 1)
  if after.length = name.length || before.isEmpty then (name, none) else (before, some after)

def stem? (path : String) : Option String :=
  (last? path.toList).map fun name => String.ofList (splitAtDot name).1

def extension? (path : String) : Option String :=
  (last? path.toList).bind fun name => (splitAtDot name).2.map String.ofList

/-- A file of declarations ends in `.d` and an extension, or has `.d.` in the
stem of a `.ts` file. -/
def declaresOnly (stem extension : String) : Bool :=
  ".d".toList.isSuffixOf stem.toList ||
    (extension = "ts" && occursIn ".d.".toList stem.toList)

def dialect? (path : String) : Option Dialect := do
  let stem ← stem? path
  let extension ← extension? path
  let typed := { Dialect.full with markup := false, declarations := declaresOnly stem extension }
  match extension with
  | "js" => some { Dialect.full with typed := false, markup := false }
  | "jsx" => some { Dialect.full with typed := false }
  | "mjs" => some { Dialect.full with typed := false, markup := false, isModule := true }
  | "cjs" => some { Dialect.full with typed := false, markup := false, isCommon := true }
  | "ts" => some typed
  | "tsx" => some Dialect.full
  | "mts" => some { typed with isModule := true }
  | "cts" => some { typed with isCommon := true }
  | _ => none

end FileName

end ComponentMacros
