import ComponentMacros.Text.Offset

/-!
# Lines and columns

Byte offsets are reported to people as a line and a column, both counted from
one. Only a line feed ends a line, and columns count characters.
-/

namespace ComponentMacros

structure Location where
  line : Nat
  column : Nat
  deriving DecidableEq, Repr, Inhabited

def lineStartsFrom (base : Nat) : List Char → List Nat
  | [] => []
  | c :: cs =>
    let next := base + c.utf8Size
    if c = '\n' then next :: lineStartsFrom next cs else lineStartsFrom next cs

def lineStarts (text : List Char) : List Nat :=
  0 :: (lineStartsFrom 0 text).map word

/-- Location of a byte offset. An offset past the end counts as the end, and
one inside a character is reported in the first column. The length of the text, the
line and the column are words. -/
def locate (text : List Char) (offset : Nat) : Location :=
  let offset := min offset (word (byteLength text))
  let reached := (lineStarts text).filter (· ≤ offset)
  let column := match slice? text (reached.getLastD 0) offset with
    | some before => before.length
    | none => 0
  { line := word reached.length, column := word (column + 1) }

end ComponentMacros
