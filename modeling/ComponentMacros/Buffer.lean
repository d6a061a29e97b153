import ComponentMacros.Edit

/-!
# The edit buffer

A buffer keeps the edits of a draft together with the numbers of the calls that
recorded them, and arranges them by these numbers. Lengths and numbers are words
of 32 bits: the buffer renders what its draft does as long as words are enough.
-/

namespace ComponentMacros

structure NumberedEdit where
  edit : Edit
  number : Nat
  deriving DecidableEq, Repr

/-- Rendering order: by start, by rank, and then a later prepend before an earlier one, a later append
behind an earlier one, and a longer replacement before a shorter one. -/
def NumberedEdit.order (a b : NumberedEdit) : Ordering :=
  (compare a.edit.span.start b.edit.span.start).then <|
    (compare a.edit.placement.rank b.edit.placement.rank).then <|
      match a.edit.placement with
      | .prepend => compare b.number a.number
      | .append => compare a.number b.number
      | .overwrite => (compare b.edit.span.stop a.edit.span.stop).then (compare a.number b.number)

structure Buffer where
  source : List Char
  kept : List NumberedEdit
  next : Nat

namespace Buffer

def ofText (source : String) : Buffer :=
  ⟨source.toList, [], 0⟩

def draft (buffer : Buffer) : Draft :=
  ⟨buffer.source, buffer.kept.map NumberedEdit.edit⟩

/-- Record an edit under the next number, unless it refers to its own range. -/
def record (buffer : Buffer) (e : Edit) : Buffer :=
  if e.selects e then buffer
  else { buffer with kept := buffer.kept ++ [⟨e, buffer.next⟩], next := word (buffer.next + 1) }

def recordAll (buffer : Buffer) (calls : List Edit) : Buffer :=
  calls.foldl record buffer

def isEmpty (buffer : Buffer) : Bool :=
  buffer.kept.isEmpty

def arrange (kept : List NumberedEdit) : List Edit :=
  (kept.mergeSort fun a b => (a.order b).isLE).map NumberedEdit.edit

def renderRange (buffer : Buffer) : Nat → Span → Bool → Except RenderError (List Char)
  | 0, _, _ => .error .circular
  | depth + 1, range, nested =>
    buffer.draft.splice (fun inner => renderRange buffer depth inner true) range.stop range.start
      (arrange (buffer.kept.filter (·.edit.isWithin range nested)))

def render (buffer : Buffer) : Except RenderError String :=
  (renderRange buffer (buffer.kept.length + 1) ⟨0, word (byteLength buffer.source)⟩ false).map String.ofList

end Buffer

end ComponentMacros
