import ComponentMacros.Span
import ComponentMacros.Text.Offset

/-!
# Edits

Changes are recorded as edits against one unchanging source and rendered in a
single pass from left to right, so text that no edit touches is copied as it
stands. Content may refer back to a range of the source; such a range is
rendered with the edits inside it, which is how a piece of code moves and keeps
its own changes.
-/

namespace ComponentMacros

inductive Piece where
  | text (text : String)
  | source (range : Span)
  deriving DecidableEq, Repr

/-- Replacement content; it holds no empty text. -/
abbrev Fragment := List Piece

def Fragment.ofText (text : String) : Fragment :=
  if text.isEmpty then [] else [.text text]

def Fragment.ofPieces (pieces : List Piece) : Fragment :=
  pieces.filter fun
    | .text t => !t.isEmpty
    | .source _ => true

/-- Where the content of an edit goes. -/
inductive Placement where
  /-- At a position, before what earlier edits put there. -/
  | prepend
  /-- At a position, after what earlier edits put there. -/
  | append
  /-- In place of a range. -/
  | overwrite
  deriving DecidableEq, Repr

/-- At one position prepended content comes first and replacements last. -/
def Placement.rank : Placement → Nat
  | .prepend => 0
  | .append => 1
  | .overwrite => 2

structure Edit where
  placement : Placement
  span : Span
  content : Fragment
  deriving DecidableEq, Repr

namespace Edit

def prepend (pos : Nat) (text : String) : Edit :=
  ⟨.prepend, ⟨pos, pos⟩, .ofText text⟩

def append (pos : Nat) (text : String) : Edit :=
  ⟨.append, ⟨pos, pos⟩, .ofText text⟩

def overwrite (span : Span) (text : String) : Edit :=
  ⟨.overwrite, span, .ofText text⟩

def remove (start stop : Nat) : Edit :=
  ⟨.overwrite, ⟨start, stop⟩, []⟩

/-- The edit belongs to the rendering of `range`. An insertion on the boundary
of a nested range belongs to the code around it. -/
def isWithin (e : Edit) (range : Span) (nested : Bool) : Bool :=
  match e.placement with
  | .overwrite => range.contains e.span
  | _ =>
    if nested then range.start < e.span.start && e.span.start < range.stop
    else range.start ≤ e.span.start && e.span.start ≤ range.stop

/-- The content of `e` refers to a range whose rendering includes `f`. -/
def selects (e f : Edit) : Bool :=
  e.content.any fun
    | .text _ => false
    | .source range => f.isWithin range true

/-- Rendering order: by start, by rank, and of two replacements that start
together the longer one first. -/
def le (a b : Edit) : Bool :=
  if a.span.start ≠ b.span.start then a.span.start < b.span.start
  else if a.placement ≠ b.placement then a.placement.rank < b.placement.rank
  else match a.placement with
    | .overwrite => b.span.stop ≤ a.span.stop
    | _ => true

/-- Insert into an arranged list, before the edits that do not come earlier. -/
def insertArranged (e : Edit) : List Edit → List Edit
  | [] => [e]
  | f :: fs => if e.le f then e :: f :: fs else f :: insertArranged e fs

/-- Arrange edits by `le`, edits that tie staying as they are. -/
def sort : List Edit → List Edit
  | [] => []
  | e :: es => insertArranged e (sort es)

/-- Edits in the order they are rendered. Of two prepends at one position the
later recorded one comes first. -/
def arrange (edits : List Edit) : List Edit :=
  sort ((edits.filter (·.placement = .prepend)).reverse ++
    edits.filter (·.placement ≠ .prepend))

end Edit

structure Draft where
  source : List Char
  edits : List Edit

inductive RenderError where
  /-- A position is out of range or inside a character, or a range is inverted. -/
  | badRange
  /-- References lead back to an edit that is being rendered. -/
  | circular
  deriving DecidableEq, Repr

namespace Draft

def ofText (source : String) : Draft :=
  ⟨source.toList, []⟩

def isEmpty (draft : Draft) : Bool :=
  draft.edits.isEmpty

def record (draft : Draft) (e : Edit) : Draft :=
  if e.selects e then draft else { draft with edits := draft.edits ++ [e] }

def recordAll (draft : Draft) (edits : List Edit) : Draft :=
  edits.foldl record draft

def slice (draft : Draft) (range : Span) : Except RenderError (List Char) :=
  match slice? draft.source range.start range.stop with
  | some text => .ok text
  | none => .error .badRange

def renderContent (inner : Span → Except RenderError (List Char)) :
    Fragment → Except RenderError (List Char)
  | [] => .ok []
  | .text t :: pieces => do
    let rest ← renderContent inner pieces
    return t.toList ++ rest
  | .source range :: pieces => do
    let moved ← inner range
    let rest ← renderContent inner pieces
    return moved ++ rest

/-- Copy the source from `cursor` to `stop`, applying arranged edits on the
way. An edit that starts before the cursor lies in replaced text and is
dropped. -/
def splice (draft : Draft) (inner : Span → Except RenderError (List Char)) (stop : Nat) :
    Nat → List Edit → Except RenderError (List Char)
  | cursor, [] => draft.slice ⟨cursor, stop⟩
  | cursor, e :: es =>
    if e.span.start < cursor then splice draft inner stop cursor es
    else do
      let kept ← draft.slice ⟨cursor, e.span.start⟩
      let content ← renderContent inner e.content
      let rest ← splice draft inner stop e.span.stop es
      return kept ++ content ++ rest

def renderRange (draft : Draft) : Nat → Span → Bool → Except RenderError (List Char)
  | 0, _, _ => .error .circular
  | depth + 1, range, nested =>
    splice draft (fun inner => renderRange draft depth inner true) range.stop range.start
      (Edit.arrange (draft.edits.filter (·.isWithin range nested)))

/-- Render the whole source with every edit applied. A chain of references that
visits no edit twice is never deeper than the number of edits. -/
def render (draft : Draft) : Except RenderError String :=
  (renderRange draft (draft.edits.length + 1) ⟨0, byteLength draft.source⟩ false).map
    String.ofList

end Draft

end ComponentMacros
