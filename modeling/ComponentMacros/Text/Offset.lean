/-!
# Byte offsets

Texts are lists of characters, positions are byte offsets into their UTF-8
form. An offset is usable only on a character boundary; cutting a text
anywhere else fails. What is kept of a position or a number has 32 bits.
-/

namespace ComponentMacros

def byteLength : List Char → Nat
  | [] => 0
  | c :: cs => c.utf8Size + byteLength cs

/-- The text after its first `n` bytes, if a character starts there. -/
def dropBytes : List Char → Nat → Option (List Char)
  | cs, 0 => some cs
  | [], _ + 1 => none
  | c :: cs, n + 1 => if c.utf8Size ≤ n + 1 then dropBytes cs (n + 1 - c.utf8Size) else none

def takeBytes : List Char → Nat → Option (List Char)
  | _, 0 => some []
  | [], _ + 1 => none
  | c :: cs, n + 1 =>
    if c.utf8Size ≤ n + 1 then (takeBytes cs (n + 1 - c.utf8Size)).map (c :: ·) else none

/-- The bytes from `lo` to `hi`. Fails on a range that is inverted, reaches
past the end or cuts a character. -/
def slice? (text : List Char) (lo hi : Nat) : Option (List Char) :=
  if lo ≤ hi then (dropBytes text lo).bind (takeBytes · (hi - lo)) else none

/-- What a word of 32 bits keeps of a number. -/
def word (n : Nat) : Nat := n % UInt32.size

def occursIn (needle : List Char) : List Char → Bool
  | [] => needle.isEmpty
  | c :: cs => needle.isPrefixOf (c :: cs) || occursIn needle cs

@[simp] theorem byteLength_nil : byteLength [] = 0 := rfl

@[simp] theorem byteLength_cons (c : Char) (cs : List Char) :
    byteLength (c :: cs) = c.utf8Size + byteLength cs := rfl

@[simp] theorem byteLength_append (a b : List Char) :
    byteLength (a ++ b) = byteLength a + byteLength b := by
  induction a with
  | nil => simp
  | cons c a ih => simp [ih, Nat.add_assoc]

theorem word_of_lt {n : Nat} (h : n < UInt32.size) : word n = n := Nat.mod_eq_of_lt h

end ComponentMacros
