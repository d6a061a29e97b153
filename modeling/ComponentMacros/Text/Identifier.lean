import ComponentMacros.Text.IdentifierTable

/-!
# Character classes

Which characters make identifiers, end lines and separate tokens.
-/

namespace ComponentMacros

def inRanges (ranges : List (Nat × Nat)) (n : Nat) : Bool :=
  ranges.any fun (lo, hi) => lo ≤ n && n ≤ hi

def isIdentifierStart (c : Char) : Bool :=
  if c.toNat < 128 then c.isAlpha || c = '_' || c = '$'
  else inRanges identifierStartRanges c.toNat

def isIdentifierPart (c : Char) : Bool :=
  if c.toNat < 128 then c.isAlphanum || c = '_' || c = '$'
  else inRanges identifierStartRanges c.toNat || inRanges identifierMarkRanges c.toNat

def isLineEnd (c : Char) : Bool :=
  c = '\n' || c = '\r' || c = '\u2028' || c = '\u2029'

def isBlank (c : Char) : Bool :=
  c = ' ' || c = '\t' || c = '\x0b' || c = '\x0c' || c = '\xa0' || c = '\ufeff' || c = '\x85' ||
    c = '\u1680' || (0x2000 ≤ c.toNat && c.toNat ≤ 0x200b) ||
    c = '\u202f' || c = '\u205f' || c = '\u3000'

def hexDigit? (c : Char) : Option Nat :=
  if c.isDigit then some (c.toNat - '0'.toNat)
  else if 'a' ≤ c ∧ c ≤ 'f' then some (c.toNat - 'a'.toNat + 10)
  else if 'A' ≤ c ∧ c ≤ 'F' then some (c.toNat - 'A'.toNat + 10)
  else none

end ComponentMacros
