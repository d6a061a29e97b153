import ComponentMacros.Text.Identifier

/-!
# Escapes

Reading the escapes of string literals, templates and identifiers. A literal
denotes a list of code points; escapes can write halves of surrogate pairs,
which no character stands for.
-/

namespace ComponentMacros

def hexValue? (digits : List Char) : Option Nat :=
  digits.foldl (fun n c => n.bind fun n => (hexDigit? c).map (n * 16 + ·)) (some 0)

def unicodeEscape? : List Char → Option (Nat × List Char)
  | '\x7b' :: cs =>
    let digits := cs.takeWhile (hexDigit? · |>.isSome)
    match digits, cs.dropWhile (hexDigit? · |>.isSome), hexValue? digits with
    | _ :: _, '\x7d' :: rest, some n => if n ≤ 0x10ffff then some (n, rest) else none
    | _, _, _ => none
  | a :: b :: c :: d :: rest => (hexValue? [a, b, c, d]).map (·, rest)
  | _ => none

def octalDigit? (c : Char) : Option Nat :=
  if '0' ≤ c ∧ c ≤ '7' then some (c.toNat - '0'.toNat) else none

def octalEscape (first : Nat) (cs : List Char) : Nat × List Char :=
  match cs with
  | b :: rest =>
    match octalDigit? b with
    | none => (first, cs)
    | some second =>
      match rest with
      | c :: rest' =>
        match octalDigit? c with
        | some third =>
          if first < 4 then (first * 64 + second * 8 + third, rest') else (first * 8 + second, rest)
        | none => (first * 8 + second, rest)
      | [] => (first * 8 + second, rest)
  | [] => (first, cs)

def isLeadSurrogate (n : Nat) : Bool := 0xd800 ≤ n && n < 0xdc00

def isTrailSurrogate (n : Nat) : Bool := 0xdc00 ≤ n && n < 0xe000

/-- The trailing half of a surrogate pair, if the text goes on with the escape of
one. Only an escape of four digits writes a half that pairs up. -/
def trailEscape? : List Char → Option (Nat × List Char)
  | '\\' :: 'u' :: a :: b :: c :: d :: rest =>
    (hexValue? [a, b, c, d]).bind fun n => if isTrailSurrogate n then some (n, rest) else none
  | _ => none

/-- Code point of a Unicode escape in a literal, after the `u`. Two adjacent
escapes of four digits that write the halves of a pair stand for one. -/
def pairedEscape? (cs : List Char) : Option (Nat × List Char) :=
  (unicodeEscape? cs).map fun (n, rest) =>
    if isLeadSurrogate n && cs.head? ≠ some '\x7b' then
      match trailEscape? rest with
      | some (trail, rest) => (0x10000 + (n - 0xd800) * 0x400 + (trail - 0xdc00), rest)
      | none => (n, rest)
    else (n, rest)

/-- What an escape stands for, after its backslash. An escaped line end stands
for nothing. -/
def escape? : List Char → Option (List Nat × List Char)
  | [] => none
  | 'n' :: cs => some ([10], cs)
  | 't' :: cs => some ([9], cs)
  | 'r' :: cs => some ([13], cs)
  | 'b' :: cs => some ([8], cs)
  | 'v' :: cs => some ([11], cs)
  | 'f' :: cs => some ([12], cs)
  | '\r' :: '\n' :: cs => some ([], cs)
  | 'x' :: cs =>
    match cs with
    | a :: b :: rest => (hexValue? [a, b]).map ([·], rest)
    | _ => none
  | 'u' :: cs => (pairedEscape? cs).map fun (n, rest) => ([n], rest)
  | c :: cs =>
    if isLineEnd c then some ([], cs)
    else match octalDigit? c with
      | some first =>
        let (n, rest) := octalEscape first cs
        some ([n], rest)
      | none => some ([c.toNat], cs)

def decodeUnits : Nat → List Char → Option (List Nat)
  | _, [] => some []
  | 0, _ :: _ => none
  | fuel + 1, c :: cs =>
    if c = '\\' then
      match escape? cs with
      | some (units, rest) => (decodeUnits fuel rest).map (units ++ ·)
      | none => none
    else (decodeUnits fuel cs).map (c.toNat :: ·)

def isLoneSurrogate (n : Nat) : Bool := isLeadSurrogate n || isTrailSurrogate n

def hexChar (n : Nat) : Char :=
  if n < 10 then Char.ofNat ('0'.toNat + n) else Char.ofNat ('a'.toNat + (n - 10))

/-- A code point that stays apart from the others: the replacement character
and four digits. -/
def spellUnit (n : Nat) : List Char :=
  ['\ufffd', hexChar (n / 4096 % 16), hexChar (n / 256 % 16), hexChar (n / 16 % 16),
    hexChar (n % 16)]

/-- Characters of a list of code points. If a lone surrogate is among them, it
and every replacement character are spelled out. -/
def charsOfUnits (units : List Nat) : List Char :=
  let spelled := units.any isLoneSurrogate
  units.flatMap fun n =>
    if isLoneSurrogate n || (spelled && n = 0xfffd) then spellUnit n else [Char.ofNat n]

/-- Value of a string literal, given its text between the quotes, and whether
it is made of characters alone. -/
def decodeLiteral? (body : List Char) : Option (String × Bool) :=
  (decodeUnits body.length body).map fun units =>
    (String.ofList (charsOfUnits units), !units.any isLoneSurrogate)

def isPlainTemplate : Nat → List Char → Bool
  | _, [] => true
  | 0, _ :: _ => false
  | fuel + 1, c :: cs =>
    if c = '\\' then
      let octal := match cs with
        | '0' :: d :: _ => d.isDigit
        | d :: _ => d.isDigit && d ≠ '0'
        | [] => false
      match escape? cs with
      | some (_, rest) => !octal && isPlainTemplate fuel rest
      | none => false
    else isPlainTemplate fuel cs

end ComponentMacros
