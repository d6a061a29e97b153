import ComponentMacros.Text.Escape
import ComponentMacros.Text.Offset

/-!
# Tokens

The lexical elements of the language and how the next one is read off a text.
What a slash or an angle bracket means depends on where it stands, so the
readers here give the shortest reading, and the grammar asks for the other one
where it expects it.
-/

namespace ComponentMacros

inductive Token where
  | done
  /-- An identifier or a keyword, with escapes read. -/
  | word (text : String) (escaped : Bool)
  | privateName (text : String)
  | punct (text : String)
  /-- A string literal; `plain` if its value is made of characters alone. -/
  | string (value : String) (plain : Bool)
  | number (raw : String)
  | bigint (raw : String)
  /-- A template up to its end, or up to the first substitution. -/
  | template (raw : String) (isLast : Bool)
  | invalid
  deriving DecidableEq, Repr, Inhabited

/-- A place in a text: what is left of it, and how many bytes came before. -/
structure Cursor where
  rest : List Char
  offset : Nat
  deriving Repr, Inhabited

namespace Cursor

def past (cursor : Cursor) (raw rest : List Char) : Cursor :=
  ⟨rest, cursor.offset + byteLength raw⟩

end Cursor

def Token.isWord (text : String) : Token → Bool
  | .word own _ => own = text
  | _ => false

def Token.isAnyWord (texts : List String) : Token → Bool
  | .word own _ => texts.contains own
  | _ => false

/-! ## Blanks and comments -/

/-- What becomes of a comment between the marks of a page that holds the text:
one that starts with `<!--`, or with `-->` at the start of a line. -/
inductive PageComments where
  | skipped
  | refused
  | absent
  deriving DecidableEq, Repr, Inhabited

/-- What a text between two tokens is in the middle of. -/
inductive Gap where
  | blank
  | lineComment
  | blockComment
  deriving DecidableEq

/-- A page comment starts here. `fresh` says that no token stands before it on
its line. -/
def startsPageComment (fresh : Bool) : List Char → Bool
  | '<' :: '!' :: '-' :: '-' :: _ => true
  | '-' :: '-' :: '>' :: _ => fresh
  | _ => false

/-- Skip blanks and comments, given whether the text before ends a line. Also says
whether a line ended, and whether every comment was closed and allowed. -/
def skipGap (page : PageComments) : Gap → List Char → Nat → Bool → Cursor × Bool × Bool
  | gap, [], offset, newline => (⟨[], offset⟩, newline, gap ≠ .blockComment)
  | .blank, '/' :: '/' :: cs, offset, newline => skipGap page .lineComment cs (offset + 2) newline
  | .blank, '/' :: '*' :: cs, offset, newline => skipGap page .blockComment cs (offset + 2) newline
  | .blank, c :: cs, offset, newline =>
    if isLineEnd c then skipGap page .blank cs (offset + c.utf8Size) true
    else if isBlank c then skipGap page .blank cs (offset + c.utf8Size) newline
    else
      let marked := page ≠ .absent && startsPageComment newline (c :: cs)
      if marked && page = .skipped then skipGap page .lineComment cs (offset + c.utf8Size) newline
      else (⟨c :: cs, offset⟩, newline, !marked)
  | .lineComment, c :: cs, offset, newline =>
    if isLineEnd c then skipGap page .blank cs (offset + c.utf8Size) true
    else skipGap page .lineComment cs (offset + c.utf8Size) newline
  | .blockComment, '*' :: '/' :: cs, offset, newline => skipGap page .blank cs (offset + 2) newline
  | .blockComment, c :: cs, offset, newline =>
    skipGap page .blockComment cs (offset + c.utf8Size) (newline || isLineEnd c)

/-! ## Words -/

/-- A word: its value with escapes read, its text, and the rest. Fails on an
escape that names no identifier character. -/
def readWord : Nat → Bool → List Char → Option (List Char × List Char × List Char)
  | 0, _, cs => some ([], [], cs)
  | fuel + 1, first, cs =>
    match cs with
    | '\\' :: rest =>
      match rest with
      | 'u' :: rest =>
        match unicodeEscape? rest with
        | some (n, after) =>
          let c := Char.ofNat n
          if (if first then isIdentifierStart c else isIdentifierPart c) then
            (readWord fuel false after).map fun (value, raw, last) =>
              (c :: value, cs.take (cs.length - after.length) ++ raw, last)
          else none
        | none => none
      | _ => none
    | c :: rest =>
      if (if first then isIdentifierStart c else isIdentifierPart c) then
        (readWord fuel false rest).map fun (value, raw, last) => (c :: value, c :: raw, last)
      else some ([], [], cs)
    | [] => some ([], [], [])

/-! ## Numbers -/

def isDigitRun (digits : List Char) : Bool :=
  match digits with
  | [] => false
  | '_' :: _ => false
  | _ => digits.getLast? ≠ some '_' && !occursIn ['_', '_'] digits

def isDecimalChar (c : Char) : Bool := c.isDigit || c = '_'

def readExponent (cs : List Char) : Option (List Char × List Char) :=
  match cs with
  | e :: rest =>
    if e = 'e' || e = 'E' then
      let (sign, rest) := match rest with
        | s :: rest' => if s = '+' || s = '-' then ([s], rest') else ([], rest)
        | [] => ([], rest)
      let digits := rest.takeWhile isDecimalChar
      if isDigitRun digits then some (e :: sign ++ digits, rest.dropWhile isDecimalChar) else none
    else some ([], cs)
  | [] => some ([], cs)

def readRadix (isDigit : Char → Bool) (head rest : List Char) :
    Option (List Char × List Char × Bool) :=
  let digits := rest.takeWhile fun c => isDigit c || c = '_'
  let rest := rest.drop digits.length
  if isDigitRun digits then
    match rest with
    | 'n' :: rest => some (head ++ digits ++ ['n'], rest, true)
    | _ => some (head ++ digits, rest, false)
  else none

def readFraction (whole rest : List Char) : Option (List Char × List Char × Bool) :=
  match rest with
  | '.' :: rest =>
    let fraction := rest.takeWhile isDecimalChar
    if fraction.isEmpty && whole.isEmpty then none
    else if !(fraction.isEmpty || isDigitRun fraction) then none
    else (readExponent (rest.dropWhile isDecimalChar)).map fun (e, rest) =>
      (whole ++ '.' :: fraction ++ e, rest, false)
  | _ => (readExponent rest).map fun (e, rest) => (whole ++ e, rest, false)

/-- A literal whose whole part starts with a zero that other digits follow. It is
octal unless a digit says otherwise, and an octal one has no other part. -/
def readZeroLed (cs : List Char) : Option (List Char × List Char × Bool) :=
  let whole := cs.takeWhile Char.isDigit
  let rest := cs.dropWhile Char.isDigit
  if whole.all (octalDigit? · |>.isSome) then some (whole, rest, false)
  else readFraction whole rest

/-- A decimal literal: its text, the rest, and whether it is a big integer. -/
def readDecimal (cs : List Char) : Option (List Char × List Char × Bool) :=
  let whole := cs.takeWhile isDecimalChar
  match cs.dropWhile isDecimalChar with
  | 'n' :: rest => if isDigitRun whole then some (whole ++ ['n'], rest, true) else none
  | rest => if whole.isEmpty || isDigitRun whole then readFraction whole rest else none

/-- A numeric literal. No identifier or digit may follow it directly, and no
underscore a leading zero. -/
def readNumber (cs : List Char) : Option (List Char × List Char × Bool) := do
  let number ← match cs with
    | '0' :: x :: rest =>
      if x = 'x' || x = 'X' then readRadix (hexDigit? · |>.isSome) ['0', x] rest
      else if x = 'o' || x = 'O' then readRadix (octalDigit? · |>.isSome) ['0', x] rest
      else if x = 'b' || x = 'B' then readRadix (fun c => c = '0' || c = '1') ['0', x] rest
      else if x = '_' then none
      else if x.isDigit then readZeroLed cs
      else readDecimal cs
    | _ => readDecimal cs
  match number.2.1 with
  | c :: _ => if isIdentifierPart c || c = '\\' then none else some number
  | [] => some number

/-! ## Quoted text -/

def readQuoted (quote : Char) : List Char → Option (List Char × List Char)
  | [] => none
  | '\\' :: '\r' :: '\n' :: cs =>
    (readQuoted quote cs).map fun (body, rest) => ('\\' :: '\r' :: '\n' :: body, rest)
  | '\\' :: c :: cs => (readQuoted quote cs).map fun (body, rest) => ('\\' :: c :: body, rest)
  | c :: cs =>
    if c = quote then some ([], cs)
    else if c = '\n' || c = '\r' then none
    else (readQuoted quote cs).map fun (body, rest) => (c :: body, rest)

/-- A template up to its closing backquote or its next substitution: the text,
the rest, and whether the template ends. -/
def readTemplate : List Char → Option (List Char × List Char × Bool)
  | [] => none
  | '\\' :: c :: cs =>
    (readTemplate cs).map fun (body, rest, isLast) => ('\\' :: c :: body, rest, isLast)
  | '$' :: '\x7b' :: cs => some ([], cs, false)
  | c :: cs =>
    if c = '\x60' then some ([], cs, true)
    else (readTemplate cs).map fun (body, rest, isLast) => (c :: body, rest, isLast)

def readRegexBody (inClass : Bool) : List Char → Option (List Char × List Char)
  | [] => none
  | '\\' :: c :: cs =>
    if isLineEnd c then none
    else (readRegexBody inClass cs).map fun (body, rest) => ('\\' :: c :: body, rest)
  | c :: cs =>
    if isLineEnd c then none
    else if c = '/' && !inClass then some ([], cs)
    else
      let inClass := if c = '[' then true else if c = ']' then false else inClass
      (readRegexBody inClass cs).map fun (body, rest) => (c :: body, rest)

/-- Flags of a regular expression: known ones, none of them twice, and only one
of the two that choose a reading of code points. -/
def areRegexFlags (flags : List Char) : Bool :=
  flags.all ("dgimsuvy".toList.contains ·) && decide flags.Nodup &&
    !(flags.contains 'u' && flags.contains 'v')

/-! ## The next token -/

/-- Punctuators, the longer ones first. Angle brackets stand alone. -/
def punctuators : List String :=
  ["...", "===", "!==", "**=", "&&=", "||=", "??=",
   "=>", "==", "!=", "++", "--", "+=", "-=", "*=", "/=", "%=", "&=", "|=", "^=",
   "&&", "||", "??", "?.", "**",
   "\x7b", "\x7d", "(", ")", "[", "]", ";", ",", "<", ">", "+", "-", "*", "/", "%", "&", "|", "^",
   "!", "~", "?", ":", "=", ".", "@"]

/-- The longest of `texts` the text starts with. A question mark and a dot
before a digit stay apart. -/
def readPunct (texts : List String) (cs : List Char) : Option (String × List Char) :=
  (texts.find? fun text =>
    text.toList.isPrefixOf cs &&
      !(text = "?." && ((cs.drop 2).head?.map Char.isDigit).getD false)).map fun text =>
    (text, cs.drop text.length)

/-- A token, the text it was read from, and the text after it. -/
structure Lexeme where
  token : Token
  raw : List Char
  rest : List Char
  deriving Repr, Inhabited

def readLexeme (cs : List Char) : Lexeme :=
  match cs with
  | [] => ⟨.done, [], []⟩
  | c :: rest =>
    if c = '"' || c = '\'' then
      match readQuoted c rest with
      | some (body, after) =>
        match decodeLiteral? body with
        | some (value, plain) => ⟨.string value plain, c :: body ++ [c], after⟩
        | none => ⟨.invalid, [], cs⟩
      | none => ⟨.invalid, [], cs⟩
    else if c = '\x60' then
      match readTemplate rest with
      | some (body, after, isLast) =>
        ⟨.template (String.ofList body) isLast,
          c :: body ++ (if isLast then [c] else ['$', '\x7b']), after⟩
      | none => ⟨.invalid, [], cs⟩
    else if c.isDigit || (c = '.' && (rest.head?.map Char.isDigit).getD false) then
      match readNumber cs with
      | some (raw, after, big) =>
        ⟨if big then .bigint (String.ofList raw) else .number (String.ofList raw), raw, after⟩
      | none => ⟨.invalid, [], cs⟩
    else if c = '#' then
      match readWord rest.length true rest with
      | some (name@(_ :: _), raw, after) => ⟨.privateName (String.ofList name), c :: raw, after⟩
      | _ => ⟨.invalid, [], cs⟩
    else if isIdentifierStart c || c = '\\' then
      match readWord cs.length true cs with
      | some (name@(_ :: _), raw, after) =>
        ⟨.word (String.ofList name) (raw.length ≠ name.length), raw, after⟩
      | _ => ⟨.invalid, [], cs⟩
    else match readPunct punctuators cs with
      | some (text, after) => ⟨.punct text, text.toList, after⟩
      | none => ⟨.invalid, [], cs⟩

end ComponentMacros
