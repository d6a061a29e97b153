/-!
# Quoted strings

String literals written into the output. The text is escaped just enough to
be read back: backslashes, the quote in use, and whatever would end a line.
-/

namespace ComponentMacros

inductive QuoteStyle where
  | single
  | double
  deriving DecidableEq, Repr, Inhabited

def QuoteStyle.char : QuoteStyle → Char
  | .single => '\''
  | .double => '"'

def escapeChar (quote c : Char) : List Char :=
  if c = '\\' then ['\\', '\\']
  else if c = '\n' then ['\\', 'n']
  else if c = '\r' then ['\\', 'r']
  else if c = '\t' then ['\\', 't']
  else if c = '\u2028' then ['\\', 'u', '2', '0', '2', '8']
  else if c = '\u2029' then ['\\', 'u', '2', '0', '2', '9']
  else if c = quote then ['\\', c]
  else [c]

def quoteChars (style : QuoteStyle) (value : List Char) : List Char :=
  style.char :: (value.flatMap (escapeChar style.char) ++ [style.char])

def quoteString (style : QuoteStyle) (value : String) : String :=
  String.ofList (quoteChars style value.toList)

end ComponentMacros
