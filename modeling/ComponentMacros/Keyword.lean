/-!
# Keywords

Words that mean something to the grammar. Reserved words never name anything;
the others are keywords only where the grammar expects them, and names
everywhere else.
-/

namespace ComponentMacros

def reservedWords : List String :=
  ["break", "case", "catch", "class", "const", "continue", "debugger", "default", "delete", "do",
   "else", "enum", "export", "extends", "false", "finally", "for", "function", "if", "import",
   "in", "instanceof", "new", "null", "return", "super", "switch", "this", "throw", "true", "try",
   "typeof", "var", "void", "while", "with"]

def suspendingWords : List String := ["await", "yield"]

def futureReservedWords : List String :=
  ["implements", "interface", "let", "package", "private", "protected", "public", "static"]

def contextualWords : List String :=
  ["abstract", "accessor", "any", "as", "assert", "asserts", "async", "bigint", "boolean",
   "constructor", "declare", "defer", "from", "get", "global", "infer", "intrinsic", "is", "keyof",
   "meta", "module", "namespace", "never", "number", "object", "of", "out", "override", "readonly",
   "require", "satisfies", "set", "source", "string", "symbol", "target", "type", "undefined",
   "unique", "unknown", "using"]

def isKeyword (text : String) : Bool :=
  reservedWords.contains text || suspendingWords.contains text ||
    futureReservedWords.contains text || contextualWords.contains text

end ComponentMacros
