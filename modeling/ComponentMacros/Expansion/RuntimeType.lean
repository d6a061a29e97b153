import ComponentMacros.Expansion.Member

/-!
# Runtime types

The expression that checks a prop at run time, for the types that have one.
-/

namespace ComponentMacros

mutual

/-- The runtime expression of a type. A union becomes the list of its members,
and a type without a runtime counterpart is erased. -/
def runtimeType : Tree → String
  | .node (.keywordType "number") _ _ => "Number"
  | .node (.keywordType "boolean") _ _ => "Boolean"
  | .node (.keywordType "string") _ _ => "String"
  | .node .functionType _ _ => "Function"
  | .node (.keywordType "object") _ _ => "Object"
  | .node .typeLiteral _ _ => "Object"
  | .node (.keywordType "symbol") _ _ => "Symbol"
  | .node .tupleType _ _ => "Array"
  | .node .arrayType _ _ => "Array"
  | .node (.keywordType "null") _ _ => "null"
  | .node .parenthesizedType _ [inner] => runtimeType inner
  | .node .unionType _ members => "[" ++ ", ".intercalate (runtimeTypes members) ++ "]"
  | _ => erasedText

def runtimeTypes : List Tree → List String
  | [] => []
  | t :: ts => runtimeType t :: runtimeTypes ts

end

end ComponentMacros
