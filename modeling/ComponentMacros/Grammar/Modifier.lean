import ComponentMacros.Grammar.Name

/-!
# Modifiers

Words before a declaration, a member, a parameter or a type parameter that say
how it is declared. Every such word is also a name, so it counts as a modifier
only if what it modifies can start after it. Which modifiers a construct takes
is checked by its own rule; their order is checked here.
-/

namespace ComponentMacros

def accessModifiers : List String := ["public", "private", "protected"]

def lineModifiers : List String :=
  accessModifiers ++ ["abstract", "accessor", "async", "declare", "in", "out", "override", "readonly"]

def canFollowModifier : Token → Bool
  | .word _ _ | .string _ _ | .number _ | .bigint _ | .privateName _ => true
  | .punct text => ["[", "\x7b", "*", "..."].contains text
  | _ => false

/-- Modifiers that may not stand before another one: they mean the same, exclude
it, or belong after it. -/
def misplacedBefore : String → List String
  | "public" | "protected" | "private" =>
    accessModifiers ++ ["override", "static", "accessor", "readonly", "async", "abstract"]
  | "static" => ["static", "readonly", "async", "accessor", "abstract", "override"]
  | "override" => ["override", "declare", "readonly", "accessor", "async"]
  | "abstract" => ["abstract", "static", "private", "async", "override", "accessor"]
  | "readonly" => ["readonly", "accessor"]
  | "declare" => ["declare", "async", "override", "accessor"]
  | "async" => ["async", "declare", "abstract"]
  | "accessor" => ["accessor", "readonly", "declare"]
  | "in" => ["in", "out"]
  | "out" => ["out"]
  | "const" => ["const"]
  | _ => []

def areModifiersOrdered : List String → Bool
  | [] => true
  | first :: rest =>
    rest.all (fun later => !(misplacedBefore later).contains first) && areModifiersOrdered rest

namespace Reader

def isModifier (seen : List String) (constant : Bool) (text : String) : Reader Bool := do
  if text = "static" then
    return !seen.contains text &&
      (← nextIs fun next _ => canFollowModifier next && next ≠ .punct "\x7b")
  else if text = "export" then
    nextIs fun next _ =>
      canFollowModifier next && next ≠ .punct "\x7b" && next ≠ .punct "*" && !next.isWord "as"
  else if lineModifiers.contains text || (constant && text = "const") then
    nextIs fun next line => canFollowModifier next && !line
  else return false

/-- Modifiers up to a word that `stop` holds of; `const` is one of them only if
`constant`. -/
def modifiersUntil (stop : String → Bool) (constant : Bool) : Reader (List String) := do
  let words ← extend (fun seen => do
    match ← token with
    | .word text _ =>
      if !stop text && (← isModifier seen constant text) then
        advance
        return some (seen ++ [text])
      return none
    | _ => return none) []
  check (areModifiersOrdered words)
  return words

def modifiers : Reader (List String) :=
  modifiersUntil (fun _ => false) false

def allowModifiers (allowed words : List String) : Reader Unit :=
  check (words.all allowed.contains)

end Reader

end ComponentMacros
