import ComponentMacros.Grammar.Basic

/-!
# Names

Identifiers, keywords, and the names of properties.
-/

namespace ComponentMacros

def isNameToken : Token → Bool
  | .word text _ => !reservedWords.contains text
  | _ => false

namespace Reader

def identifier? : Reader (Option String) := do
  let context ← context
  match ← token with
  | .word text _ =>
    if reservedWords.contains text || (context.awaits && text = "await") ||
        (context.yields && text = "yield") then return none
    else return some text
  | _ => return none

def isAtIdentifier : Reader Bool := return (← identifier?).isSome

def identifier (kind : String → Kind) : Reader Tree := do
  match ← identifier? with
  | some text => nameLeaf (kind text)
  | none => failure

def binding : Reader Tree := identifier .binding

def word (kind : String → Kind) : Reader Tree := do
  match ← token with
  | .word text _ => nameLeaf (kind text)
  | _ => failure

def propertyKey (rules : Rules) : Reader (Tree × Bool) := do
  match ← token with
  | .word text _ => return (← nameLeaf (.name text), false)
  | .string value _ => return (← leaf (.string value), false)
  | .number raw => return (← leaf (.number raw), false)
  | .bigint raw => return (← leaf (.bigint raw), false)
  | .punct "[" =>
    advance
    let key ← within ({ · with noIn := false, noIndex := false }) (rules .assignment)
    expect "]"
    return (key, true)
  | _ => failure

/-- The token after the current one satisfies `p`, given whether a line ended
before it. -/
def nextIs (p : Token → Bool → Bool) : Reader Bool :=
  wouldBe do
    advance
    return p (← token) (← newline)

def nextIsNameOnLine : Reader Bool :=
  nextIs fun next line => !line && isNameToken next

end Reader

end ComponentMacros
