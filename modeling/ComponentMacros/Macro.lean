/-!
# The macros

The seven names a macro module exports. Two define components, one stands for
a type in expression position, and four are written as keys of a component's
options.
-/

namespace ComponentMacros

inductive Macro where
  | component
  | functional
  | type
  | events
  | states
  | scopedSlots
  | injections
  deriving DecidableEq, Repr, Inhabited

namespace Macro

def all : List Macro :=
  [.component, .functional, .type, .events, .states, .scopedSlots, .injections]

/-- The order in which usages are expanded. Definitions come first, since they
take the types of their props; the types left over come last. -/
def expansionOrder : List Macro :=
  [.component, .functional, .events, .states, .scopedSlots, .injections, .type]

def name : Macro → String
  | .component => "component"
  | .functional => "functional"
  | .type => "type"
  | .events => "EVENTS"
  | .states => "STATES"
  | .scopedSlots => "SCOPED_SLOTS"
  | .injections => "INJECTIONS"

def ofName? (name : String) : Option Macro :=
  all.find? (·.name = name)

def isKey : Macro → Bool
  | .events | .states | .scopedSlots | .injections => true
  | .component | .functional | .type => false

end Macro

end ComponentMacros
