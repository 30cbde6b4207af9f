import CombLogic.Expr.Basic

/- The ways in which a call on a netlist can fail. -/
namespace CombLogic

inductive NetlistError where
  | widthMismatch (signal : String) (expected actual : Nat)
  | alreadyDriven (signal : String)
  /-- A leaf with a driver cannot be given a value from outside. -/
  | forcedDriven (signal : String)
  /-- The leaves of one cyclic component, ascending. -/
  | combinationalLoop (leaves : List LeafId) (names : List String)
  | placeholder (signal : String)
  | unsizedLiteral (value : Int)
  | conditionWidth (width : Nat)
  | passTooLarge (leaves limit : Nat)
  | value (error : ValueError)
  | unknownLeaf (id : LeafId)
  | unknownBundle (id : BundleId)
  | unknownName (number : Nat)
  /-- A bundle contains itself. -/
  | endlessBundle (id : BundleId)
deriving DecidableEq, Repr

namespace NetlistError

def message : NetlistError → String
  | widthMismatch signal expected actual =>
    s!"width mismatch on '{signal}': expected {expected} bits, got {actual}"
  | alreadyDriven signal => s!"signal '{signal}' is already driven"
  | forcedDriven signal => s!"cannot force '{signal}': it is driven by an expression"
  | combinationalLoop _ names => "combinational loop through " ++ ", ".intercalate names
  | placeholder signal => s!"unresolved scope read of '{signal}'"
  | unsizedLiteral n => s!"integer literal {n} has no width context"
  | conditionWidth width => s!"select condition must be 1 bit wide, got {width} bits"
  | passTooLarge leaves limit => s!"settlement pass affects {leaves} signals, limit is {limit}"
  | value error => error.message
  | unknownLeaf id => s!"no leaf {id}"
  | unknownBundle id => s!"no bundle {id}"
  | unknownName number => s!"no name {number}"
  | endlessBundle id => s!"bundle {id} contains itself"

/-- Whether the call named something that does not exist. -/
def isUnknown : NetlistError → Bool
  | unknownLeaf _ | unknownBundle _ | unknownName _ | endlessBundle _ => true
  | _ => false

end NetlistError

end CombLogic
