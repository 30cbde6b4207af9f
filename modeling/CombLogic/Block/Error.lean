import CombLogic.Diagnostic.Basic
import CombLogic.Netlist.Error

/- The ways in which a block can be rejected, with the diagnostic for each. -/
namespace CombLogic

inductive BlockError where
  /-- On some path a signal depends on one that is not assigned yet. -/
  | unassignedRead (signal read : String)
  | widthMismatch (target : String) (expected actual : Nat)
  | notOneBit (what : String) (actual : Nat)
  | alreadyDriven (signal : String)
  | overlap (selector : String) (first second : Nat)
  | netlist (error : NetlistError)
deriving DecidableEq, Repr

namespace BlockError

def message : BlockError → String
  | unassignedRead signal read =>
    if signal = read then
      s!"'{signal}' is read before it is assigned on some path (inferred latch)"
    else
      s!"'{signal}' depends on '{read}' before it is assigned on some path (inferred latch)"
  | widthMismatch target expected actual =>
    s!"width mismatch assigning '{target}': expected {expected} bits, got {actual}"
  | notOneBit what actual => s!"{what} must be 1 bit wide, got {actual} bits"
  | alreadyDriven signal =>
    s!"signal '{signal}' is assigned in a combinational block but is already driven"
  | overlap selector first second =>
    s!"unique case on '{selector}': items {first} and {second} overlap"
  | netlist error => error.message

def code : BlockError → Code
  | unassignedRead .. => .error 101
  | widthMismatch .. => .error 102
  | notOneBit .. => .error 103
  | alreadyDriven .. => .error 104
  | overlap .. => .error 201
  | netlist .. => .error 105

def labels : BlockError → List Label
  | unassignedRead signal read =>
    ⟨read, "read before every path assigns it", .primary⟩ ::
      if signal = read then [] else [⟨signal, "depends on it", .secondary⟩]
  | widthMismatch target expected _ => [⟨target, s!"declared {expected} bits wide", .primary⟩]
  | alreadyDriven signal => [⟨signal, "already has a driver", .primary⟩]
  | overlap selector first second =>
    [⟨selector, s!"items {first} and {second} can both match", .primary⟩]
  | notOneBit .. | netlist .. => []

def help : BlockError → List String
  | overlap .. => ["make the items disjoint or relax `unique_overlap` in braid.toml"]
  | _ => []

def diagnostic (e : BlockError) : Diagnostic := .make e.code e.message e.labels [] e.help

/-- Whether the block named something that does not exist. -/
def isUnknown : BlockError → Bool
  | netlist error => error.isUnknown
  | _ => false

end BlockError

end CombLogic
