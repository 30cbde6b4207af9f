import CombLogic.Ascending
import CombLogic.Numbered
import CombLogic.Expr.Traverse
import CombLogic.Expr.Build
import CombLogic.Netlist.Error
import CombLogic.Ordered

/- A netlist: leaves with their values and drivers, bundles over them, and the work that waits for
   the next settlement pass. Calls that change a netlist are edits, which return an answer or an
   error beside the netlist that they leave behind. -/
namespace CombLogic

/-- Where a leaf has its value from. -/
inductive Drive where
  /-- Nothing has written it. -/
  | undriven
  /-- Its value is put in from outside. -/
  | root
  /-- Its value is the settled one of an expression. -/
  | driven (driver : Expr)
deriving Repr, Inhabited

namespace Drive

def isDriven : Drive → Bool
  | driven _ => true
  | _ => false

def driver? : Drive → Option Expr
  | driven e => some e
  | _ => none

end Drive

structure Leaf where
  name : Nat
  width : Nat
  value : Value
  drive : Drive
  /-- Leaves whose driver reads this one. -/
  readers : Ascending
  /-- Numbers of those who want to hear of changes. -/
  subscribers : Array Nat
deriving Inhabited

structure Bundle where
  name : Nat
  /-- Element 0 holds the lowest bits. -/
  elements : List Ref
deriving Repr, Inhabited

/-- A condition that a pass watches: it is 1 when a case is reached with several items matching. -/
structure ConflictCheck where
  selector : String
  conflict : Expr
  reads : List LeafId
deriving Repr, Inhabited

structure Netlist where
  leaves : Numbered Leaf
  bundles : Numbered Bundle
  names : Names
  /-- Values that wait for the next pass, in the order in which the leaves were first forced. -/
  staged : OrderedMap Value
  /-- Leaves connected since the last pass that went through, in the order of connection. -/
  dirty : OrderedSet
  checks : Array ConflictCheck
  /-- How many of the checks were there at the last pass that went through. -/
  oldChecks : Nat
  maxPassNodes : Nat
  /-- The number of the next expression node. -/
  nextNode : Nat
  /-- The number of the next subscriber. -/
  nextSubscriber : Nat

abbrev Edit := ExceptT NetlistError (StateM Netlist)

namespace Netlist

def empty (maxPassNodes : Nat) : Netlist where
  leaves := .empty
  bundles := .empty
  names := .empty
  staged := .empty
  dirty := .empty
  checks := #[]
  oldChecks := 0
  maxPassNodes := maxPassNodes
  nextNode := 0
  nextSubscriber := 0

def leaf (g : Netlist) (id : LeafId) : Except NetlistError Leaf :=
  match g.leaves.get? id with
  | some leaf => .ok leaf
  | none => .error (.unknownLeaf id)

def bundle (g : Netlist) (id : BundleId) : Except NetlistError Bundle :=
  match g.bundles.get? id with
  | some bundle => .ok bundle
  | none => .error (.unknownBundle id)

def nameText (g : Netlist) (number : Nat) : Except NetlistError String :=
  match g.names.text? number with
  | some name => .ok name
  | none => .error (.unknownName number)

def value (g : Netlist) (id : LeafId) : Except NetlistError Value := return (← g.leaf id).value

def leafName (g : Netlist) (id : LeafId) : Except NetlistError String := do
  g.nameText (← g.leaf id).name

def nameOf (g : Netlist) : Ref → Except NetlistError String
  | .leaf id => g.leafName id
  | .bundle id => do g.nameText (← g.bundle id).name

/-- Whether a leaf has a driver, was put in from outside, or is about to be. -/
def isTaken (g : Netlist) (id : LeafId) : Except NetlistError Bool := do
  match (← g.leaf id).drive with
  | .undriven => return g.staged.contains id
  | _ => return true

def modifyLeaf (g : Netlist) (id : LeafId) (f : Leaf → Leaf) : Netlist :=
  { g with leaves := g.leaves.modify id f }

end Netlist

namespace Edit

variable {α : Type}

/-- Looks something up and changes nothing. -/
def ask (f : Netlist → Except NetlistError α) : Edit α := fun g => (f g, g)

/-- Builds expressions, which uses up node numbers unless it fails. -/
def build (f : Netlist → Numbering (Except NetlistError) α) : Edit α := fun g =>
  match f g g.nextNode with
  | .ok (a, next) => (.ok a, { g with nextNode := next })
  | .error e => (.error e, g)

end Edit

namespace Netlist

def intern (name : String) : StateM Netlist Nat := fun g =>
  let (number, names) := g.names.intern name
  (number, { g with names := names })

/-- A new leaf holds its first value undriven. -/
def addLeaf (name : String) (init : Value) : StateM Netlist LeafId := do
  let number ← intern name
  let g ← get
  let (id, leaves) := g.leaves.add ⟨number, init.width, init, .undriven, .empty, #[]⟩
  set { g with leaves := leaves }
  return id

def addUnknown (name : String) (width : Nat) : StateM Netlist LeafId :=
  addLeaf name (.unknown width)

def addBundle (name : String) (elements : List Ref) : StateM Netlist BundleId := do
  let number ← intern name
  let g ← get
  let (id, bundles) := g.bundles.add ⟨number, elements⟩
  set { g with bundles := bundles }
  return id

def subscribe (id : LeafId) : Edit Nat := do
  discard <| Edit.ask (·.leaf id)
  let g ← get
  let number := g.nextSubscriber
  set { g.modifyLeaf id fun leaf => { leaf with subscribers := leaf.subscribers.push number } with
    nextSubscriber := number + 1 }
  return number

end Netlist

end CombLogic
