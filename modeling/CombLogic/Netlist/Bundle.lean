import CombLogic.Netlist.Basic
import CombLogic.Value.Layout

/- Bundles seen as their leaves, in the order of the elements and from the lowest bit up. Bundles
   nest; their number bounds the depth, so a walk that goes deeper has met one inside itself. -/
namespace CombLogic.Netlist

def leavesWithin (g : Netlist) : Nat → Ref → Except NetlistError (List LeafId)
  | _, .leaf id => .ok [id]
  | 0, .bundle id => .error (.endlessBundle id)
  | depth + 1, .bundle id => do
    let bundle ← g.bundle id
    return (← bundle.elements.mapM (g.leavesWithin depth)).flatten

def leavesOf (g : Netlist) (target : Ref) : Except NetlistError (List LeafId) :=
  g.leavesWithin g.bundles.size target

def widthWithin (g : Netlist) : Nat → Ref → Except NetlistError Nat
  | _, .leaf id => return (← g.leaf id).width
  | 0, .bundle id => .error (.endlessBundle id)
  | depth + 1, .bundle id => do
    let bundle ← g.bundle id
    return (← bundle.elements.mapM (g.widthWithin depth)).foldr (· + ·) 0

def widthOf (g : Netlist) (target : Ref) : Except NetlistError Nat :=
  g.widthWithin g.bundles.size target

def element (g : Netlist) (id : BundleId) (index : Nat) : Except NetlistError (Option Ref) :=
  return (← g.bundle id).elements[index]?

/-- Follows element indices down; an empty path stays where it starts. -/
def follow (g : Netlist) : Ref → List Nat → Except NetlistError (Option Ref)
  | target, [] => return some target
  | .leaf _, _ :: _ => return none
  | .bundle id, index :: path => do
    match ← g.element id index with
    | some next => g.follow next path
    | none => return none

/-- The value of a leaf, or the values of a bundle's leaves side by side. -/
def read (g : Netlist) (target : Ref) : Except NetlistError Value := do
  match target with
  | .leaf id => g.value id
  | .bundle _ => return .concatLowFirst (← (← g.leavesOf target).mapM g.value)

/-- An expression for the value. -/
def exprOf (g : Netlist) (target : Ref) : Numbering (Except NetlistError) Expr := do
  match target with
  | .leaf id => Build.signal id
  | .bundle _ => Build.concatLowFirst (← (← g.leavesOf target).mapM Build.signal)

def addFields (name : String) (fields : List (String × Nat)) : StateM Netlist BundleId := do
  let leaves ← fields.mapM fun f => addUnknown s!"{name}.{f.1}" f.2
  addBundle name (leaves.map .leaf)

def addElements (name : String) (length width : Nat) : StateM Netlist BundleId := do
  let leaves ← (List.range length).mapM fun i => addUnknown s!"{name}[{i}]" width
  addBundle name (leaves.map .leaf)

/-- An element named after its bundle keeps the rest of its name behind the new one; any other is
    named by its index. -/
def copyName (oldName newName elementName : String) (index : Nat) : String :=
  if oldName.toList.isPrefixOf elementName.toList ∧ oldName.length < elementName.length then
    newName ++ String.ofList (elementName.toList.drop oldName.length)
  else s!"{newName}.{index}"

/-- Copies of elements, inner bundles by the given way of copying a bundle. -/
def cloneElements (cloneInner : BundleId → String → Edit BundleId) (oldName newName : String) :
    Nat → List Ref → Edit (List Ref)
  | _, [] => return []
  | index, element :: rest => do
    let name := copyName oldName newName (← Edit.ask (·.nameOf element)) index
    let copy ← match element with
      | .leaf id => do
        let width := (← Edit.ask (·.leaf id)).width
        pure (Ref.leaf (← addUnknown name width))
      | .bundle id => pure (Ref.bundle (← cloneInner id name))
    return copy :: (← cloneElements cloneInner oldName newName (index + 1) rest)

def cloneWithin : Nat → BundleId → String → Edit BundleId
  | 0, id, _ => throw (.endlessBundle id)
  | depth + 1, id, newName => do
    let bundle ← Edit.ask (·.bundle id)
    let oldName ← Edit.ask (·.nameText bundle.name)
    let copies ← cloneElements (cloneWithin depth) oldName newName 0 bundle.elements
    addBundle newName copies

/-- A copy with fresh leaves and fresh inner bundles. -/
def cloneBundle (id : BundleId) (newName : String) : Edit BundleId := do
  cloneWithin (← get).bundles.size id newName

end CombLogic.Netlist
