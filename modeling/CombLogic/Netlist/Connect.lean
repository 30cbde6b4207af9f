import CombLogic.Netlist.Sizing

/- Drivers and forced values. A leaf is connected once and only while nothing else gives it a value;
   every check of a call comes before its first change. -/
namespace CombLogic.Netlist

/-- The sized form of a driver for a target, if it can be one. -/
def sizedDriver (g : Netlist) (target : Ref) (e : Expr) : Numbering (Except NetlistError) Expr := do
  if let some placeholder := e.firstPlaceholder? then
    throw (.placeholder (← g.nameOf placeholder))
  let expected ← g.widthOf target
  let (sized, actual) ← g.sizeFor e (some expected)
  if actual ≠ expected then throw (.widthMismatch (← g.nameOf target) expected actual)
  return sized

/-- Consecutive slices of an expression, one for each leaf, from bit `low` on. -/
def slices (e : Expr) (low : Nat) :
    List (LeafId × Nat) → Numbering (Except NetlistError) (List (LeafId × Expr))
  | [] => return []
  | (id, width) :: rest => do
    let part ← if width = 0 then Build.literal (.zeros 0) else Build.slice e (low + width - 1) low
    return (id, part) :: (← slices e (low + width) rest)

def leafWidths (g : Netlist) (target : Ref) : Except NetlistError (List (LeafId × Nat)) := do
  (← g.leavesOf target).mapM fun id => return (id, (← g.leaf id).width)

/-- An expression for a whole target cut into one piece for each leaf. -/
def distribute (g : Netlist) (target : Ref) (e : Expr) :
    Numbering (Except NetlistError) (List (LeafId × Expr)) := do
  slices e 0 (← g.leafWidths target)

def requireFree (g : Netlist) (id : LeafId) : Except NetlistError Unit := do
  if ← g.isTaken id then throw (.alreadyDriven (← g.leafName id))

def addReader (reader : LeafId) (g : Netlist) (id : LeafId) : Netlist :=
  g.modifyLeaf id fun leaf => { leaf with readers := leaf.readers.insert reader }

/-- Puts a checked driver in its place. -/
def attach (id : LeafId) (driver : Expr) : StateM Netlist Unit := modify fun g =>
  let g := driver.reads.foldl (addReader id) g
  let g := g.modifyLeaf id fun leaf => { leaf with drive := .driven driver }
  { g with dirty := g.dirty.add id }

def attachAll : List (LeafId × Expr) → StateM Netlist Unit
  | [] => return
  | (id, driver) :: rest => do
    attach id driver
    attachAll rest

/-- What each leaf of a target would be driven by. -/
def driversFor (g : Netlist) (target : Ref) (e : Expr) :
    Numbering (Except NetlistError) (List (LeafId × Expr)) := do
  for id in ← g.leavesOf target do
    g.requireFree id
  let sized ← g.sizedDriver target e
  match target with
  | .leaf id => return [(id, sized)]
  | .bundle _ => g.distribute target sized

/-- Connects every leaf of a target to its piece of an expression. -/
def connect (target : Ref) (e : Expr) : Edit Unit := do
  attachAll (← Edit.build fun g => g.driversFor target e)

/-- Connects a target to the value of another one of the same width. -/
def wire (target source : Ref) : Edit Unit := do
  attachAll (← Edit.build fun g => do g.driversFor target (← g.exprOf source))

def requireForceable (g : Netlist) (id : LeafId) (value : Value) : Except NetlistError Unit := do
  let leaf ← g.leaf id
  if leaf.drive.isDriven then throw (.forcedDriven (← g.leafName id))
  if value.width ≠ leaf.width then
    throw (.widthMismatch (← g.leafName id) leaf.width value.width)

/-- Stages a value for the next pass. -/
def force (id : LeafId) (value : Value) : Edit Unit := do
  Edit.ask (·.requireForceable id value)
  modify fun g => { g with staged := g.staged.insert id value }

/-- Consecutive pieces of a value, one for each leaf, from the lowest bit on. -/
def pieces (bits : List Bit) : List (LeafId × Nat) → List (LeafId × Value)
  | [] => []
  | (id, width) :: rest => (id, ⟨bits.take width⟩) :: pieces (bits.drop width) rest

/-- The pieces of a value for the leaves of a target, each of which could be forced. -/
def forceablePieces (g : Netlist) (target : Ref) (value : Value) :
    Except NetlistError (List (LeafId × Value)) := do
  let expected ← g.widthOf target
  if value.width ≠ expected then
    throw (.widthMismatch (← g.nameOf target) expected value.width)
  let parts := pieces value.bits (← g.leafWidths target)
  for (id, part) in parts do
    g.requireForceable id part
  return parts

def forceWhole (target : Ref) (value : Value) : Edit Unit := do
  for (id, part) in ← Edit.ask (·.forceablePieces target value) do
    force id part

/-- The check for a conflict condition of one bit, if it can be one. -/
def conflictCheck (g : Netlist) (selector : String) (conflict : Expr) :
    Numbering (Except NetlistError) ConflictCheck := do
  if let some placeholder := conflict.firstPlaceholder? then
    throw (.placeholder (← g.nameOf placeholder))
  let (sized, width) ← g.sizeFor conflict (some 1)
  if width ≠ 1 then throw (.widthMismatch selector 1 width)
  return ⟨selector, sized, sized.signals⟩

/-- A new check is evaluated by the next pass whatever that pass touches. -/
def addConflictCheck (check : ConflictCheck) : StateM Netlist Unit := modify fun g =>
  { g with checks := g.checks.push check }

end CombLogic.Netlist
