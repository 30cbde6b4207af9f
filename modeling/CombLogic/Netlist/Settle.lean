import CombLogic.Netlist.Connect
import CombLogic.Netlist.Eval
import CombLogic.Netlist.Order

/- Settlement. A pass starts from the staged values and the newly connected leaves, evaluates every
   driver downstream of them once, after all drivers that it reads, and only then changes values.
   Conditions watched for overlapping cases are evaluated at the end on the new values. -/
namespace CombLogic

structure Change where
  leaf : LeafId
  old : Value
  new : Value
deriving DecidableEq, Repr

structure Notice where
  subscriber : Nat
  change : Change
deriving DecidableEq, Repr

structure PassReport where
  /-- Every change after those that it depends on. -/
  changes : List Change
  /-- Number of drivers evaluated. -/
  evaluated : Nat
  /-- Selectors of the cases that were reached with several items matching. -/
  conflicts : List String
  notices : List Notice
deriving DecidableEq, Repr

def PassReport.change? (r : PassReport) (id : LeafId) : Option Change :=
  r.changes.find? (·.leaf == id)

/-- A pass computed and not yet committed. -/
structure PassResult where
  order : List LeafId
  values : Std.TreeMap LeafId Value
  evaluated : Nat
  conflicts : List String

namespace Netlist

def readersOf (g : Netlist) (id : LeafId) : List LeafId :=
  match g.leaves.get? id with
  | some leaf => leaf.readers.toList
  | none => []

/-- Staged leaves whose value would change, then the leaves connected since the last pass. -/
def seeds (g : Netlist) : OrderedSet :=
  let changing := g.staged.entries.filter fun entry =>
    match g.leaves.get? entry.1 with
    | some leaf => leaf.value != entry.2
    | none => false
  (OrderedSet.ofList (changing.map Prod.fst)).addAll g.dirty.keys

/-- Everything downstream of the seeds. -/
def affected (g : Netlist) : OrderedSet :=
  Order.reachable g.readersOf g.leaves.size g.seeds

/-- Several leaves, or one that reads itself. -/
def isCyclic (g : Netlist) (component : List LeafId) : Bool :=
  1 < component.length || component.head?.any fun id => (g.readersOf id).contains id

/-- The leaves of a loop, ascending: the cyclic component that holds a leaf. A leaf on a cycle is in
    one, so the other choices never come up. -/
def loopOf (g : Netlist) (ids : List LeafId) (start : LeafId) : List LeafId :=
  let components := Order.components g.readersOf ids
  let holding := (components.filter g.isCyclic).find? (·.contains start)
  let component := (holding.or (components.find? g.isCyclic)).getD [start]
  (IdSet.ofList component).toList

/-- Leaves in an order in which each comes after those that its driver reads. -/
def orderOf (g : Netlist) (ids : List LeafId) : Except NetlistError (List LeafId) :=
  match Order.sort g.readersOf ids with
  | .ok order => .ok order
  | .error start => do
    let cycle := g.loopOf ids start
    throw (.combinationalLoop cycle (← cycle.mapM g.leafName))

/-- Evaluates drivers in order and counts them. -/
def evaluateDrivers (g : Netlist) :
    Evaluation → Nat → List LeafId → Except NetlistError (Evaluation × Nat)
  | ev, count, [] => return (ev, count)
  | ev, count, id :: rest => do
    match (← g.leaf id).drive with
    | .driven driver =>
      let (value, ev) ← ev.run g driver
      g.evaluateDrivers (ev.set id value) (count + 1) rest
    | _ => g.evaluateDrivers ev count rest

/-- Selectors of the checks that are new or read something affected, and now are 1. -/
def evaluateChecks (g : Netlist) (affected : OrderedSet) :
    Evaluation → Nat → List ConflictCheck → Except NetlistError (List String)
  | _, _, [] => return []
  | ev, index, check :: rest => do
    if decide (g.oldChecks ≤ index) || check.reads.any affected.contains then
      let (value, ev) ← ev.run g check.conflict
      let later ← g.evaluateChecks affected ev (index + 1) rest
      return if value = .ofBool true then check.selector :: later else later
    else g.evaluateChecks affected ev (index + 1) rest

def runPass (g : Netlist) : Except NetlistError PassResult := do
  let affected := g.affected
  if g.maxPassNodes < affected.size then throw (.passTooLarge affected.size g.maxPassNodes)
  let order ← g.orderOf affected.keys
  let start := g.staged.entries.foldl (fun ev entry => ev.set entry.1 entry.2) Evaluation.start
  let (ev, evaluated) ← g.evaluateDrivers start 0 order
  let conflicts ← g.evaluateChecks affected ev 0 g.checks.toList
  return ⟨order, ev.values, evaluated, conflicts⟩

def changesOf (g : Netlist) (pass : PassResult) : List Change :=
  pass.order.filterMap fun id =>
    match pass.values[id]?, g.leaves.get? id with
    | some new, some leaf => if leaf.value = new then none else some ⟨id, leaf.value, new⟩
    | _, _ => none

def subscribersOf (g : Netlist) (id : LeafId) : List Nat :=
  match g.leaves.get? id with
  | some leaf => leaf.subscribers.toList
  | none => []

/-- Staged leaves become roots, changed leaves take their new values, and nothing is left to do. -/
def commit (g : Netlist) (changes : List Change) : Netlist :=
  let rooted := g.staged.keys.foldl
    (fun g id => g.modifyLeaf id fun leaf => { leaf with drive := .root }) g
  let settled := changes.foldl
    (fun g change => g.modifyLeaf change.leaf fun leaf => { leaf with value := change.new }) rooted
  { settled with staged := .empty, dirty := .empty, oldChecks := settled.checks.size }

/-- Runs a pass. If it fails, the staged values are gone and everything else is as it was. -/
def settle : Edit PassReport := do
  let g ← get
  match g.runPass with
  | .error e =>
    set { g with staged := .empty }
    throw e
  | .ok pass =>
    let changes := g.changesOf pass
    let notices := changes.flatMap fun change =>
      (g.subscribersOf change.leaf).map fun subscriber => ⟨subscriber, change⟩
    set (g.commit changes)
    return ⟨changes, pass.evaluated, pass.conflicts, notices⟩

def inject (id : LeafId) (value : Value) : Edit PassReport := do
  force id value
  settle

def injectWhole (target : Ref) (value : Value) : Edit PassReport := do
  forceWhole target value
  settle

end Netlist

end CombLogic
