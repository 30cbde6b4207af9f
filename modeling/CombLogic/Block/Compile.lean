import CombLogic.Block.Execute

/- Compilation of a block into drivers. The statements are executed on a binding in which every leaf
   that they assign is unassigned; the expressions at the end are checked, and only if all of them
   pass are they installed. -/
namespace CombLogic

structure BlockSummary where
  /-- Leaves that got a driver, in the order of their first assignment. -/
  outputs : List LeafId
  /-- Number of statements, nested ones included. -/
  statements : Nat
deriving DecidableEq, Repr

/-- A netlist and the place where diagnostics go, if there is one. -/
structure Session where
  netlist : Netlist
  log : Option DiagnosticLog

abbrev Compiling := ExceptT BlockError (StateM Session)

namespace Compiling

def ask {α : Type} (f : Netlist → Except NetlistError α) : Compiling α := fun s =>
  ((f s.netlist).mapError .netlist, s)

def edit {α : Type} (e : Edit α) : Compiling α := fun s =>
  let (result, g) := e s.netlist
  (result.mapError .netlist, { s with netlist := g })

/-- What an execution reports stays in the log even if it fails. -/
def execute {α : Type} (r : Executing α) : Compiling α := fun s =>
  match r ⟨s.netlist.nextNode, s.log, #[]⟩ with
  | (.ok a, t) => (.ok a, ⟨{ s.netlist with nextNode := t.nextNode }, t.log⟩)
  | (.error e, t) => (.error e, { s with log := t.log })

end Compiling

namespace Block

/-- Leaves assigned anywhere in a block, each once. -/
def outputs (g : Netlist) (statements : List Stmt) : Except NetlistError (List LeafId) := do
  return (OrderedSet.ofList (← (Stmt.bodyTargets statements).mapM g.leavesOf).flatten).keys

def ensureFree (leaf : LeafId) : Compiling Unit := do
  if ← Compiling.ask (·.isTaken leaf) then
    throw (.alreadyDriven (← Compiling.ask (·.leafName leaf)))

/-- The binding before the first statement. -/
def unassigned : List LeafId → Binding → Executing Binding
  | [], b => return b
  | leaf :: rest, b => do
    unassigned rest (b.insert leaf (← Executing.build (Build.unassigned leaf)))

def ensureAssigned (g : Netlist) (signal : Except NetlistError String) (e : Expr) :
    Executing Unit := do
  if let some read := e.firstUnassigned? then
    throw (.unassignedRead (← Executing.ask signal) (← Executing.ask (g.leafName read)))

def checkOutput (g : Netlist) (b : Binding) (leaf : LeafId) : Executing (LeafId × Expr) := do
  let e ← Executing.build (b.get leaf)
  ensureAssigned g (g.leafName leaf) e
  return (leaf, ← Executing.build (g.sizedDriver (.leaf leaf) e))

def checkConflict (g : Netlist) (selector : String) (conflict : Expr) :
    Executing ConflictCheck := do
  ensureAssigned g (pure selector) conflict
  Executing.build (g.conflictCheck selector conflict)

/-- Everything that compiling a block would attach. -/
def plan (c : ExecContext) (statements : List Stmt) (outputs : List LeafId) :
    Executing (List (LeafId × Expr) × List ConflictCheck) := do
  let start ← unassigned outputs .empty
  let final ← Executing.body c [] statements start
  let drivers ← outputs.mapM (checkOutput c.netlist final)
  let conflicts := (← get).conflicts.toList
  let checks ← conflicts.mapM fun (selector, conflict) => checkConflict c.netlist selector conflict
  return (drivers, checks)

def attach (drivers : List (LeafId × Expr)) (checks : List ConflictCheck) : Edit Unit := do
  for (leaf, driver) in drivers do
    Netlist.connect (.leaf leaf) driver
  for check in checks do
    Netlist.addConflictCheck check

def compileQuietly (settings : BlockSettings) (statements : List Stmt) :
    Compiling BlockSummary := do
  let outputs ← Compiling.ask (outputs · statements)
  for leaf in outputs do
    ensureFree leaf
  let g := (← get).netlist
  let (drivers, checks) ← Compiling.execute (plan ⟨g, settings⟩ statements outputs)
  Compiling.edit (attach drivers checks)
  return ⟨outputs, Stmt.bodyCount statements⟩

/-- Compiles a block. The error of a rejected block also goes to the log, unless the block names
    something that does not exist. -/
def compile (settings : BlockSettings) (statements : List Stmt) :
    Compiling BlockSummary := fun s =>
  match compileQuietly settings statements s with
  | (.ok block, s) => (.ok block, s)
  | (.error e, s) =>
    if e.isUnknown then (.error e, s)
    else (.error e, { s with log := s.log.map (·.add e.diagnostic) })

end Block

end CombLogic
