import CombLogic.Block.Coverage
import CombLogic.Block.Scratch
import CombLogic.Diagnostic.Basic
import CombLogic.Netlist.Connect

/- Symbolic execution of statements over a binding. An assignment gives its target a new expression.
   A choice executes its arms on copies of the binding and joins the copies leaf by leaf: where all
   arms agree on a node that node stays, elsewhere the choice becomes part of the expression. -/
namespace CombLogic

structure ExecState where
  nextNode : Nat
  log : Option DiagnosticLog
  /-- Selectors and conditions of the unique cases to be watched. -/
  conflicts : Array (String × Expr)

abbrev Executing := ExceptT BlockError (StateM ExecState)

structure ExecContext where
  netlist : Netlist
  settings : BlockSettings

namespace Executing

def ask {α : Type} (r : Except NetlistError α) : Executing α :=
  liftM (r.mapError BlockError.netlist)

def build {α : Type} (b : Numbering (Except NetlistError) α) : Executing α := fun s =>
  match b s.nextNode with
  | .ok (a, next) => (.ok a, { s with nextNode := next })
  | .error e => (.error (.netlist e), s)

def report (d : Diagnostic) : Executing Unit :=
  modify fun s => { s with log := s.log.map (·.add d) }

def watch (selector : String) (conflict : Expr) : Executing Unit :=
  modify fun s => { s with conflicts := s.conflicts.push (selector, conflict) }

/-- Binds each leaf to its new expression. -/
def bindAll (b : Binding) (entries : List (LeafId × Expr)) : Binding :=
  entries.foldl (fun b entry => b.insert entry.1 entry.2) b

def assign (c : ExecContext) (target : Ref) (value : Expr) (b : Binding) : Executing Binding := do
  let g := c.netlist
  let expected ← ask (g.widthOf target)
  let (sized, actual) ← build (g.sizeFor value (some expected))
  if actual ≠ expected then
    throw (.widthMismatch (← ask (g.nameOf target)) expected actual)
  let resolved ← build (g.resolve b sized)
  match target with
  | .leaf leaf => return b.insert leaf resolved
  | .bundle _ => return bindAll b (← build (g.distribute target resolved))

def condition (c : ExecContext) (e : Expr) (b : Binding) : Executing Expr := do
  let (sized, width) ← build (c.netlist.sizeFor e (some 1))
  if width ≠ 1 then throw (.notOneBit "if condition" width)
  build (c.netlist.resolve b sized)

/-- Joins the two arms of a choice. -/
def joinBranches (condition : Expr) (thenArm elseArm : Binding) :
    List LeafId → Binding → Executing Binding
  | [], b => return b
  | leaf :: rest, b => do
    let whenTrue ← build (thenArm.get leaf)
    let whenFalse ← build (elseArm.get leaf)
    let joined ←
      if whenTrue.same whenFalse then pure whenTrue
      else build (Build.mux condition whenTrue whenFalse)
    joinBranches condition thenArm elseArm rest (b.insert leaf joined)

/-- A match of a sized selector with a pattern, and the pattern if it is constant. -/
def sizeMatch (c : ExecContext) (wildcard : Bool) (selector pattern : Expr) :
    Executing (Expr × Option Value) := build do
  let (sized, _) ← c.netlist.sizeFor (← Build.caseMatch selector pattern wildcard) none
  match sized with
  | .caseMatch _ _ p _ => return (sized, p.literal?)
  | _ => return (sized, none)

def sizeItems (c : ExecContext) (wildcard : Bool) (selector : Expr) (items : List CaseItem) :
    Executing (List (List (Expr × Option Value))) :=
  items.mapM fun item => item.patterns.mapM (sizeMatch c wildcard selector)

/-- A name for the selector in messages: that of the first signal it reads. -/
def caseName (g : Netlist) (selector : Expr) : Except NetlistError String :=
  let named? : Expr → Option Ref
    | .read _ target => some target
    | .signal _ leaf => some (.leaf leaf)
    | _ => none
  match selector.find? named? with
  | some target => g.nameOf target
  | none => return "case selector"

/-- Joins the matches of one item's patterns; without a pattern nothing matches. -/
def anyOf (found : List Expr) : Numbering (Except NetlistError) Expr := do
  match ← Build.reduce .or found with
  | some e => return e
  | none => Build.literal (.ofBool false)

/-- The match conditions of the items of a case, checked for coverage and resolved. -/
def itemMatches (c : ExecContext) (kind : CaseKind) (selector : Expr) (items : List CaseItem)
    (b : Binding) : Executing (String × List Expr) := do
  let (sized, _) ← build (c.netlist.sizeFor selector none)
  let found ← sizeItems c kind.wildcard sized items
  let name ← ask (caseName c.netlist selector)
  let shape : Coverage.Shape := ⟨name, kind, found.map (·.map Prod.snd)⟩
  for warning in ← liftM (Coverage.check c.settings shape) do
    report warning
  let resolved ← build (c.netlist.resolveLists b (found.map (·.map Prod.fst)))
  return (name, ← build (resolved.mapM anyOf))

/-- Watches a unique case of several items for more than one of them matching when it is reached. -/
def watchCase (c : ExecContext) (path : List Expr) (kind : CaseKind) (name : String)
    (found : List Expr) : Executing Unit := do
  if kind.unique ∧ c.settings.overlapRule ≠ .allow ∧ 1 < found.length then
    let conflict ← build do
      let multiple ← Build.unary .multiHot (← Build.concat found)
      match ← Build.reduce .and path.reverse with
      | some reached => Build.binary .and reached multiple
      | none => return multiple
    watch name conflict

/-- The condition under which an item is taken: it matches and none before it does. -/
def itemGuard (found : Expr) : Option Expr → Numbering (Except NetlistError) Expr
  | some earlier => do Build.binary .and found (← Build.unary .not earlier)
  | none => return found

def orEarlier (found : Expr) : Option Expr → Numbering (Except NetlistError) Expr
  | some earlier => Build.binary .or earlier found
  | none => return found

/-- The condition under which the default is taken. -/
def defaultGuard : Option Expr → Numbering (Except NetlistError) Expr
  | some earlier => Build.unary .not earlier
  | none => Build.literal (.ofBool true)

/-- The choice among the entries of a leaf, the last item tried innermost. -/
def choose (fallback : Expr) : List (Expr × Expr) → Numbering (Except NetlistError) Expr
  | [] => return fallback
  | (found, value) :: rest => do
    let chain ← choose fallback rest
    if value.same chain then return chain else Build.mux found value chain

/-- Joins the arms of a case. A leaf that no arm has touched stays as it was. -/
def joinItems (found : List Expr) (arms : List Binding) (fallback : Binding) :
    List LeafId → Binding → Executing Binding
  | [], b => return b
  | leaf :: rest, b => do
    let base ← build (b.get leaf)
    let last ← build (fallback.get leaf)
    let values ← build (arms.mapM (·.get leaf))
    if last.same base && values.all (·.same base) then
      joinItems found arms fallback rest b
    else
      let chain ← build (choose last (found.zip values))
      joinItems found arms fallback rest (b.insert leaf chain)

mutual

/-- Executes a statement that is reached under the conditions of a path, the innermost one first. -/
def statement (c : ExecContext) (path : List Expr) : Stmt → Binding → Executing Binding
  | .assign target value, b => assign c target value b
  | .ifElse e thenBody elseBody, b => do
    let holds ← condition c e b
    let thenArm ← body c (holds :: path) thenBody b
    let fails ← build (Build.unary .not holds)
    let elseArm ← body c (fails :: path) elseBody b
    joinBranches holds thenArm elseArm b.keys b
  | .case kind selector items default, b => do
    let (name, found) ← itemMatches c kind selector items b
    watchCase c path kind name found
    let (arms, earlier) ← itemArms c path items found none b
    let guard ← build (defaultGuard earlier)
    let fallback ← body c (guard :: path) default b
    joinItems found arms fallback b.keys b

def body (c : ExecContext) (path : List Expr) : List Stmt → Binding → Executing Binding
  | [], b => return b
  | s :: rest, b => do body c path rest (← statement c path s b)

/-- Executes the items of a case one by one, each on its own copy of the binding. -/
def itemArms (c : ExecContext) (path : List Expr) :
    List CaseItem → List Expr → Option Expr → Binding → Executing (List Binding × Option Expr)
  | .mk _ statements :: items, found :: rest, earlier, b => do
    let guard ← build (itemGuard found earlier)
    let arm ← body c (guard :: path) statements b
    let earlier ← build (orEarlier found earlier)
    let (arms, earlier) ← itemArms c path items rest (some earlier) b
    return (arm :: arms, earlier)
  | _, _, earlier, _ => return ([], earlier)

end

end Executing

end CombLogic
