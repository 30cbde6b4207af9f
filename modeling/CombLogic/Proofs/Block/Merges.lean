import CombLogic.Block.Compile
import CombLogic.Proofs.Block.Replay

/- Symbolic execution with a record of its joins: for every choice in the text, the binding before it, the
   arms with their conditions, and the binding after it. Keeping the record changes nothing. -/
namespace CombLogic

open Stmt

/-- One join of arms. -/
structure Merge where
  /-- The choice to which the arms belong. -/
  statement : Stmt
  before : Binding
  arms : List (Expr × Binding)
  fallback : Binding
  after : Binding

namespace Stmt

mutual

/-- The choices in a statement, itself first, in the order of the text. -/
def choices : Stmt → List Stmt
  | .assign .. => []
  | .ifElse condition thenBody elseBody =>
    .ifElse condition thenBody elseBody :: (bodyChoices thenBody ++ bodyChoices elseBody)
  | .case kind selector items default =>
    .case kind selector items default :: (itemChoices items ++ bodyChoices default)

def bodyChoices : List Stmt → List Stmt
  | [] => []
  | s :: rest => choices s ++ bodyChoices rest

def itemChoices : List CaseItem → List Stmt
  | [] => []
  | .mk _ body :: rest => bodyChoices body ++ itemChoices rest

end

/-- Number of arms that have a condition. -/
def armCount : Stmt → Nat
  | .assign .. => 0
  | .ifElse .. => 1
  | .case _ _ items _ => items.length

end Stmt

namespace Executing

mutual

def statementMerges (c : ExecContext) (path : List Expr) : Stmt → Binding →
    Executing (Binding × List Merge)
  | .assign target value, b => do return (← assign c target value b, [])
  | .ifElse e thenBody elseBody, b => do
    let holds ← condition c e b
    let thenArm ← bodyMerges c (holds :: path) thenBody b
    let fails ← build (Build.unary .not holds)
    let elseArm ← bodyMerges c (fails :: path) elseBody b
    let after ← joinBranches holds thenArm.1 elseArm.1 b.keys b
    return (after, ⟨.ifElse e thenBody elseBody, b, [(holds, thenArm.1)], elseArm.1, after⟩ ::
      (thenArm.2 ++ elseArm.2))
  | .case kind selector items default, b => do
    let found ← itemMatches c kind selector items b
    watchCase c path kind found.1 found.2
    let arms ← itemMerges c path items found.2 none b
    let guard ← build (defaultGuard arms.1.2)
    let fallback ← bodyMerges c (guard :: path) default b
    let after ← joinItems found.2 arms.1.1 fallback.1 b.keys b
    return (after, ⟨.case kind selector items default, b, found.2.zip arms.1.1, fallback.1, after⟩ ::
      (arms.2 ++ fallback.2))

def bodyMerges (c : ExecContext) (path : List Expr) : List Stmt → Binding →
    Executing (Binding × List Merge)
  | [], b => return (b, [])
  | s :: rest, b => do
    let first ← statementMerges c path s b
    let later ← bodyMerges c path rest first.1
    return (later.1, first.2 ++ later.2)

def itemMerges (c : ExecContext) (path : List Expr) :
    List CaseItem → List Expr → Option Expr → Binding →
      Executing ((List Binding × Option Expr) × List Merge)
  | .mk _ statements :: items, found :: rest, earlier, b => do
    let guard ← build (itemGuard found earlier)
    let arm ← bodyMerges c (guard :: path) statements b
    let earlier ← build (orEarlier found earlier)
    let later ← itemMerges c path items rest (some earlier) b
    return ((arm.1 :: later.1.1, later.1.2), arm.2 ++ later.2)
  | _, _, earlier, _ => return (([], earlier), [])

end

mutual

theorem statementMerges_fst (c : ExecContext) (path : List Expr) (s : Stmt) (b : Binding) :
    Prod.fst <$> statementMerges c path s b = statement c path s b := by
  cases s with
  | assign target value => simp [statementMerges, statement]
  | ifElse e thenBody elseBody =>
    simp only [statementMerges, statement, ← bodyMerges_fst, map_bind, bind_map_left, map_pure, bind_pure]
  | case kind selector items default =>
    simp only [statementMerges, statement, ← bodyMerges_fst, ← itemMerges_fst, map_bind, bind_map_left,
      map_pure, bind_pure]

theorem bodyMerges_fst (c : ExecContext) (path : List Expr) (body : List Stmt) (b : Binding) :
    Prod.fst <$> bodyMerges c path body b = Executing.body c path body b := by
  cases body with
  | nil => simp [bodyMerges, Executing.body]
  | cons s rest =>
    simp only [bodyMerges, Executing.body, ← statementMerges_fst, ← bodyMerges_fst, map_eq_pure_bind,
      bind_assoc, pure_bind]

theorem itemMerges_fst (c : ExecContext) (path : List Expr) (items : List CaseItem) (found : List Expr)
    (earlier : Option Expr) (b : Binding) :
    Prod.fst <$> itemMerges c path items found earlier b = itemArms c path items found earlier b := by
  cases items with
  | nil => simp [itemMerges, itemArms]
  | cons item rest =>
    obtain ⟨patterns, body⟩ := item
    cases found with
    | nil => simp [itemMerges, itemArms]
    | cons e found =>
      simp only [itemMerges, itemArms, ← bodyMerges_fst, ← itemMerges_fst, map_bind, bind_map_left,
        map_pure]

end

end Executing

/-- The joins of a block, and the binding after its last statement. -/
def Block.replayMerges (c : ExecContext) (statements : List Stmt) (outputs : List LeafId) :
    Executing (Binding × List Merge) := do
  Executing.bodyMerges c [] statements (← unassigned outputs .empty)

theorem Block.replayMerges_fst (c : ExecContext) (statements : List Stmt) (outputs : List LeafId) :
    Prod.fst <$> replayMerges c statements outputs = replay c statements outputs := by
  simp only [replayMerges, replay, map_bind, Executing.bodyMerges_fst]

end CombLogic
