import CombLogic.Expr.Basic

/- Building expressions. Every new node takes the next number, so a node that is used twice in an
   expression is shared, and two nodes built alike are still two nodes. -/
namespace CombLogic

/-- Computations that number nodes. -/
abbrev Numbering (m : Type → Type) := StateT Nat m

theorem stateT_pure {σ α : Type} {m : Type → Type} [Monad m] (a : α) (s : σ) :
    (StateT.pure a : StateT σ m α) s = pure (a, s) := rfl

namespace Build

variable {m : Type → Type} [Monad m]

def number : Numbering m Nat := fun n => pure (n, n + 1)

def signal (leaf : LeafId) : Numbering m Expr := return .signal (← number) leaf

def literal (value : Value) : Numbering m Expr := return .literal (← number) value

def integer (value : Int) : Numbering m Expr := return .integer (← number) value

def read (target : Ref) : Numbering m Expr := return .read (← number) target

def unassigned (leaf : LeafId) : Numbering m Expr := return .unassigned (← number) leaf

def unary (op : UnaryOp) (a : Expr) : Numbering m Expr := return .unary (← number) op a

def binary (op : BinaryOp) (a b : Expr) : Numbering m Expr := return .binary (← number) op a b

def mux (condition whenTrue whenFalse : Expr) : Numbering m Expr :=
  return .mux (← number) condition whenTrue whenFalse

/-- Joins parts, the first one highest. -/
def concat (parts : List Expr) : Numbering m Expr := return .concat (← number) parts

/-- Joins parts, the first one lowest. -/
def concatLowFirst (parts : List Expr) : Numbering m Expr := concat parts.reverse

def slice (a : Expr) (high low : Nat) : Numbering m Expr := return .slice (← number) a high low

def extend (a : Expr) (width : Nat) (signed : Bool) : Numbering m Expr :=
  return .extend (← number) a width signed

def caseMatch (subject pattern : Expr) (wildcard : Bool) : Numbering m Expr :=
  return .caseMatch (← number) subject pattern wildcard

/-- Joins operands from the left; there is nothing to join in an empty list. -/
def reduce (op : BinaryOp) : List Expr → Numbering m (Option Expr)
  | [] => return none
  | e :: rest => return some (← rest.foldlM (binary op) e)

end Build

/-- The node over new operands: itself if all of them are the old ones, else a new node. -/
def Expr.rebuild {m : Type → Type} [Monad m] (e : Expr) (children : List Expr) :
    Numbering m Expr := do
  if Expr.sameAll e.children children then return e
  else return e.withChildren (← Build.number) children

/-- Replaces the direct operands one after the other. -/
def Expr.mapChildren {m : Type → Type} [Monad m] (f : Expr → Numbering m Expr) (e : Expr) :
    Numbering m Expr := do
  e.rebuild (← e.children.mapM f)

end CombLogic
