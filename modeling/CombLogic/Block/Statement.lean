import CombLogic.Expr.Build

/- Statements of a combinational block. An expression in a statement may read a target as it stands
   at that statement. -/
namespace CombLogic

/-- How a case compares and chooses. -/
structure CaseKind where
  /-- A Z in a pattern matches anything. -/
  wildcard : Bool
  /-- Several items matching at once are a mistake; otherwise the first one is meant. -/
  unique : Bool
deriving DecidableEq, Repr

mutual

inductive Stmt where
  | assign (target : Ref) (value : Expr)
  | ifElse (condition : Expr) (thenBody elseBody : List Stmt)
  /-- The first item that matches, or the default if none does. -/
  | case (kind : CaseKind) (selector : Expr) (items : List CaseItem) (default : List Stmt)

/-- An item is taken if one of its patterns matches. -/
inductive CaseItem where
  | mk (patterns : List Expr) (body : List Stmt)

end

namespace CaseItem

def patterns : CaseItem → List Expr
  | mk patterns _ => patterns

def body : CaseItem → List Stmt
  | mk _ body => body

end CaseItem

namespace Stmt

variable {m : Type → Type} [Monad m]

/-- The first branch whose condition holds, as nested choices. Without any branch the last body
    stands under a condition that always holds. -/
def elseIfs (otherwise : List Stmt) : List (Expr × List Stmt) → Numbering m Stmt
  | [] => return .ifElse (← Build.literal (.ofBool true)) otherwise []
  | [(condition, body)] => return .ifElse condition body otherwise
  | (condition, body) :: rest => return .ifElse condition body [← elseIfs otherwise rest]

mutual

/-- Targets assigned anywhere, in the order of the text. -/
def targets : Stmt → List Ref
  | assign target _ => [target]
  | ifElse _ thenBody elseBody => bodyTargets thenBody ++ bodyTargets elseBody
  | case _ _ items default => itemTargets items ++ bodyTargets default

def bodyTargets : List Stmt → List Ref
  | [] => []
  | s :: rest => targets s ++ bodyTargets rest

def itemTargets : List CaseItem → List Ref
  | [] => []
  | .mk _ body :: rest => bodyTargets body ++ itemTargets rest

end

mutual

/-- Number of statements, nested ones included. -/
def count : Stmt → Nat
  | assign .. => 1
  | ifElse _ thenBody elseBody => 1 + bodyCount thenBody + bodyCount elseBody
  | case _ _ items default => 1 + itemCount items + bodyCount default

def bodyCount : List Stmt → Nat
  | [] => 0
  | s :: rest => count s + bodyCount rest

def itemCount : List CaseItem → Nat
  | [] => 0
  | .mk _ body :: rest => bodyCount body + itemCount rest

end

end Stmt

end CombLogic
