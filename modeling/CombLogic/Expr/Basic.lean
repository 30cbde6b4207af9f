import CombLogic.Expr.Op

/- References to signals, and expressions over them. A leaf holds a value, a bundle is an ordered list
   of references. Each node of an expression carries a number; two nodes are one node exactly if they
   have one number, so an expression in which a number occurs several times is a graph with that
   node shared. Whoever builds nodes takes fresh numbers from a counter. -/
namespace CombLogic

abbrev LeafId := Nat

abbrev BundleId := Nat

inductive Ref where
  | leaf (id : LeafId)
  | bundle (id : BundleId)
deriving DecidableEq, Repr, Inhabited

inductive Expr where
  /-- The value of a leaf. -/
  | signal (node : Nat) (leaf : LeafId)
  | literal (node : Nat) (value : Value)
  /-- A constant that takes its width from where it stands. -/
  | integer (node : Nat) (value : Int)
  /-- What a target holds at the place of the statement that reads it. -/
  | read (node : Nat) (target : Ref)
  /-- The missing value of a leaf that no statement has assigned yet. -/
  | unassigned (node : Nat) (leaf : LeafId)
  | unary (node : Nat) (op : UnaryOp) (operand : Expr)
  | binary (node : Nat) (op : BinaryOp) (left right : Expr)
  | mux (node : Nat) (condition whenTrue whenFalse : Expr)
  /-- Parts side by side, the first one highest. -/
  | concat (node : Nat) (parts : List Expr)
  /-- The bits from `low` to `high`, both included. -/
  | slice (node : Nat) (operand : Expr) (high low : Nat)
  | extend (node : Nat) (operand : Expr) (width : Nat) (signed : Bool)
  /-- One bit that tells whether a subject matches a pattern. -/
  | caseMatch (node : Nat) (subject pattern : Expr) (wildcard : Bool)
deriving Repr, Inhabited

namespace Expr

def node : Expr → Nat
  | signal n _ | literal n _ | integer n _ | read n _ | unassigned n _ | unary n _ _
  | binary n _ _ _ | mux n _ _ _ | concat n _ | slice n _ _ _ | extend n _ _ _
  | caseMatch n _ _ _ => n

def same (a b : Expr) : Bool := a.node == b.node

/-- Forms without operands. -/
def isAtom : Expr → Bool
  | signal .. | literal .. | integer .. | read .. | unassigned .. => true
  | _ => false

/-- Direct operands, in evaluation order. -/
def children : Expr → List Expr
  | signal .. | literal .. | integer .. | read .. | unassigned .. => []
  | unary _ _ a => [a]
  | binary _ _ a b => [a, b]
  | mux _ c t f => [c, t, f]
  | concat _ parts => parts
  | slice _ a _ _ => [a]
  | extend _ a _ _ => [a]
  | caseMatch _ s p _ => [s, p]

/-- The same form under a new number and over other operands, as many as before. -/
def withChildren (e : Expr) (node : Nat) (children : List Expr) : Expr :=
  match e, children with
  | unary _ op _, [a] => unary node op a
  | binary _ op _ _, [a, b] => binary node op a b
  | mux _ _ _ _, [c, t, f] => mux node c t f
  | concat _ _, parts => concat node parts
  | slice _ _ high low, [a] => slice node a high low
  | extend _ _ width signed, [a] => extend node a width signed
  | caseMatch _ _ _ wildcard, [s, p] => caseMatch node s p wildcard
  | e, _ => e

def sameAll : List Expr → List Expr → Bool
  | [], [] => true
  | a :: as, b :: bs => a.same b && sameAll as bs
  | _, _ => false

def literal? : Expr → Option Value
  | literal _ value => some value
  | _ => none

def signal? : Expr → Option LeafId
  | signal _ leaf => some leaf
  | _ => none

def unassigned? : Expr → Option LeafId
  | unassigned _ leaf => some leaf
  | _ => none

def integer? : Expr → Option Int
  | integer _ value => some value
  | _ => none

mutual

/-- Number of nodes, a shared one counted at each of its places. -/
def weight : Expr → Nat
  | signal .. | literal .. | integer .. | read .. | unassigned .. => 1
  | unary _ _ a => weight a + 1
  | binary _ _ a b => weight a + weight b + 1
  | mux _ c t f => weight c + weight t + weight f + 1
  | concat _ parts => weights parts + 1
  | slice _ a _ _ => weight a + 1
  | extend _ a _ _ => weight a + 1
  | caseMatch _ s p _ => weight s + weight p + 1

def weights : List Expr → Nat
  | [] => 0
  | e :: rest => weight e + weights rest

end

theorem weights_append (as bs : List Expr) : weights (as ++ bs) = weights as + weights bs := by
  induction as with
  | nil => simp [weights]
  | cons a as ih => simp [weights, ih, Nat.add_assoc]

theorem weights_children (e : Expr) : weights e.children + 1 = e.weight := by
  cases e <;> simp [children, weight, weights, Nat.add_assoc]

theorem weight_pos (e : Expr) : 0 < e.weight := by
  have := e.weights_children
  omega

end Expr

end CombLogic
