import CombLogic.Expr.Basic
import CombLogic.Ordered

/- Visits of the nodes of an expression: depth first, a node before its operands, operands from left
   to right. A shared node is entered at its first place only. The search keeps a stack and stops at
   its first find; the walk lists every node. -/
namespace CombLogic.Expr

section

variable {m : Type → Type} [Monad m] {β : Type}

/-- Searches a stack of expressions, of which the nodes entered before are passed over. What is asked
    at a node may have effects. -/
@[specialize] def searchStack (ask : Expr → m (Option β)) (seen : IdSet) :
    List Expr → m (Option β)
  | [] => return none
  | e :: rest =>
    if seen.contains e.node then searchStack ask seen rest
    else do
      match ← ask e with
      | some found => return some found
      | none => searchStack ask (seen.insert e.node) (e.children ++ rest)
termination_by stack => weights stack
decreasing_by
  · have := e.weight_pos
    simp only [weights]
    omega
  · have := e.weights_children
    simp only [weights, weights_append]
    omega

/-- Asks at one node after the other until there is a find. -/
def search (ask : Expr → m (Option β)) (e : Expr) : m (Option β) := searchStack ask {} [e]

/-- The first find among the nodes. -/
def find? (f : Expr → Option β) (e : Expr) : Option β := Id.run (e.search fun n => pure (f n))

end

/-- The nodes entered so far, the latest one first, and their numbers. -/
structure Walk where
  seen : IdSet
  met : List Expr

namespace Walk

def start : Walk := ⟨{}, []⟩

def enter (w : Walk) (e : Expr) : Walk := ⟨w.seen.insert e.node, e :: w.met⟩

end Walk

mutual

def visit (e : Expr) (w : Walk) : Walk :=
  if w.seen.contains e.node then w
  else match e with
    | signal .. | literal .. | integer .. | read .. | unassigned .. => w.enter e
    | unary _ _ a => visit a (w.enter e)
    | binary _ _ a b => visit b (visit a (w.enter e))
    | mux _ c t f => visit f (visit t (visit c (w.enter e)))
    | concat _ parts => visitAll parts (w.enter e)
    | slice _ a _ _ => visit a (w.enter e)
    | extend _ a _ _ => visit a (w.enter e)
    | caseMatch _ s p _ => visit p (visit s (w.enter e))

def visitAll : List Expr → Walk → Walk
  | [], w => w
  | e :: rest, w => visitAll rest (visit e w)

end

/-- The distinct nodes in the order of the visit. -/
def nodes (e : Expr) : List Expr := (visit e .start).met.reverse

/-- Leaves that the expression reads, each as often as a node reads it. -/
def reads (e : Expr) : List LeafId := e.nodes.filterMap signal?

/-- Notes the leaf that a node reads, and goes on. -/
def noteSignal (e : Expr) : StateM OrderedSet (Option Unit) := do
  if let some leaf := e.signal? then modify (·.add leaf)
  return none

/-- Leaves that the expression reads, each once, in the order of the visit. -/
def signals (e : Expr) : List LeafId := ((e.search noteSignal).run .empty).2.keys

/-- The first leaf of which an unassigned value is read. -/
def firstUnassigned? (e : Expr) : Option LeafId := e.find? unassigned?

/-- The target of a node that only stands in for a value. -/
def placeholder? : Expr → Option Ref
  | read _ target => some target
  | unassigned _ leaf => some (.leaf leaf)
  | _ => none

def firstPlaceholder? (e : Expr) : Option Ref := e.find? placeholder?

def hasPlaceholder (e : Expr) : Bool := e.firstPlaceholder?.isSome

end CombLogic.Expr
