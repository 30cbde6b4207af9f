import CombLogic.Netlist.Bundle

/- What a block works with: scratch signals that it declares for itself, the present expressions of the
   leaves that it assigns, and the resolution of reads. A declaration adds to the netlist, changes
   nothing that is there already, and stays when the block is rejected. A leaf without an entry stands
   for its value in the netlist. Resolution replaces every read of a target by what the target holds
   at that point. Nodes without a read below them stay as they are, and a node that occurs several
   times is resolved once. -/
namespace CombLogic

inductive Scratch where
  | leaf (name : String) (width : Nat)
  /-- A bundle in the shape of another one. -/
  | bundleLike (shape : BundleId) (name : String)
deriving DecidableEq, Repr

def Scratch.declare : Scratch → Edit Ref
  | leaf name width => return .leaf (← Netlist.addUnknown name width)
  | bundleLike shape name => return .bundle (← Netlist.cloneBundle shape name)

abbrev Binding := OrderedMap Expr

def Binding.get {m : Type → Type} [Monad m] (b : Binding) (leaf : LeafId) : Numbering m Expr :=
  match b.get? leaf with
  | some e => return e
  | none => Build.signal leaf

abbrev ResolveMemo := Std.TreeMap Nat Expr

abbrev Resolving := StateT ResolveMemo (Numbering (Except NetlistError))

namespace Resolving

@[inline] def remember (node : Nat) (find : Resolving Expr) : Resolving Expr := do
  match (← get)[node]? with
  | some e => return e
  | none =>
    let e ← find
    modify (·.insert node e)
    return e

def build {α : Type} (b : Numbering (Except NetlistError) α) : Resolving α := liftM b

/-- Keeps a node if resolution left all its operands as they were. -/
def keep (e : Expr) (children : List Expr) : Resolving Expr := build (e.rebuild children)

end Resolving

/-- What a target holds: the entry of a leaf, or the entries of a bundle's leaves side by side. -/
def Netlist.readBinding (g : Netlist) (b : Binding) (target : Ref) :
    Numbering (Except NetlistError) Expr := do
  match target with
  | .leaf leaf => b.get leaf
  | .bundle _ => Build.concatLowFirst (← (← g.leavesOf target).mapM b.get)

open Resolving

mutual

def Expr.resolve (g : Netlist) (b : Binding) : Expr → Resolving Expr
  | e@(.signal ..) => return e
  | e@(.literal ..) => return e
  | e@(.integer ..) => return e
  | e@(.unassigned ..) => return e
  | .read n target => remember n (Resolving.build (g.readBinding b target))
  | e@(.unary n _ a) => remember n do keep e [← resolve g b a]
  | e@(.binary n _ l r) => remember n do keep e [← resolve g b l, ← resolve g b r]
  | e@(.mux n c t f) => remember n do
    keep e [← resolve g b c, ← resolve g b t, ← resolve g b f]
  | e@(.concat n parts) => remember n do keep e (← resolveAll g b parts)
  | e@(.slice n a _ _) => remember n do keep e [← resolve g b a]
  | e@(.extend n a _ _) => remember n do keep e [← resolve g b a]
  | e@(.caseMatch n s p _) => remember n do keep e [← resolve g b s, ← resolve g b p]

def Expr.resolveAll (g : Netlist) (b : Binding) : List Expr → Resolving (List Expr)
  | [] => return []
  | e :: rest => do
    let e ← resolve g b e
    return e :: (← resolveAll g b rest)

end

/-- Resolves several lists of expressions together: a node that occurs in several of them is
    resolved once. -/
def Expr.resolveLists (g : Netlist) (b : Binding) : List (List Expr) → Resolving (List (List Expr))
  | [] => return []
  | es :: rest => do
    let es ← resolveAll g b es
    return es :: (← resolveLists g b rest)

namespace Netlist

def resolve (g : Netlist) (b : Binding) (e : Expr) : Numbering (Except NetlistError) Expr :=
  Prod.fst <$> (e.resolve g b).run {}

def resolveLists (g : Netlist) (b : Binding) (lists : List (List Expr)) :
    Numbering (Except NetlistError) (List (List Expr)) :=
  Prod.fst <$> (Expr.resolveLists g b lists).run {}

end Netlist

end CombLogic
