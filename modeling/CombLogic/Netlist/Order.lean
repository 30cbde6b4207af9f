import CombLogic.Ordered

/- Walks along the edges of a graph whose nodes are numbers: everything that can be reached, an
   order in which every edge points forward, and the strongly connected components, which tell why
   there is none. -/
namespace CombLogic.Order

/-- Adds the successors of one found node after the other, breadth first. -/
def grow (next : Nat → List Nat) : Nat → Nat → OrderedSet → OrderedSet
  | 0, _, found => found
  | fuel + 1, place, found =>
    match found.order[place]? with
    | none => found
    | some id => grow next fuel (place + 1) (found.addAll (next id))

/-- Everything reachable from the seeds, the seeds included; `size` bounds the number of nodes. -/
def reachable (next : Nat → List Nat) (size : Nat) (seeds : OrderedSet) : OrderedSet :=
  grow next size 0 seeds

structure Visit where
  /-- Nodes entered, the first one first. -/
  entered : OrderedSet
  /-- Nodes left, the last one first. -/
  left : List Nat

/-- Enters a node, visits its successors and leaves it. -/
def visit (next : Nat → List Nat) : Nat → Visit → Nat → Visit
  | 0, v, _ => v
  | depth + 1, v, id =>
    if v.entered.contains id then v
    else
      let v := (next id).foldl (visit next depth) { v with entered := v.entered.add id }
      { v with left := id :: v.left }

def visitAll (next : Nat → List Nat) (ids : List Nat) : Visit :=
  ids.foldl (visit next ids.length) ⟨.empty, []⟩

/-- Everything that a list points to, and the first of its nodes to which a later one points. -/
def backward (next : Nat → List Nat) (ids : List Nat) : IdSet × Option Nat :=
  ids.foldr (fun id later =>
    (IdSet.addAll later.1 (next id), if later.1.contains id then some id else later.2)) ({}, none)

/-- A node on a cycle, if there is one: a node that points to itself before any other. -/
def cyclic? (next : Nat → List Nat) (v : Visit) : Option Nat :=
  (v.entered.keys.find? fun id => (next id).contains id).or (backward next v.left).2

/-- For each node the ones that point to it. -/
def sources (next : Nat → List Nat) (ids : List Nat) : Std.TreeMap Nat (List Nat) :=
  ids.foldl (fun found id =>
    (next id).foldl (fun found target => found.insert target (id :: found.getD target [])) found) {}

/-- Strongly connected components gathered so far, the last one first, and the nodes in them. -/
structure Gathered where
  components : List (List Nat)
  taken : IdSet

/-- The nodes that point to a node and are in no component yet. -/
def untaken (back : Nat → List Nat) (taken : IdSet) (target : Nat) : List Nat :=
  (back target).filter (!taken.contains ·)

/-- A node with all that lead to it and are in no component yet. -/
def component (back : Nat → List Nat) (size : Nat) (taken : IdSet) (id : Nat) : List Nat :=
  (reachable (untaken back taken) size (OrderedSet.ofList [id])).keys

def gather (back : Nat → List Nat) (size : Nat) (found : Gathered) (id : Nat) : Gathered :=
  if found.taken.contains id then found
  else
    let component := component back size found.taken id
    ⟨component :: found.components, found.taken.addAll component⟩

/-- The strongly connected components, each before those that lead to it. The search for them begins at
    the node that is left last: no other component leads to that one's. -/
def components (next : Nat → List Nat) (ids : List Nat) : List (List Nat) :=
  let back := sources next ids
  ((visitAll next ids).left.foldl (gather (back.getD · []) ids.length) ⟨[], {}⟩).components

/-- The nodes in an order in which every edge points forward, or a node on a cycle. -/
def sort (next : Nat → List Nat) (ids : List Nat) : Except Nat (List Nat) :=
  let v := visitAll next ids
  match cyclic? next v with
  | some id => .error id
  | none => .ok v.left

end CombLogic.Order
