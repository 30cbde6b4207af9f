import CombLogic.Proofs.Block.Items
import CombLogic.Proofs.Block.Shares

/- Symbolic execution as a relation between bindings, up to node numbers. What holds of every binding
   that a statement leads to can be shown along the text, with no execution in sight. -/
namespace CombLogic

open Expr Stmt

/-- A binding whose entries are all put together from those of the arms of a choice. -/
structure Gathered (arms : List (Expr × Binding)) (fallback b after : Binding) : Prop where
  keys : after.keys = b.keys
  each : ∀ p ∈ arms, p.2.keys = b.keys
  last : fallback.keys = b.keys
  merges : ∀ leaf e, after.get? leaf = some e → Merges arms fallback leaf e

namespace Stmt

mutual

/-- A statement leads from one binding to another. -/
inductive Traces (g : Netlist) : Stmt → Binding → Binding → Prop where
  | assign {target : Ref} {e : Expr} {b : Binding} {ps ds : List (LeafId × Expr)}
      (shares : g.shares target e = some ps) (answers : g.Answers b ps ds) :
      Traces g (.assign target e) b (Executing.bindAll b ds)
  | ifElse {e r : Expr} {thenBody elseBody : List Stmt} {b thenArm elseArm after : Binding}
      (asks : Asks g b e r) (first : BodyTraces g thenBody b thenArm)
      (second : BodyTraces g elseBody b elseArm) (joined : Gathered [(r, thenArm)] elseArm b after) :
      Traces g (.ifElse e thenBody elseBody) b after
  | case {kind : CaseKind} {selector t : Expr} {width : Nat} {items : List CaseItem}
      {default : List Stmt} {found : List Expr} {arms : List Binding} {b fallback after : Binding}
      (sized : selector.sized g.declared none = some (t, width))
      (spelled : List.Forall₂ (fun item e => Spelled g b kind.wildcard t item.patterns e) items found)
      (each : ItemsTrace g items b arms) (last : BodyTraces g default b fallback)
      (joined : Gathered (found.zip arms) fallback b after) :
      Traces g (.case kind selector items default) b after

inductive BodyTraces (g : Netlist) : List Stmt → Binding → Binding → Prop where
  | nil {b : Binding} : BodyTraces g [] b b
  | cons {s : Stmt} {rest : List Stmt} {b b' after : Binding} (first : Traces g s b b')
      (later : BodyTraces g rest b' after) : BodyTraces g (s :: rest) b after

/-- Every item leads to a binding of its own. -/
inductive ItemsTrace (g : Netlist) : List CaseItem → Binding → List Binding → Prop where
  | nil {b : Binding} : ItemsTrace g [] b []
  | cons {patterns : List Expr} {body : List Stmt} {rest : List CaseItem} {b arm : Binding}
      {arms : List Binding} (first : BodyTraces g body b arm) (later : ItemsTrace g rest b arms) :
      ItemsTrace g (.mk patterns body :: rest) b (arm :: arms)

end

end Stmt

section

variable {L : Set Expr} {arms : List (Expr × Binding)} {fallback b after : Binding}

theorem joins_gathered (joins : Joins arms fallback b.keys b L after)
    (each : ∀ p ∈ arms, p.2.keys = b.keys) (last : fallback.keys = b.keys) :
    Gathered arms fallback b after where
  keys := joins.keys
  each := each
  last := last
  merges leaf e found := joins.joined leaf
    (joins.keys ▸ OrderedMap.mem_keys_of_get? found) e found

end

end CombLogic
