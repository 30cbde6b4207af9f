import CombLogic.Proofs.Netlist.Pieces
import CombLogic.Proofs.Widths

/- One layout for every target. However a target is measured, read, resolved, cut apart or forced, its
   leaves have the same places in its value. -/
namespace CombLogic

open Expr Netlist

/-- The leaves of a target with their widths are `parts`, and its value is `v`. -/
structure Laid (g : Netlist) (target : Ref) (parts : List (LeafId × Nat)) (v : Value) : Prop where
  leaves : g.leavesOf target = .ok (parts.map Prod.fst)
  declared : ∀ part ∈ parts, g.HasWidth part
  read : g.read target = .ok v
  width : g.widthOf target = .ok v.width
  total : v.width = (parts.map Prod.snd).sum
  /-- An expression for the target has its value. -/
  written : ∀ next, ∃ e last later,
    g.exprOf target next = .ok (e, last) ∧ g.evaluate e last = .ok (v, later)
  /-- So has what a block reads while it has bound none of the leaves. -/
  resolved : ∀ (b : Binding) node next, (∀ id ∈ parts.map Prod.fst, b.get? id = none) →
    ∃ e last later,
      g.resolve b (.read node target) next = .ok (e, last) ∧ g.evaluate e last = .ok (v, later)
  /-- A part has its bits where the leaves before its own ones end. -/
  within : ∀ path inner, g.follow target path = .ok (some inner) → ∃ before inside after w,
    parts = before ++ inside ++ after ∧ g.leavesBefore target path = .ok (before.map Prod.fst) ∧
      g.leavesOf inner = .ok (inside.map Prod.fst) ∧ g.read inner = .ok w ∧
        w.bits = (v.bits.drop (before.map Prod.snd).sum).take w.width
  /-- The slices of an expression of this width evaluate to pieces that make up its value. -/
  cut : ∀ e next u later, WellNumbered [e] next →
    e.natural g.declared = some (some v.width) → g.evaluate e next = .ok (u, later) →
      u.width = v.width → ∃ ds last us, g.distribute target e next = .ok (ds, last) ∧
        ds.map Prod.fst = parts.map Prod.fst ∧ us.map Value.width = parts.map Prod.snd ∧
          .concatLowFirst us = u ∧ List.Forall₂ (fun d w =>
            ∀ n, last ≤ n → ∃ n', g.evaluate d.2 n = .ok (w, n')) ds us
  /-- Forced on different leaves, a value is what the target holds afterwards. -/
  forced : (parts.map Prod.fst).Nodup → ∀ u report h,
    injectWhole target u g = (.ok report, h) → h.read target = .ok u ∧
      ∀ id ∈ parts.map Prod.fst, (h.leaves.get? id).map Leaf.drive = some .root

end CombLogic
