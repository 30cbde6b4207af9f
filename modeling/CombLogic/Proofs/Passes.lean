import CombLogic.Proofs.Drives
import CombLogic.Proofs.Netlist.Downstream

/- Passes that fail before they evaluate anything. How many leaves are downstream decides whether a pass
   is too large, and whether there is a loop among them whether it has no order. -/
namespace CombLogic

open Netlist

theorem settle_result (g : Netlist) (x : NetlistError) :
    (settle g).1 = .error x ↔ g.runPass = .error x := by
  rcases settle_cases g with ⟨y, failed, stuck⟩ | ⟨report, pass, settled, done⟩
  · simp [failed, stuck]
  · simp [settled, done]

/-- A pass is too large exactly where more leaves are downstream than the limit allows. Otherwise it
    has no order exactly where there is a loop downstream. The leaves that it reports then are one
    component of all dependencies with a loop in it, ascending. -/
theorem passes_decided {w : World} (reachable : w.Reachable) :
    {id | w.netlist.Downstream id}.Finite ∧
      (∀ n limit, (settle w.netlist).1 = .error (.passTooLarge n limit) ↔
        w.netlist.maxPassNodes < w.netlist.downstreamCount ∧ n = w.netlist.downstreamCount ∧
          limit = w.netlist.maxPassNodes) ∧
      (w.netlist.downstreamCount ≤ w.netlist.maxPassNodes →
        ((∃ cycle names, (settle w.netlist).1 = .error (.combinationalLoop cycle names)) ↔
          ∃ ids, w.netlist.Loop ids ∧ ∀ id ∈ ids, w.netlist.Downstream id)) ∧
      ∀ cycle names, (settle w.netlist).1 = .error (.combinationalLoop cycle names) →
        w.netlist.Component cycle ∧ cycle.Pairwise (· < ·) ∧
          cycle.mapM w.netlist.leafName = .ok names := by
  obtain ⟨K, kept⟩ := reachable_kept reachable
  have linked := reachable_linked reachable
  have closed := affected_closed kept
  obtain ⟨finite, size⟩ := downstream_count kept linked
  simp only [settle_result, size, loop_iff kept linked, ← Order.sort_fails_iff closed]
  refine ⟨finite, ?_⟩
  cases runPass_outcome kept with
  | large excess failed =>
    rw [failed]
    refine ⟨fun n limit => ?_, fun fits => (Nat.not_le_of_lt excess fits).elim, nofun⟩
    simp [excess, eq_comm]
  | loop fits unsorted named failed =>
    rw [failed, unsorted]
    refine ⟨fun n limit => ?_, fun _ => by simp, fun cycle names same => ?_⟩
    · simp [Nat.not_lt.mpr fits]
    · cases same
      obtain ⟨here, around⟩ := Order.sort_onCycle closed unsorted
      have member := mem_loopOf closed here around
      simp only [Order.Together, onCycle_iff kept linked, walk_iff kept linked] at around member
      exact ⟨⟨_, around, fun other => (member other).trans And.comm⟩, loopOf_ascending _ _ _, named⟩
  | sorted fits sorted other =>
    rw [sorted]
    refine ⟨fun n limit => ?_, fun _ => ?_, fun cycle names failed => ?_⟩
    · simp only [Nat.not_lt.mpr fits, false_and, iff_false]
      exact fun failed => other _ failed (.large n limit)
    · simp only [reduceCtorEq, exists_false, iff_false, not_exists]
      exact fun cycle names failed => other _ failed (.loop cycle names)
    · exact (other _ failed (.loop cycle names)).elim

/-- Two leaves that drive each other and a third one that reads one of them, once where the three are
    as many as a pass may have, and once where they are too many. -/
theorem pair_decided : ∃ w w' : World, w.Reachable ∧ w'.Reachable ∧
    (settle w.netlist).1 = .error (.combinationalLoop [0, 1] ["a", "b"]) ∧
      w.netlist.Component [0, 1] ∧ w.netlist.downstreamCount ≤ 3 ∧
        (settle w'.netlist).1 = .error (.passTooLarge 3 2) ∧ w'.netlist.downstreamCount = 3 := by
  let calls : List Call := [.leaf "a" (.unknown 1), .leaf "b" (.unknown 1), .leaf "c" (.unknown 1),
    .number, .connect (.leaf 0) (.signal 0 1), .number, .connect (.leaf 1) (.signal 1 0),
    .number, .connect (.leaf 2) (.signal 2 1)]
  let w := (World.empty 3).after calls
  let w' := (World.empty 2).after calls
  have reachable : w.Reachable := ⟨3, World.leads_after _ calls (by decide +kernel)⟩
  have reachable' : w'.Reachable := ⟨2, World.leads_after _ calls (by decide +kernel)⟩
  have loop : (settle w.netlist).1 = .error (.combinationalLoop [0, 1] ["a", "b"]) := by
    decide +kernel
  have large : (settle w'.netlist).1 = .error (.passTooLarge 3 2) := by decide +kernel
  have limit : w.netlist.maxPassNodes = 3 := by decide +kernel
  clear_value w w'
  obtain ⟨-, fits, -, reports⟩ := passes_decided reachable
  obtain ⟨-, exceeds, -⟩ := passes_decided reachable'
  refine ⟨w, w', reachable, reachable', loop, (reports _ _ loop).1, ?_, large,
    ((exceeds 3 2).mp large).2.1.symm⟩
  by_contra excess
  have failed := (fits _ _).mpr ⟨limit ▸ Nat.lt_of_not_le excess, rfl, rfl⟩
  cases loop.symm.trans failed

end CombLogic
