import CombLogic.Proofs.Loops
import CombLogic.Proofs.Netlist.Settled

/- Values without a history. Once no driver waits, the values of the leaves that nothing drives decide
   all others, whatever the calls were and in whichever order they came. -/
namespace CombLogic

open Expr Netlist

section

variable {g h : Netlist} {made made' : List ConflictCheck} {K L : Set Expr}

theorem settled_values (kept : g.Kept made K) (kept' : h.Kept made' L) (wait : g.LoopsWait)
    (clean : g.dirty.keys = []) (clean' : h.dirty.keys = []) (drivers : g.SameDrivers h)
    (inputs : g.SameInputs h) (id : LeafId) : g.value id = h.value id := by
  induction id using clean_induction wait clean with
  | step id sources =>
    cases found : g.leaves.get? id with
    | none =>
      have absent : h.leaves.get? id = none := by
        simpa [driverShape, found] using (drivers id).symm
      simp [Netlist.value, Netlist.leaf, found, absent, bind, Except.bind]
    | some leaf =>
      cases drive : leaf.drive with
      | undriven | root => exact inputs id leaf found (by rw [drive]; rfl)
      | driven e =>
        obtain ⟨leaf', e', found', driven', alike⟩ := driverShape_driver drivers found drive
        have here := kept.fresh id leaf e found drive (by simp [clean])
        have there := kept'.fresh id leaf' e' found' driven' (by simp [clean'])
        have same : e.value g.env = e.value h.env := by
          refine value_congr (kept.driver id leaf e found drive).2.resolved fun d read => ?_
          rw [env_value, env_value, sources d ⟨leaf, e, found, drive, read⟩]
        rw [value_ok found, value_ok found', ← here, ← there, same, value_alike alike]

end

/-- Two worlds without leaves that wait have the same values everywhere if they have them on the
    leaves that nothing drives, and drivers of the same structure. -/
theorem values_without_history {w w' : World} (reachable : w.Reachable)
    (reachable' : w'.Reachable) (clean : w.netlist.dirty.keys = [])
    (clean' : w'.netlist.dirty.keys = []) (drivers : w.netlist.SameDrivers w'.netlist)
    (inputs : w.netlist.SameInputs w'.netlist) (id : LeafId) :
    w.netlist.value id = w'.netlist.value id := by
  obtain ⟨K, kept⟩ := reachable_kept reachable
  obtain ⟨L, kept'⟩ := reachable_kept reachable'
  exact settled_values kept kept' (reachable_waits reachable) clean clean' drivers inputs id

/-- An inverter connected before its input is known, and one with which another input was tried
    after it was settled, for which the pass was too large. -/
theorem inverter_without_history : ∃ w w' : World, w.Reachable ∧ w'.Reachable ∧
    w.netlist.SameDrivers w'.netlist ∧ w.netlist.value 1 = w'.netlist.value 1 ∧
      w.netlist.value 1 = .ok (.ofBool false) := by
  let calls : List Call := [.leaf "a" (.unknown 1), .leaf "y" (.unknown 1), .number, .number,
    .connect (.leaf 1) (.unary 1 .not (.signal 0 0)), .settle, .inject 0 (.ofBool true)]
  let others : List Call := [.leaf "a" (.zeros 1), .leaf "y" (.unknown 1), .number, .number, .number,
    .inject 0 (.ofBool true), .connect (.leaf 1) (.unary 2 .not (.signal 1 0)), .settle,
    .inject 0 (.ofBool false)]
  let w := (World.empty 10).after calls
  let w' := (World.empty 1).after others
  have reachable : w.Reachable := ⟨10, World.leads_after _ calls (by decide +kernel)⟩
  have reachable' : w'.Reachable := ⟨1, World.leads_after _ others (by decide +kernel)⟩
  have drivers : w.netlist.SameDrivers w'.netlist := by decide +kernel
  refine ⟨w, w', reachable, reachable', drivers, ?_, by decide +kernel⟩
  exact values_without_history reachable reachable' (by decide +kernel) (by decide +kernel) drivers
    (by decide +kernel) 1

end CombLogic
