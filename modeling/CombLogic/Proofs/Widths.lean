import CombLogic.Proofs.Calls
import CombLogic.Proofs.Netlist.Widths

/- Where widths hold. Declared widths hold over every run whose drivers and checks are balanced, and the
   condition cannot be dropped at any node that is evaluated. -/
namespace CombLogic

open Expr Netlist

section

variable {w w' : World} {K : Set Expr}

theorem leads_fits (leads : w.Leads w') (kept : w.Kept K) (fits : w.netlist.Fits)
    (balanced : w'.netlist.Balanced) : w'.netlist.Fits := by
  induction leads with
  | refl => exact fits
  | tail before step ih =>
    obtain ⟨L, between⟩ := leads_kept before kept
    obtain ⟨c, allowed, rfl⟩ := step
    obtain ⟨K', kept', M, moves⟩ := call_moves between allowed
    have earlier := balanced_back kept' (moves_lasts moves kept') balanced
    exact moves_fits moves kept' balanced (ih earlier)

theorem reachable_fits (reachable : w.Reachable) (balanced : w.netlist.Balanced) :
    w.netlist.Fits := by
  obtain ⟨limit, leads⟩ := reachable
  refine leads_fits leads (kept_empty limit) ?_ balanced
  intro id leaf found
  simp [World.empty, Netlist.empty] at found

theorem settle_error (kept : w.Kept K) (fits : w.netlist.Fits) (balanced : w.netlist.Balanced)
    {x : NetlistError} {g : Netlist} (failed : settle w.netlist = (.error x, g)) : PassError x := by
  rcases settle_cases w.netlist with ⟨y, failed', stopped⟩ | ⟨report, pass, done, -⟩
  · cases failed'.symm.trans failed
    exact runPass_error kept fits balanced stopped
  · cases done.symm.trans failed

/-- Values have the declared widths and passes fail for their order or size only, as long as all
    drivers and checks are balanced. Any other expression over balanced operands has no value of its
    width, although it passes every check. -/
theorem reachable_widths (reachable : w.Reachable) (balanced : w.netlist.Balanced) :
    w.netlist.Fits ∧ (∀ x g, settle w.netlist = (.error x, g) → PassError x) ∧
      ∀ e width, w.Shares w.netlist.nextNode [e] → Checked w.netlist.declared e width →
        (∀ a ∈ e.children, a.Balanced w.netlist.declared) →
          ((∃ v, e.value w.netlist.env = .ok v ∧ v.width = width) ↔
            e.Balanced w.netlist.declared) := by
  have fits := reachable_fits reachable balanced
  obtain ⟨K, kept⟩ := reachable_kept reachable
  refine ⟨fits, fun x g failed => settle_error kept fits balanced failed, ?_⟩
  rintro e width ⟨L, sharing, -, inside⟩ checked operands
  have nothing : w.netlist.Wide L .start :=
    ⟨fun id v known => by simp [Evaluation.start] at known,
      fun a _ v known => by simp [Evaluation.start] at known⟩
  exact balanced_iff sharing (inside e (by simp)) (env_fits fits nothing checked) checked operands

end

instance (g : Netlist) : Decidable g.Balanced :=
  decidable_of_iff (∀ e ∈ (World.mk g []).held, e.Balanced g.declared)
    (by simp only [World.mem_held, Netlist.Balanced])

/-- A leaf that doubles another one; and a sum over no bits that could drive nothing. -/
theorem double_widths : ∃ (w : World) (e : Expr), w.Reachable ∧ w.netlist.Balanced ∧ w.netlist.Fits ∧
    (∀ x g, settle w.netlist = (.error x, g) → PassError x) ∧ Checked w.netlist.declared e 1 ∧
      ¬∃ v, e.value w.netlist.env = .ok v ∧ v.width = 1 := by
  let calls : List Call := [.leaf "z" (.zeros 0), .leaf "a" (.ofNat 2 1), .leaf "y" (.unknown 2),
    .number, .number, .connect (.leaf 2) (.binary 1 .add (.signal 0 1) (.signal 0 1)), .settle,
    .number, .number, .number]
  let w := (World.empty 10).after calls
  let e : Expr := .binary 4 .add (.signal 2 0) (.literal 3 (.unknown 1))
  have reachable : w.Reachable := ⟨10, World.leads_after _ calls (by decide +kernel)⟩
  have balanced : w.netlist.Balanced := by decide +kernel
  have checked : Checked w.netlist.declared e 1 := by decide +kernel
  obtain ⟨fits, errors, sized⟩ := reachable_widths reachable balanced
  refine ⟨w, e, reachable, balanced, fits, errors, checked, ?_⟩
  rw [sized e 1 (by decide +kernel) checked (by decide +kernel)]
  decide +kernel

/-- Without the condition a leaf comes to a value of another width than its own, or a pass fails for a
    value. -/
theorem widths_break : (∃ w : World, w.Reachable ∧ ¬w.netlist.Fits) ∧
    (∃ w : World, w.Reachable ∧ ∃ g,
      settle w.netlist = (.error (.value (.invalidSlice 0 0 0)), g)) ∧
    ∃ w : World, w.Reachable ∧ ∃ g,
      settle w.netlist = (.error (.value (.invalidExtension 1 0)), g) := by
  have failed : ∀ {g : Netlist} {x : NetlistError}, (settle g).1 = .error x →
      ∃ g', settle g = (.error x, g') := fun same => ⟨_, Prod.ext same rfl⟩
  refine ⟨?_, ?_, ?_⟩
  · let calls : List Call := [.leaf "a" (.zeros 0), .leaf "y" (.unknown 1), .number, .number, .number,
      .connect (.leaf 1) (.binary 2 .add (.signal 0 0) (.literal 1 (.unknown 1))), .settle]
    let w := (World.empty 10).after calls
    refine ⟨w, ⟨10, World.leads_after _ calls (by decide +kernel)⟩, fun fits => ?_⟩
    have here : (w.netlist.leaves.get? 1).map (fun leaf => (leaf.value.width, leaf.width)) =
        some (0, 1) := by decide +kernel
    obtain ⟨leaf, found, widths⟩ := Option.map_eq_some_iff.mp here
    have same := fits 1 leaf found
    simp_all
  · let calls : List Call := [.leaf "a" (.zeros 0), .leaf "y" (.unknown 1), .number, .number, .number,
      .number, .connect (.leaf 1)
        (.slice 3 (.binary 2 .add (.signal 0 0) (.literal 1 (.unknown 1))) 0 0)]
    exact ⟨(World.empty 10).after calls, ⟨10, World.leads_after _ calls (by decide +kernel)⟩,
      failed (by decide +kernel)⟩
  · let calls : List Call := [.leaf "a" (.zeros 0), .number, .number, .number, .number,
      .connect (.leaf 0) (.extend 3 (.binary 2 .add (.integer 0 0) (.integer 1 0)) 0 false)]
    exact ⟨(World.empty 10).after calls, ⟨10, World.leads_after _ calls (by decide +kernel)⟩,
      failed (by decide +kernel)⟩

end CombLogic
