import CombLogic.Proofs.Calls
import CombLogic.Proofs.Netlist.Loops

/- A loop of drivers is never forgotten. Every pass after it fails, and fails before it has changed
   anything. -/
namespace CombLogic

open Expr Netlist

/-- A call fails. -/
def Fails {α : Type} (e : Edit α) (g : Netlist) : Prop := ∃ x h, e g = (.error x, h)

section

variable {α β : Type} {g : Netlist} {w w' : World} {ids : List LeafId}

theorem fails_bind {e : Edit α} {f : α → Edit β} (rest : ∀ a, Fails (f a) (e g).2) :
    Fails (e >>= f) g := by
  obtain ⟨result, h, run⟩ : ∃ result h, e g = (result, h) := ⟨_, _, rfl⟩
  cases result with
  | error x => exact ⟨x, h, step_error run⟩
  | ok a =>
    obtain ⟨x, h', failed⟩ := rest a
    rw [run] at failed
    exact ⟨x, h', (step_ok run).trans failed⟩

theorem reachable_waits (reachable : w.Reachable) : w.netlist.LoopsWait := by
  refine reachable_keeps move_waits (fun limit ids loop => ?_) reachable
  cases ids with
  | nil => exact loop.elim
  | cons id rest =>
    obtain ⟨d, -, leaf, e, found, -⟩ := loop_source loop id (by simp)
    simp [Netlist.empty] at found

theorem settle_fails (reachable : w.Reachable) (loop : w.netlist.Loop ids) :
    Fails settle w.netlist := by
  obtain ⟨K, kept⟩ := reachable_kept reachable
  obtain ⟨x, failed⟩ := settle_loop kept (reachable_waits reachable) loop
  exact ⟨x, _, failed⟩

theorem leads_loop (reachable : w.Reachable) (leads : w.Leads w') (loop : w.netlist.Loop ids) :
    w'.netlist.Loop ids := by
  obtain ⟨K, kept⟩ := reachable_kept reachable
  exact loop_lasts (leads_lasts leads kept) loop

/-- A pass fails also behind a call that stages values. -/
theorem settle_fails_after (reachable : w.Reachable) (loop : w.netlist.Loop ids) {c : Call}
    (allowed : w.Allows c) : Fails settle (w.call c).netlist :=
  settle_fails (reachable_call reachable allowed)
    (leads_loop reachable (.single ⟨c, allowed, rfl⟩) loop)

theorem leads_frozen (reachable : w.Reachable) (loop : w.netlist.Loop ids)
    (leads : w.Leads w') : Frozen w.netlist w'.netlist := by
  obtain ⟨K, kept⟩ := reachable_kept reachable
  let p : Netlist → Prop := fun g => g.LoopsWait ∧ g.Loop ids ∧ Frozen w.netlist g
  have start : p w.netlist := ⟨reachable_waits reachable, loop, frozen_refl _⟩
  have both : p w'.netlist := by
    refine leads_keeps (fun move before held => ?_) leads kept start
    obtain ⟨wait, loop, frozen⟩ := held
    exact ⟨move_waits move before wait, loop_lasts (move_lasts move before) loop,
      frozen_trans frozen (move_frozen move before wait loop)⟩
  exact both.2.2

/-- In every loop a leaf waits. While there is a loop no pass goes through, whatever is called, no
    value changes and no leaf becomes a root. -/
theorem loop_freezes (reachable : w.Reachable) :
    w.netlist.LoopsWait ∧ ∀ ids, w.netlist.Loop ids → ∀ w', w.Leads w' →
      Fails settle w'.netlist ∧ (∀ id v, Fails (inject id v) w'.netlist) ∧
        (∀ target v, Fails (injectWhole target v) w'.netlist) ∧
          ∀ w'', w'.Leads w'' → Frozen w'.netlist w''.netlist := by
  refine ⟨reachable_waits reachable, fun ids first w' leads => ?_⟩
  have there := reachable_leads reachable leads
  have loop := leads_loop reachable leads first
  refine ⟨settle_fails there loop, fun id v => ?_, fun target v => ?_, fun w'' later => ?_⟩
  · exact fails_bind fun _ => settle_fails_after (c := .force id v) there loop trivial
  · exact fails_bind fun _ => settle_fails_after (c := .forceWhole target v) there loop trivial
  · exact leads_frozen there loop later

end

theorem dependsOn_at {g : Netlist} {id source : LeafId} {e : Expr}
    (driver : (g.leaves.get? id).bind (·.drive.driver?) = some e) (read : e.Reads source) :
    g.DependsOn id source := by
  obtain ⟨leaf, found, driven⟩ := Option.bind_eq_some_iff.mp driver
  exact ⟨leaf, e, found, driver?_eq_some.mp driven, read⟩

/-- Two leaves that drive each other, the first one since before a pass. It is still as it was after
    a value for another leaf was tried. -/
theorem pair_freezes : ∃ w w' : World, w.Reachable ∧ w.netlist.Loop [0, 1] ∧
    w.netlist.dirty.keys = [1] ∧ w.call (.inject 2 (.zeros 1)) = w' ∧ Fails settle w'.netlist ∧
      Frozen w.netlist w'.netlist := by
  let calls : List Call := [.leaf "a" (.unknown 1), .leaf "b" (.ofBool true), .leaf "c" (.unknown 1),
    .number, .connect (.leaf 0) (.signal 0 1), .settle, .number, .connect (.leaf 1) (.signal 1 0)]
  let w := (World.empty 10).after calls
  have reachable : w.Reachable := ⟨10, World.leads_after _ calls (by decide +kernel)⟩
  have forth : w.netlist.DependsOn 0 1 := dependsOn_at (by decide +kernel) ⟨0, .root _⟩
  have back : w.netlist.DependsOn 1 0 := dependsOn_at (by decide +kernel) ⟨1, .root _⟩
  have loop : w.netlist.Loop [0, 1] := by simp [Loop, forth, back]
  have later : w.Leads (w.call (.inject 2 (.zeros 1))) := .single ⟨.inject 2 _, trivial, rfl⟩
  obtain ⟨-, freezes⟩ := loop_freezes reachable
  obtain ⟨-, -, -, frozen⟩ := freezes [0, 1] loop w .refl
  obtain ⟨fails, -⟩ := freezes [0, 1] loop _ later
  exact ⟨w, _, reachable, loop, by decide +kernel, rfl, fails, frozen _ later⟩

end CombLogic
