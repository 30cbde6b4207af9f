import CombLogic.Proofs.Drives
import CombLogic.Proofs.Netlist.Reports

/- Reports of passes. A report tells exactly what a pass has changed, in an order in which changes
   follow what they depend on, tells each subscriber of a changed leaf once, counts the drivers
   evaluated and lists the checks that found a conflict; and after a pass nothing is left to report. -/
namespace CombLogic

open Expr Netlist

/-- What a report says of a pass that led from one netlist to another. -/
structure PassReport.Exact (report : PassReport) (g h : Netlist) : Prop where
  changes : ∀ id old new, ⟨id, old, new⟩ ∈ report.changes ↔
    g.value id = .ok old ∧ h.value id = .ok new ∧ old ≠ new
  once : (report.changes.map Change.leaf).Nodup
  /-- A change follows the changes of all leaves that its driver reads, directly or not. -/
  follow : ∀ (i j : Nat) (c d : Change), report.changes[i]? = some c →
    report.changes[j]? = some d → Relation.TransGen g.DependsOn c.leaf d.leaf → j < i
  /-- The subscribers of the changed leaves are told, in the order of the changes. -/
  notices : report.notices = report.changes.flatMap fun c =>
    (g.subscribersOf c.leaf).map fun number => ⟨number, c⟩
  noticeOnce : (report.notices.map Notice.subscriber).Nodup
  /-- Whoever is told of a value finds it in the netlist. -/
  committed : ∀ notice ∈ report.notices, h.value notice.change.leaf = .ok notice.change.new
  evaluated : g.Driven.Finite ∧ report.evaluated = g.Driven.ncard
  /-- Conflicts are listed in the order of the checks, each one that is new or reads something
      downstream and is 1 in the end. -/
  conflicts : ∃ fired : List (ConflictCheck × Nat), fired.Sublist g.checks.toList.zipIdx ∧
    report.conflicts = fired.map (·.1.selector) ∧
    ∀ check i, (check, i) ∈ fired ↔ g.checks[i]? = some check ∧
      (g.oldChecks ≤ i ∨ ∃ d, check.conflict.Reads d ∧ g.Downstream d) ∧
        h.Recomputes check.conflict (.ofBool true)
  /-- The other checks are as they were. -/
  others : ∀ check i, g.checks[i]? = some check → i < g.oldChecks →
    (∀ d, check.conflict.Reads d → ¬g.Downstream d) →
      ∃ v, g.Recomputes check.conflict v ∧ h.Recomputes check.conflict v
  again : settle h = (.ok ⟨[], 0, [], []⟩, h)

theorem reachable_subscribed {w : World} (reachable : w.Reachable) : w.netlist.Subscribed :=
  reachable_keeps (fun move _ => move_subscribed move) subscribed_empty reachable

namespace Netlist

variable {g : Netlist} {made : List ConflictCheck} {K : Set Expr} {pass : PassResult}

theorem due_downstream (kept : g.Kept made K) (linked : g.Linked) {i : Nat} {check : ConflictCheck}
    (found : g.checks[i]? = some check) : g.Due g.affected i check = true ↔
      g.oldChecks ≤ i ∨ ∃ d, check.conflict.Reads d ∧ g.Downstream d := by
  rw [due_iff kept.sharing (kept_check kept found)]
  simp only [mem_affected kept linked, and_comm]

theorem committed_check (kept : g.Kept made K) (done : g.runPass = .ok pass) {i : Nat}
    {check : ConflictCheck} (found : g.checks[i]? = some check) {v : Value} :
    (g.commit (g.changesOf pass)).Recomputes check.conflict v ↔
      check.conflict.value (g.commit (g.changesOf pass)).env = .ok v := by
  have after := kept_commit kept done
  have inside := (kept_check kept found).inside
  exact ⟨fun recomputes => recomputes.1, fun value => ⟨value, start_run after.sharing inside value⟩⟩

/-- The checks that a pass lists are those that are due and have 1. -/
theorem conflicts_listed (kept : g.Kept made K) (linked : g.Linked) (done : g.runPass = .ok pass) :
    ∃ fired : List (ConflictCheck × Nat), fired.Sublist g.checks.toList.zipIdx ∧
      pass.conflicts = fired.map (·.1.selector) ∧
      ∀ check i, (check, i) ∈ fired ↔ g.checks[i]? = some check ∧
        (g.oldChecks ≤ i ∨ ∃ d, check.conflict.Reads d ∧ g.Downstream d) ∧
          (g.commit (g.changesOf pass)).Recomputes check.conflict (.ofBool true) := by
  refine ⟨_, List.filter_sublist, (checks_right kept done).2, fun check i => ?_⟩
  rw [List.mem_filter, List.mk_mem_zipIdx_iff_getElem?, Array.getElem?_toList]
  refine and_congr_right fun found => ?_
  rw [← due_downstream kept linked found, committed_check kept done found, Fires, Bool.and_eq_true,
    decide_eq_true_eq]
  refine and_congr_right fun _ => ?_
  cases check.conflict.value (g.commit (g.changesOf pass)).env <;> simp [Except.toOption]

theorem others_same (kept : g.Kept made K) (linked : g.Linked) (evaluated : g.Evaluated)
    (done : g.runPass = .ok pass) {i : Nat} {check : ConflictCheck}
    (found : g.checks[i]? = some check) (old : i < g.oldChecks)
    (apart : ∀ d, check.conflict.Reads d → ¬g.Downstream d) :
    ∃ v, g.Recomputes check.conflict v ∧
      (g.commit (g.changesOf pass)).Recomputes check.conflict v := by
  obtain ⟨ev, sorted, run, values⟩ := runPass_ok done
  have idle : ¬g.Due g.affected i check := by
    rw [due_downstream kept linked found]
    rintro (new | ⟨d, read, downstream⟩)
    · exact Nat.not_le_of_lt old new
    · exact apart d read downstream
  obtain ⟨v, before⟩ := evaluated.value i check old found
  have after := (check_idle kept sorted run values found idle).symm.trans before
  have inside := (kept_check kept found).inside
  exact ⟨v, ⟨before, start_run kept.sharing inside before⟩, (committed_check kept done found).mpr after⟩

end Netlist

/-- Every pass that goes through reports exactly what it did. -/
theorem reports_exact {w : World} (reachable : w.Reachable) {report : PassReport} {h : Netlist}
    (settled : settle w.netlist = (.ok report, h)) : report.Exact w.netlist h := by
  obtain ⟨K, kept⟩ := reachable_kept reachable
  have linked := reachable_linked reachable
  obtain ⟨pass, done, rfl, rfl⟩ := settled_pass settled
  obtain ⟨ev, sorted, -⟩ := runPass_ok done
  have once := changesOf_once kept sorted
  exact {
    changes := fun id old new => changesOf_iff
    once := once
    follow := fun i j c d here there => changesOf_follow kept linked sorted here there
    notices := rfl
    noticeOnce := notices_once (reachable_subscribed reachable) once
    committed := by
      intro notice told
      obtain ⟨c, changed, here⟩ := List.mem_flatMap.mp told
      obtain ⟨number, -, rfl⟩ := List.mem_map.mp here
      exact (changesOf_iff.mp changed).2.1
    evaluated := evaluated_count kept linked done
    conflicts := conflicts_listed kept linked done
    others := fun check i found old apart =>
      others_same kept linked (reachable_evaluated reachable) done found old apart
    again := settle_idle (commit_idle _ pass) }

/-- A leaf and a copy of it, each with a subscriber, and a check that reads the copy. -/
theorem copy_reported : ∃ (w : World) (report : PassReport) (h : Netlist), w.Reachable ∧
    settle w.netlist = (.ok report, h) ∧ report.Exact w.netlist h ∧
      (report.changes.map Change.leaf, report.evaluated, report.conflicts,
        report.notices.map Notice.subscriber) = ([0, 1], 1, ["y"], [1, 0]) := by
  let calls : List Call := [.leaf "a" (.unknown 1), .leaf "y" (.unknown 1), .number,
    .connect (.leaf 1) (.signal 0 0), .subscribe 1, .subscribe 0, .number,
    .check "y" (.signal 1 1), .watch 0, .force 0 (.ofBool true)]
  let w := (World.empty 10).after calls
  have reachable : w.Reachable := ⟨10, World.leads_after _ calls (by decide +kernel)⟩
  have passes : (settle w.netlist).1.toOption.map (fun report =>
      (report.changes.map Change.leaf, report.evaluated, report.conflicts,
        report.notices.map Notice.subscriber)) = some ([0, 1], 1, ["y"], [1, 0]) := by
    decide +kernel
  clear_value w
  obtain ⟨report, passed, parts⟩ := Option.map_eq_some_iff.mp passes
  have settled := run_of_toOption passed
  exact ⟨w, report, _, reachable, settled, reports_exact reachable settled, parts⟩

end CombLogic
