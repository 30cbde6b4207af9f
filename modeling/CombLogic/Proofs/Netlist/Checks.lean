import CombLogic.Proofs.Recomputation
import CombLogic.Proofs.Widths

/- Checks and passes. A pass evaluates every check that is new or reads something that the pass came
   to; what any other check reads is as it was when the check was evaluated last. So every check that
   took part in a pass has a value. -/
namespace CombLogic

open Expr Netlist

namespace Netlist

/-- No check waits for its first pass. -/
def Passed (g : Netlist) : Prop := g.oldChecks = g.checks.size

instance (g : Netlist) : Decidable g.Passed := inferInstanceAs (Decidable (_ = _))

/-- Every check that is not new has a value. -/
structure Evaluated (g : Netlist) : Prop where
  old : g.oldChecks ≤ g.checks.size
  value : ∀ i check, i < g.oldChecks → g.checks[i]? = some check →
    ∃ v, check.conflict.value g.env = .ok v

/-- A pass that comes to some leaves evaluates the check at an index. -/
def Due (g : Netlist) (affected : OrderedSet) (index : Nat) (check : ConflictCheck) : Bool :=
  decide (g.oldChecks ≤ index) || check.reads.any affected.contains

section

variable {g g' : Netlist} {made : List ConflictCheck} {K : Set Expr}

theorem due_iff {next : Nat} (sharing : Sharing K next) {check : ConflictCheck}
    (good : g.GoodCheck K check) (affected : OrderedSet) (index : Nat) :
    g.Due affected index check ↔
      g.oldChecks ≤ index ∨ ∃ d ∈ affected.keys, check.conflict.Reads d := by
  have signals : ∀ d, d ∈ check.reads ↔ check.conflict.Reads d := by
    intro d
    rw [good.reads, mem_signals sharing good.inside]
  simp only [Due, Bool.or_eq_true, decide_eq_true_eq, List.any_eq_true, signals,
    OrderedMap.contains_iff, and_comm]

/-- A pass lists a check as soon as it evaluates it and finds 1. -/
def Fires (g : Netlist) (affected : OrderedSet) (env : Env) (index : Nat) (check : ConflictCheck) :
    Bool :=
  g.Due affected index check &&
    decide ((check.conflict.value env).toOption = some (.ofBool true))

/-- Every check that is due has a value, and the selectors of those with 1 are listed. -/
theorem evaluateChecks_right {next : Nat} (sharing : Sharing K next) {affected : OrderedSet}
    {env : Env} {checks : List ConflictCheck} (good : ∀ check ∈ checks, g.GoodCheck K check)
    {ev : Evaluation} {index : Nat} {conflicts : List String} (right : MemoRight K env ev.memo)
    (same : ∀ d, (ev.env g).value d = env.value d)
    (done : g.evaluateChecks affected ev index checks = .ok conflicts) :
    (∀ check i, (check, i) ∈ checks.zipIdx index → g.Due affected i check →
      ∃ v, check.conflict.value env = .ok v) ∧
    conflicts = ((checks.zipIdx index).filter fun p => g.Fires affected env p.2 p.1).map
      (·.1.selector) := by
  induction checks generalizing ev index conflicts with
  | nil =>
    cases done
    simp
  | cons first rest ih =>
    have later := fun check listed => good check (List.mem_cons_of_mem _ listed)
    obtain ⟨inside, checked, -⟩ := good first List.mem_cons_self
    rw [evaluateChecks] at done
    simp only [List.zipIdx_cons, List.mem_cons, Prod.mk.injEq]
    split at done
    · rename_i due
      have due : g.Due affected index first := due
      obtain ⟨⟨v, ev'⟩, here, done⟩ := bind_ok done
      obtain ⟨others, run, done⟩ := bind_ok done
      obtain ⟨value, right'⟩ :=
        run_right sharing inside checked.resolved right (fun d _ => same d) here
      have same' : ∀ d, (ev'.env g).value d = env.value d := fun d =>
        (env_alike (by rw [(run_values here).2])).trans (same d)
      obtain ⟨each, listed⟩ := ih later right' same' run
      refine ⟨?_, ?_⟩
      · rintro check i (⟨rfl, rfl⟩ | member) due
        · exact ⟨v, value⟩
        · exact each check i member due
      · have fires : g.Fires affected env index first = decide (v = .ofBool true) := by
          simp [Fires, due, value, Except.toOption]
        rw [List.filter_cons, fires, ← Except.ok.inj done, listed]
        by_cases one : v = .ofBool true <;> simp [one]
    · rename_i idle
      have idle : ¬g.Due affected index first := idle
      obtain ⟨each, listed⟩ := ih later right same done
      refine ⟨?_, ?_⟩
      · rintro check i (⟨rfl, rfl⟩ | member) due
        · exact (idle due).elim
        · exact each check i member due
      · rw [List.filter_cons, if_neg (by simp [Fires, idle]), listed]

theorem check_value {check : ConflictCheck} (good : g.GoodCheck K check) {env env' : Env}
    (same : ∀ id leaf, g.leaves.get? id = some leaf → check.conflict.Reads id →
      env.value id = env'.value id) : check.conflict.value env = check.conflict.value env' := by
  refine value_congr good.checked.resolved fun d read => ?_
  have declared := checked_reads good.checked read
  rw [declared_get, Option.isSome_map] at declared
  obtain ⟨leaf, found⟩ := Option.isSome_iff_exists.mp declared
  exact same d leaf found read

theorem kept_check (kept : g.Kept made K) {i : Nat} {check : ConflictCheck}
    (found : g.checks[i]? = some check) : g.GoodCheck K check :=
  kept.checks check (List.mem_append_left _
    (Array.mem_toList_iff.mpr (Array.mem_of_getElem? found)))

/-- A change that leaves the checks and the values of the leaves alone. -/
theorem evaluated_still (kept : g.Kept made K) (evaluated : g.Evaluated)
    (checks : g'.checks = g.checks) (old : g'.oldChecks = g.oldChecks)
    (same : ∀ id leaf, g.leaves.get? id = some leaf → g'.value id = g.value id) :
    g'.Evaluated := by
  refine ⟨by rw [checks, old]; exact evaluated.old, ?_⟩
  rw [checks, old]
  intro i check before found
  obtain ⟨v, value⟩ := evaluated.value i check before found
  refine ⟨v, value ▸ check_value (kept_check kept found) fun id leaf there _ => ?_⟩
  rw [env_value, env_value, same id leaf there]

section Pass

variable {pass : PassResult} {ev : Evaluation} {i : Nat} {check : ConflictCheck}

/-- A check has the same value where the pass ends and in the netlist that it leaves behind. -/
theorem check_committed (kept : g.Kept made K)
    (sorted : Order.sort g.readersOf g.affected.keys = .ok pass.order)
    (run : g.evaluateDrivers g.passStart 0 pass.order = .ok (ev, pass.evaluated))
    (values : pass.values = ev.values) (found : g.checks[i]? = some check) :
    check.conflict.value (g.commit (g.changesOf pass)).env = check.conflict.value (ev.env g) := by
  refine check_value (kept_check kept found) fun id leaf there _ => ?_
  rw [env_value, value_committed kept sorted run values there]

/-- A check that is not due reads nothing to which the pass came. -/
theorem check_idle (kept : g.Kept made K)
    (sorted : Order.sort g.readersOf g.affected.keys = .ok pass.order)
    (run : g.evaluateDrivers g.passStart 0 pass.order = .ok (ev, pass.evaluated))
    (values : pass.values = ev.values) (found : g.checks[i]? = some check)
    (idle : ¬g.Due g.affected i check) :
    check.conflict.value g.env = check.conflict.value (g.commit (g.changesOf pass)).env := by
  have good := kept_check kept found
  rw [due_iff kept.sharing good, not_or, not_exists] at idle
  rw [check_committed kept sorted run values found]
  refine check_value good fun id leaf there read => ?_
  rw [env_value, value_unreached kept sorted run values there fun reached => idle.2 id ⟨reached, read⟩]

/-- What a pass finds out about the checks. -/
theorem checks_right (kept : g.Kept made K) (done : g.runPass = .ok pass) :
    (∀ i check, g.checks[i]? = some check → g.Due g.affected i check →
      ∃ v, check.conflict.value (g.commit (g.changesOf pass)).env = .ok v) ∧
    pass.conflicts = (g.checks.toList.zipIdx.filter fun p =>
      g.Fires g.affected (g.commit (g.changesOf pass)).env p.2 p.1).map (·.1.selector) := by
  obtain ⟨ev, sorted, run, watched, values⟩ := runPass_steps done
  have right := (evaluateDrivers_right kept (Order.sort_forward sorted) run (passStart_right g _)).1
  have good : ∀ check ∈ g.checks.toList, g.GoodCheck K check := fun check listed =>
    kept.checks check (List.mem_append_left _ listed)
  obtain ⟨each, listed⟩ := evaluateChecks_right kept.sharing good right (fun _ => rfl) watched
  have member : ∀ check i, (check, i) ∈ g.checks.toList.zipIdx ↔ g.checks[i]? = some check := by
    simp [List.mk_mem_zipIdx_iff_getElem?]
  refine ⟨fun i check found due => ?_, listed.trans (congrArg _ (List.filter_congr ?_))⟩
  · rw [check_committed kept sorted run values found]
    exact each check i ((member check i).mpr found) due
  · rintro ⟨check, i⟩ inside
    simp only [Fires, check_committed kept sorted run values ((member check i).mp inside)]

end Pass

theorem evaluated_commit (kept : g.Kept made K) (evaluated : g.Evaluated) {pass : PassResult}
    (done : g.runPass = .ok pass) : (g.commit (g.changesOf pass)).Evaluated := by
  obtain ⟨ev, sorted, run, values⟩ := runPass_ok done
  refine ⟨by rw [commit_oldChecks, commit_checks], fun i check _ found => ?_⟩
  rw [commit_checks] at found
  by_cases due : g.Due g.affected i check
  · exact (checks_right kept done).1 i check found due
  · obtain ⟨new, -⟩ := not_or.mp (mt (due_iff kept.sharing (kept_check kept found) _ i).mpr due)
    rw [← check_idle kept sorted run values found due]
    exact evaluated.value i check (Nat.lt_of_not_le new) found

theorem move_evaluated {s s' : Stage} (move : Move s s') (kept : s.world.Kept s.known)
    (evaluated : s.world.netlist.Evaluated) : s'.world.netlist.Evaluated := by
  cases move with
  | number | stage | drop | make => exact ⟨evaluated.old, evaluated.value⟩
  | extend extended next =>
    exact evaluated_still kept evaluated extended.checks extended.oldChecks
      fun id leaf found => (extended.value found).symm
  | attach attached free offered =>
    exact evaluated_still kept evaluated (by rw [attached.same]) (by rw [attached.same])
      fun id leaf found => attached.value found
  | commit done => exact evaluated_commit kept evaluated done
  | @watch g _ _ check good =>
    have old : g.oldChecks ≤ g.checks.size := evaluated.old
    refine ⟨by simpa using Nat.le_succ_of_le old, fun i other before found => ?_⟩
    have before : i < g.oldChecks := before
    have listed : (g.checks.push check)[i]? = g.checks[i]? := by
      rw [Array.getElem?_push, if_neg (by omega)]
    exact evaluated.value i other before (listed.symm.trans found)

/-- A check has a value unless it waits. -/
theorem passed_recomputes (kept : g.Kept made K) (evaluated : g.Evaluated) (passed : g.Passed)
    {check : ConflictCheck} (listed : check ∈ g.checks) :
    ∃ v, g.Recomputes check.conflict v := by
  obtain ⟨i, before, rfl⟩ := Array.mem_iff_getElem.mp listed
  have found : g.checks[i]? = some g.checks[i] := Array.getElem?_eq_getElem before
  obtain ⟨v, value⟩ := evaluated.value i _ (passed ▸ before) found
  exact ⟨v, value, start_run kept.sharing (kept_check kept found).inside value⟩

/-- Every check has a value if all widths agree. -/
theorem balanced_recomputes (kept : g.Kept made K) (fits : g.Fits) (balanced : g.Balanced)
    {check : ConflictCheck} (listed : check ∈ g.checks) :
    ∃ v, g.Recomputes check.conflict v := by
  have good := kept.checks check (List.mem_append_left _ (Array.mem_toList_iff.mpr listed))
  have even : check.conflict.Balanced g.declared := balanced _ (.inr ⟨check, by simpa using listed, rfl⟩)
  obtain ⟨v, value, -⟩ := value_wide kept.sharing good.inside (fits_env fits good.checked)
    ((balanced_width _ even).trans good.checked.width)
  exact ⟨v, value, start_run kept.sharing good.inside value⟩

/-- No check waits after a pass that went through. -/
theorem settle_passed {report : PassReport} (settled : settle g = (.ok report, g')) :
    g'.Passed := by
  rcases settle_cases g with ⟨x, failed, -⟩ | ⟨report', pass, done, -⟩
  · cases failed.symm.trans settled
  · cases done.symm.trans settled
    rw [Passed, commit_oldChecks, commit_checks]

end

end Netlist

theorem reachable_evaluated {w : World} (reachable : w.Reachable) : w.netlist.Evaluated := by
  refine reachable_keeps move_evaluated (fun _ => ⟨Nat.le_refl 0, fun i _ before => ?_⟩) reachable
  exact (Nat.not_lt_zero i before).elim

end CombLogic
