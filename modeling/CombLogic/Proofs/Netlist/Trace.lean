import Mathlib.Data.List.Pairwise
import CombLogic.Proofs.Netlist.Commit
import CombLogic.Proofs.Sessions

/- The calls of a pass on its evaluator: the evaluation of one driver after the other, each followed
   by the setting of its leaf, and then the evaluation of the checks that are due. No driver is
   evaluated before a leaf is set that it reads, in an untaken branch or elsewhere. -/
namespace CombLogic.Netlist

open Expr EvalCall

/-- Evaluates drivers and writes down the calls, up to the first that fails. -/
def traceDrivers (g : Netlist) : Evaluation → Nat → List LeafId →
    List EvalCall × Except NetlistError (Evaluation × Nat)
  | ev, count, [] => ([], .ok (ev, count))
  | ev, count, id :: rest =>
    match g.leaf id with
    | .error x => ([], .error x)
    | .ok leaf =>
      match leaf.drive with
      | .driven driver =>
        match ev.attempt g driver with
        | (.error x, _) => ([.eval driver], .error x)
        | (.ok v, after) =>
          let (calls, result) := g.traceDrivers (after.set id v) (count + 1) rest
          (.eval driver :: .set id v :: calls, result)
      | _ => g.traceDrivers ev count rest

def traceChecks (g : Netlist) (affected : OrderedSet) : Evaluation → Nat → List ConflictCheck →
    List EvalCall × Except NetlistError (List String)
  | _, _, [] => ([], .ok [])
  | ev, index, check :: rest =>
    if decide (g.oldChecks ≤ index) || check.reads.any affected.contains then
      match ev.attempt g check.conflict with
      | (.error x, _) => ([.eval check.conflict], .error x)
      | (.ok v, after) =>
        let (calls, later) := g.traceChecks affected after (index + 1) rest
        (.eval check.conflict :: calls,
          later.map fun later => if v = .ofBool true then check.selector :: later else later)
    else g.traceChecks affected ev (index + 1) rest

/-- A pass with its calls. -/
def tracePass (g : Netlist) : List EvalCall × Except NetlistError PassResult :=
  if g.maxPassNodes < g.affected.size then
    ([], .error (.passTooLarge g.affected.size g.maxPassNodes))
  else
    match g.orderOf g.affected.keys with
    | .error x => ([], .error x)
    | .ok order =>
      match g.traceDrivers g.passStart 0 order with
      | (calls, .error x) => (calls, .error x)
      | (calls, .ok (ev, evaluated)) =>
        let (more, conflicts) := g.traceChecks g.affected ev 0 g.checks.toList
        (calls ++ more, conflicts.map fun conflicts => ⟨order, ev.values, evaluated, conflicts⟩)

variable {g : Netlist} {made : List ConflictCheck} {K : Set Expr}

section Results

/- Writing calls down changes nothing. -/

theorem traceDrivers_result (ev : Evaluation) (count : Nat) (order : List LeafId) :
    (g.traceDrivers ev count order).2 = g.evaluateDrivers ev count order := by
  induction order generalizing ev count with
  | nil => rfl
  | cons id rest ih =>
    rw [traceDrivers, evaluateDrivers]
    cases g.leaf id with
    | error x => rfl
    | ok leaf =>
      simp only [bind, Except.bind]
      cases leaf.drive with
      | undriven | root => exact ih ev count
      | driven driver =>
        simp only [Evaluation.run_attempt]
        cases ev.attempt g driver with
        | mk answer after =>
          cases answer with
          | error x => rfl
          | ok v => exact ih (after.set id v) (count + 1)

theorem traceChecks_result (affected : OrderedSet) (ev : Evaluation) (index : Nat)
    (checks : List ConflictCheck) :
    (g.traceChecks affected ev index checks).2 = g.evaluateChecks affected ev index checks := by
  induction checks generalizing ev index with
  | nil => rfl
  | cons check rest ih =>
    rw [traceChecks, evaluateChecks]
    split
    · rw [Evaluation.run_attempt]
      cases ev.attempt g check.conflict with
      | mk answer after =>
        cases answer with
        | error x => rfl
        | ok v =>
          simp only [Except.map, bind, Except.bind, ← ih after (index + 1)]
          cases (g.traceChecks affected after (index + 1) rest).2 <;> rfl
    · exact ih ev (index + 1)

theorem tracePass_result (g : Netlist) : g.tracePass.2 = g.runPass := by
  rw [tracePass, runPass]
  split
  · rfl
  · simp only [bind, Except.bind]
    cases g.orderOf g.affected.keys with
    | error x => rfl
    | ok order =>
      have drivers := traceDrivers_result (g := g) g.passStart 0 order
      simp only [passStart] at drivers ⊢
      rw [← drivers]
      cases g.traceDrivers _ 0 order with
      | mk calls result =>
        cases result with
        | error x => rfl
        | ok done =>
          simp only [← traceChecks_result]
          cases (g.traceChecks g.affected done.1 0 g.checks.toList).2 <;> rfl

end Results

section Calls

/-- The drivers of an order are evaluated and their leaves set, and nothing else. -/
theorem traceDrivers_calls {order : List LeafId} {ev : Evaluation} {count : Nat} {call : EvalCall}
    (listed : call ∈ (g.traceDrivers ev count order).1) :
    (∃ id leaf e, g.leaves.get? id = some leaf ∧ leaf.drive = .driven e ∧ call = .eval e) ∨
      ∃ id ∈ order, ∃ v, call = .set id v := by
  induction order generalizing ev count with
  | nil => cases listed
  | cons id rest ih =>
    have later : ∀ {ev count}, call ∈ (g.traceDrivers ev count rest).1 →
        (∃ id leaf e, g.leaves.get? id = some leaf ∧ leaf.drive = .driven e ∧ call = .eval e) ∨
          ∃ d ∈ id :: rest, ∃ v, call = .set d v :=
      fun listed => (ih listed).imp_right fun ⟨d, member, v, equal⟩ =>
        ⟨d, List.mem_cons_of_mem _ member, v, equal⟩
    rw [traceDrivers] at listed
    cases found : g.leaf id with
    | error x =>
      rw [found] at listed
      cases listed
    | ok leaf =>
      cases drive : leaf.drive with
      | undriven | root =>
        simp only [found, drive] at listed
        exact later listed
      | driven driver =>
        have here : ∃ id leaf e, g.leaves.get? id = some leaf ∧ leaf.drive = .driven e ∧
            EvalCall.eval driver = .eval e := ⟨id, leaf, driver, leaf_ok.mp found, drive, rfl⟩
        simp only [found, drive] at listed
        cases run : ev.attempt g driver with
        | mk answer after =>
          rw [run] at listed
          cases answer with
          | error x =>
            rw [List.mem_singleton.mp listed]
            exact .inl here
          | ok v =>
            rcases List.mem_cons.mp listed with rfl | listed
            · exact .inl here
            rcases List.mem_cons.mp listed with rfl | listed
            · exact .inr ⟨id, List.mem_cons_self, v, rfl⟩
            · exact later listed

/-- Whoever reads a leaf comes after it in the order of a pass. -/
theorem traceDrivers_timely (kept : Kept g made K) {order : List LeafId}
    (forward : Order.Forward g.readersOf order) (ev : Evaluation) (count : Nat) :
    Timely (g.traceDrivers ev count order).1 := by
  induction order generalizing ev count with
  | nil => exact .nil
  | cons id rest ih =>
    obtain ⟨ahead, forward'⟩ := forward
    rw [traceDrivers]
    cases found : g.leaf id with
    | error x => exact .nil
    | ok leaf =>
      cases drive : leaf.drive with
      | undriven | root =>
        simp only [drive]
        exact ih forward' ev count
      | driven driver =>
        simp only [drive]
        cases ev.attempt g driver with
        | mk answer after =>
          cases answer with
          | error x => exact List.pairwise_singleton _ _
          | ok v =>
            have unread : ∀ d ∈ id :: rest, ¬driver.Reads d := fun d member read =>
              ahead d member (kept.listed id leaf driver (leaf_ok.mp found) drive d read)
            refine .cons (fun call listed => ?_) (.cons (fun call _ disturbs => disturbs) (ih forward' _ _))
            rcases List.mem_cons.mp listed with rfl | listed
            · exact unread id List.mem_cons_self
            · rcases traceDrivers_calls listed with ⟨_, _, e, -, -, rfl⟩ | ⟨d, member, w, rfl⟩
              · exact fun disturbs => disturbs
              · exact unread d (List.mem_cons_of_mem _ member)

/-- Checks are evaluated and nothing is set. -/
theorem traceChecks_calls {affected : OrderedSet} {checks : List ConflictCheck} {ev : Evaluation}
    {index : Nat} {call : EvalCall} (listed : call ∈ (g.traceChecks affected ev index checks).1) :
    ∃ check ∈ checks, call = .eval check.conflict := by
  induction checks generalizing ev index with
  | nil => cases listed
  | cons check rest ih =>
    have later : ∀ {ev index}, call ∈ (g.traceChecks affected ev index rest).1 →
        ∃ c ∈ check :: rest, call = .eval c.conflict := fun listed =>
      (ih listed).imp fun c found => ⟨List.mem_cons_of_mem _ found.1, found.2⟩
    rw [traceChecks] at listed
    split at listed
    · cases run : ev.attempt g check.conflict with
      | mk answer after =>
        rw [run] at listed
        cases answer with
        | error x => exact ⟨check, List.mem_cons_self, List.mem_singleton.mp listed⟩
        | ok v =>
          rcases List.mem_cons.mp listed with rfl | listed
          · exact ⟨check, List.mem_cons_self, rfl⟩
          · exact later listed
    · exact later listed

theorem tracePass_calls (kept : Kept g made K) :
    Timely g.tracePass.1 ∧ ∀ e, .eval e ∈ g.tracePass.1 → e ∈ K := by
  have none : Timely [] ∧ ∀ e : Expr, EvalCall.eval e ∈ [] → e ∈ K :=
    ⟨.nil, fun _ listed => (List.not_mem_nil listed).elim⟩
  rw [tracePass]
  split
  · exact none
  · cases ordered : g.orderOf g.affected.keys with
    | error x => exact none
    | ok order =>
      have forward : Order.Forward g.readersOf order := Order.sort_forward (orderOf_ok ordered)
      have timely := traceDrivers_timely kept forward g.passStart 0
      have drivers : ∀ e, .eval e ∈ (g.traceDrivers g.passStart 0 order).1 → e ∈ K := by
        intro e listed
        rcases traceDrivers_calls listed with ⟨id, leaf, e', found, driven, equal⟩ | ⟨_, _, _, equal⟩
        · cases equal
          exact (kept.driver id leaf e found driven).1
        · cases equal
      cases run : g.traceDrivers g.passStart 0 order with
      | mk calls result =>
        rw [run] at timely drivers
        simp only [run]
        cases result with
        | error x => exact ⟨timely, drivers⟩
        | ok done =>
          obtain ⟨ev, evaluated⟩ := done
          have checks : ∀ call ∈ (g.traceChecks g.affected ev 0 g.checks.toList).1,
              ∃ check ∈ g.checks.toList, call = .eval check.conflict :=
            fun call listed => traceChecks_calls listed
          have harmless : ∀ first : EvalCall,
              ∀ later ∈ (g.traceChecks g.affected ev 0 g.checks.toList).1,
              ¬first.Disturbs later := by
            intro first later listed
            obtain ⟨check, -, rfl⟩ := checks later listed
            cases first <;> exact fun disturbs => disturbs
          have idle : Timely (g.traceChecks g.affected ev 0 g.checks.toList).1 :=
            List.pairwise_of_forall_mem_list fun first _ later listed => harmless first later listed
          refine ⟨List.pairwise_append.mpr ⟨timely, idle, fun first _ => harmless first⟩,
            fun e listed => ?_⟩
          · rcases List.mem_append.mp listed with listed | listed
            · exact drivers e listed
            · obtain ⟨check, member, equal⟩ := checks _ listed
              cases equal
              exact (kept.checks check (List.mem_append_left _ member)).inside

end Calls

end CombLogic.Netlist
