import CombLogic.Proofs.Calls
import CombLogic.Proofs.Netlist.Trace

/- The memo of an evaluator cannot be told from the outside, whatever the expressions share and
   whichever evaluations fail, unless a leaf is set too late. A pass never sets one too late. -/
namespace CombLogic

open Expr Netlist EvalCall

/-- An attempt is an evaluation that keeps its memo. On a new evaluator all answers are those of
    evaluations without a memo as long as the calls are timely, and the calls of a pass are. -/
theorem memo_invisible :
    (∀ (g : Netlist) (ev : Evaluation) (e : Expr),
      ev.run g e = (ev.attempt g e).1.map fun v => (v, (ev.attempt g e).2)) ∧
    (∀ (g : Netlist) (ev : Evaluation) (calls : List EvalCall) (next : Nat), ev.memo = {} →
      WellNumbered (evaluated calls) next → Timely calls →
      ev.answers g calls = ev.plainAnswers g calls) ∧
    ∀ w : World, w.Reachable →
      w.netlist.tracePass.2 = w.netlist.runPass ∧ Timely w.netlist.tracePass.1 ∧
      w.netlist.passStart.answers w.netlist w.netlist.tracePass.1 =
        w.netlist.passStart.plainAnswers w.netlist w.netlist.tracePass.1 := by
  have invisible : ∀ (g : Netlist) (ev : Evaluation) (calls : List EvalCall) (next : Nat),
      ev.memo = {} → WellNumbered (evaluated calls) next → Timely calls →
      ev.answers g calls = ev.plainAnswers g calls := by
    intro g ev calls next fresh numbered timely
    obtain ⟨K, sharing, members⟩ := (wellNumbered_iff _ next).mp numbered
    refine Evaluation.answers_plain sharing (fun e listed => members e (mem_evaluated.mpr listed))
      timely ?_
    intro e _ v known
    simp [fresh] at known
  refine ⟨fun g ev e => ev.run_attempt g e, invisible, fun w reachable => ?_⟩
  obtain ⟨K, kept⟩ := reachable_kept reachable
  obtain ⟨timely, members⟩ := tracePass_calls kept
  have numbered : WellNumbered (evaluated w.netlist.tracePass.1) w.netlist.nextNode :=
    (wellNumbered_iff _ _).mpr
      ⟨K, kept.sharing, fun e listed => members e (mem_evaluated.mp listed)⟩
  exact ⟨tracePass_result _, timely, invisible _ _ _ _ (passStart_memo _) numbered timely⟩

/-- A node found before a failure serves a choice and a difference, a branch that the choice passed
    over is evaluated after it, and a leaf is set in between; and a pass over a copied leaf. -/
theorem memo_after_failure :
    (let inverse := Expr.unary 1 .not (.signal 0 0)
      let calls : List EvalCall := [.set 0 (.ofBool true), .set 1 (.ofBool true),
        .eval (.binary 3 .add inverse (.integer 2 5)),
        .eval (.mux 5 (.signal 0 0) inverse (.signal 4 1)), .set 2 (.ofBool true),
        .eval (.concat 8 [.binary 6 .xor inverse (.signal 4 1), .signal 7 2])]
      Timely calls ∧ Evaluation.start.answers (.empty 10) calls =
        [.error (.unsizedLiteral 5), .ok (.ofBool false), .ok ⟨[.one, .one]⟩]) ∧
    ∃ w : World, w.Reachable ∧ w.netlist.tracePass.1.length = 2 ∧
      w.netlist.passStart.answers w.netlist w.netlist.tracePass.1 = [.ok (.ofBool false)] := by
  obtain ⟨-, invisible, passes⟩ := memo_invisible
  constructor
  · intro inverse calls
    have timely : Timely calls := by decide +kernel
    exact ⟨timely, (invisible (.empty 10) .start calls 9 rfl (by decide +kernel) timely).trans rfl⟩
  · let calls : List Call := [.leaf "a" (.ofBool true), .leaf "y" (.unknown 1), .number,
      .connect (.leaf 1) (.signal 0 0), .settle, .force 0 (.ofBool false)]
    let w := (World.empty 10).after calls
    have reachable : w.Reachable := ⟨10, World.leads_after _ calls (by decide +kernel)⟩
    exact ⟨w, reachable, by decide +kernel, (passes w reachable).2.2.trans (by decide +kernel)⟩

end CombLogic
