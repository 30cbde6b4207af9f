import CombLogic.Proofs.Calls

/- A pass evaluates no more than the drivers downstream of its seeds. It ends with the values that an
   evaluation of all drivers from scratch would find. -/
namespace CombLogic

open Expr Netlist

namespace Netlist

/-- What an evaluation of an expression by itself finds on the values of the leaves as they stand,
    and what an evaluation finds that kept no value before. -/
def Recomputes (g : Netlist) (e : Expr) (value : Value) : Prop :=
  e.value g.env = .ok value ∧ ∃ ev, Evaluation.start.run g e = .ok (value, ev)

/-- Every driven leaf has the value of its driver, unless it waits. -/
def UpToDate (g : Netlist) (waiting : List LeafId) : Prop :=
  ∀ id leaf e, g.leaves.get? id = some leaf → leaf.drive = .driven e → id ∉ waiting →
    g.Recomputes e leaf.value

theorem start_run {g : Netlist} {K : Set Expr} {next : Nat} (sharing : Sharing K next) {e : Expr}
    (member : e ∈ K) {value : Value} (plain : e.value g.env = .ok value) :
    ∃ ev, Evaluation.start.run g e = .ok (value, ev) := by
  have fresh : MemoRight K g.env Evaluation.start.memo := by
    intro n _ v known
    simp [Evaluation.start] at known
  have computes := (evaluate_computes sharing e member : Computes (MemoRight K g.env) _ _) _ fresh
  rw [plain] at computes
  obtain ⟨memo, found, -⟩ := computes
  refine ⟨{ Evaluation.start with memo := memo }, ?_⟩
  have found : (e.evaluate (Evaluation.start.env g)).run Evaluation.start.memo =
    .ok (value, memo) := found
  simp [Evaluation.run, found, bind, Except.bind, pure, Except.pure]

theorem kept_up_to_date {g : Netlist} {made : List ConflictCheck} {K : Set Expr}
    (kept : g.Kept made K) : g.UpToDate g.dirty.keys := by
  intro id leaf e found driven clean
  have plain := kept.fresh id leaf e found driven clean
  exact ⟨plain, start_run kept.sharing (kept.driver id leaf e found driven).1 plain⟩

/-- A pass that went through leaves no leaf waiting. -/
theorem settled_up_to_date {g h : Netlist} {made : List ConflictCheck} {K : Set Expr}
    (kept : g.Kept made K) {report : PassReport} (settled : settle g = (.ok report, h)) :
    h.UpToDate [] := by
  rcases settle_cases g with ⟨x, failed, -⟩ | ⟨report', pass, done, passed⟩
  · cases failed.symm.trans settled
  · cases done.symm.trans settled
    exact kept_up_to_date (kept_commit kept passed)

end Netlist

/-- Nothing is out of date but what was connected since the last pass that went through, and nothing
    at all after such a pass. -/
theorem reachable_up_to_date {w : World} (reachable : w.Reachable) :
    w.netlist.UpToDate w.netlist.dirty.keys ∧
      ∀ report g, settle w.netlist = (.ok report, g) → g.UpToDate [] := by
  obtain ⟨K, kept⟩ := reachable_kept reachable
  exact ⟨kept_up_to_date kept, fun report g settled => settled_up_to_date kept settled⟩

theorem recomputes_at {g : Netlist} {waiting : List LeafId} (current : g.UpToDate waiting)
    (id : LeafId) (clean : id ∉ waiting) {e : Expr} {value : Value}
    (held : (g.leaves.get? id).map (fun leaf => (leaf.drive.driver?, leaf.value)) =
      some (some e, value)) : g.Recomputes e value := by
  obtain ⟨leaf, found, held⟩ := Option.map_eq_some_iff.mp held
  obtain ⟨driver, rfl⟩ := Prod.mk.inj held
  exact current id leaf e found (driver?_eq_some.mp driver) clean

/-- A leaf connected to another one, which is 1 at first and then 0. -/
theorem copy_up_to_date : ∃ (w : World) (report : PassReport) (g : Netlist), w.Reachable ∧
    settle w.netlist = (.ok report, g) ∧ w.netlist.Recomputes (.signal 0 0) (.ofBool true) ∧
      g.Recomputes (.signal 0 0) (.ofBool false) := by
  let calls : List Call := [.leaf "a" (.ofBool true), .leaf "y" (.unknown 1), .number,
    .connect (.leaf 1) (.signal 0 0), .settle, .force 0 (.ofBool false)]
  let w := (World.empty 10).after calls
  have reachable : w.Reachable := ⟨10, World.leads_after _ calls (by decide +kernel)⟩
  have passes : (settle w.netlist).1.toOption.isSome := by decide +kernel
  obtain ⟨report, passed⟩ := Option.isSome_iff_exists.mp passes
  have settled := run_of_toOption passed
  obtain ⟨before, after⟩ := reachable_up_to_date reachable
  refine ⟨w, report, _, reachable, settled, ?_, ?_⟩
  · exact recomputes_at before 1 (by decide +kernel) (by decide +kernel)
  · exact recomputes_at (after report _ settled) 1 (by simp) (by decide +kernel)

end CombLogic
