import CombLogic.Proofs.Block.Approved
import CombLogic.Proofs.Block.Checks
import CombLogic.Proofs.Block.Spares
import CombLogic.Proofs.Block.Telling
import CombLogic.Proofs.Calls

/- Inferred latches. A block that assigns every output on all paths, and reads no output before that, is
   never rejected for a signal that is read before it is assigned. -/
namespace CombLogic

open Expr Stmt

section

variable {K : Set Expr} {c : ExecContext} {g : Netlist} {settings : BlockSettings}
  {statements : List Stmt} {outputs : List LeafId}

theorem mem_outputSet (found : Block.outputs g statements = .ok outputs) (leaf : LeafId) :
    leaf ∈ Block.outputSet g statements ↔ leaf ∈ outputs := by
  rw [mem_outputs found]
  simp only [Block.outputSet, Finset.mem_biUnion, List.mem_toFinset, Netlist.leafSet]
  refine exists_congr fun target => and_congr_right fun _ => ?_
  cases g.leavesOf target <;> simp [Except.toOption]

/-- The check phase finds everything assigned of which the analysis says so. -/
theorem plan_spares {next : Nat} {log : Option DiagnosticLog}
    (sharing : Sharing K next) (inside : ∀ e ∈ bodyExprs statements, e ∈ K)
    (written : ∀ e ∈ bodyExprs statements, e.Assigned)
    (found : Block.outputs c.netlist statements = .ok outputs)
    (flow : Block.DefinitelyAssigned c.netlist statements) :
    SparesFrom ⟨next, log, #[]⟩ (Block.plan c statements outputs) := by
  intro s signal read run
  have ready : ExecState.Ready ⟨next, log, #[]⟩ K := ⟨sharing, by simp⟩
  have members := mem_outputSet found
  obtain ⟨start, s₁, begun, run⟩ :=
    spares_inv (spares_plain (plain_steps.unassigned outputs .empty) _) run
  obtain ⟨L₁, sub₁, ready₁, -, keys, runs⟩ :=
    start_yields inside (outputs_nodup found) (outputs_cover found) K subset_rfl _ start s₁ ready begun
  have approved : Approved (Block.outputSet c.netlist statements) start ∅ [] (bodyExprs statements) :=
    ⟨fun _ _ _ none => by simp at none, fun leaf listed => (members leaf).mpr (keys ▸ listed), by simp,
      written⟩
  obtain ⟨final, s₂, executed, run⟩ :=
    spares_inv (tells_spares (body_tells ready₁.sharing statements runs L₁ subset_rfl s₁ ready₁)) run
  obtain ⟨L₂, sub₂, ready₂, follows⟩ :=
    body_yields ready₁.sharing statements runs L₁ subset_rfl s₁ final s₂ ready₁ executed
  obtain ⟨new, added, settled, clean⟩ := body_assigned ready₁.sharing statements runs approved flow.backed
    L₁ subset_rfl s₁ final s₂ ready₁ executed
  have entries : ∀ leaf ∈ outputs, ∀ e, final.get? leaf = some e → e.Assigned :=
    fun leaf listed e here => settled leaf e here (flow.all ((members leaf).mpr listed))
  obtain ⟨drivers, s₃, checked, run⟩ := spares_inv (spares_mapM outputs (fun leaf listed =>
    Block.checkOutput_spares (entries leaf listed)) s₂) run
  obtain ⟨_, _, got, run⟩ := spares_inv (spares_plain raises_get _) run
  cases got
  have list := conflicts_body begun added checked
  obtain ⟨checks, s₄, made, run⟩ := spares_inv (spares_mapM s₃.conflicts.toList (fun w listed =>
    Block.checkConflict_spares (clean w (list ▸ listed)) w.1) s₃) run
  cases run

/-- No false latch reports. -/
theorem assigned_spared {log : Option DiagnosticLog} {signal read : String}
    (numbered : WellNumbered (bodyExprs statements) g.nextNode)
    (written : ∀ e ∈ bodyExprs statements, e.Assigned)
    (flow : Block.DefinitelyAssigned g statements) :
    (Block.compile settings statements ⟨g, log⟩).1 ≠ .error (.unassignedRead signal read) := by
  obtain ⟨K, sharing, inside⟩ := (wellNumbered_iff _ _).mp numbered
  intro rejected
  obtain ⟨outputs, t, found, failed⟩ := compile_error id rejected
  exact plan_spares sharing inside written found flow t signal read failed

end

/-- A case without a default in a branch, over an output that is assigned before it and read in the
    other branch. -/
theorem branches_spared : ∃ (g : Netlist) (statements : List Stmt),
    bodyTargets statements = [.leaf 2, .leaf 3, .leaf 2, .leaf 3, .leaf 3] ∧
      ∀ settings log signal read,
        (Block.compile settings statements ⟨g, log⟩).1 ≠ .error (.unassignedRead signal read) := by
  let items : List CaseItem := [.mk [.literal 1 (.ofBool true)] [.assign (.leaf 2) (.literal 2 (.ofBool false))]]
  let statements : List Stmt := [.assign (.leaf 2) (.literal 0 (.ofBool true)),
    .ifElse (.signal 3 0)
      [.assign (.leaf 3) (.signal 4 1), .case ⟨false, true⟩ (.signal 5 1) items []]
      [.assign (.leaf 3) (.read 6 (.leaf 2)), .assign (.leaf 3) (.read 7 (.leaf 3))]]
  let calls : List Call := [.leaf "en" (.ofBool true), .leaf "sel" (.unknown 1), .leaf "y" (.unknown 1),
    .leaf "z" (.unknown 1)] ++ List.replicate 8 .number
  let g := ((World.empty 10).after calls).netlist
  have numbered : WellNumbered (bodyExprs statements) g.nextNode := by decide +kernel
  have flow : Block.DefinitelyAssigned g statements := by decide +kernel
  have written : ∀ e ∈ bodyExprs statements, e.Assigned := by
    unfold Expr.Assigned
    decide +kernel
  refine ⟨g, statements, rfl, fun settings log signal read => ?_⟩
  exact assigned_spared numbered written flow

end CombLogic
