import CombLogic.Proofs.Recomputation

/- Compiled blocks mean what their statements say. After every pass from then on, the outputs of a
   block have the values that a run of its statements leaves in them. -/
namespace CombLogic

open Expr Netlist Stmt

section

variable {w w' : World} {settings : BlockSettings} {log : Option DiagnosticLog} {builder : Builder}
  {statements : List Stmt} {g h : Netlist} {block : BlockSummary} {s : Session}

theorem compiled_driver {K L : Set Expr} {outputs : List LeafId} {drivers : List (LeafId × Expr)}
    {checks : List ConflictCheck}
    (compiled : Compiled settings g K statements outputs drivers checks L h)
    {id : LeafId} (output : id ∈ outputs) :
    ∃ leaf e, h.leaves.get? id = some leaf ∧ leaf.drive = .driven e ∧ (id, e) ∈ drivers := by
  have leaves : drivers.map Prod.fst = outputs := compiled.planned.leaves
  obtain ⟨before, found, -⟩ := compiled.free id output
  obtain ⟨after, found', step⟩ := compiled.attached.leaf id before found
  rcases step.drive with ⟨other, -⟩ | ⟨e, offered, driven⟩
  · exact (other (leaves ▸ output)).elim
  · exact ⟨after, e, found', driven, offered⟩

/-- Compiler correctness. -/
theorem compile_means (reachable : w.Reachable)
    (allowed : w.Allows (.compile settings log builder))
    (written : builder.run w.netlist = (.ok statements, g))
    (accepted : builder.compile settings ⟨w.netlist, log⟩ = (.ok block, s))
    (later : (w.call (.compile settings log builder)).Leads w') {report : PassReport}
    (settled : settle w'.netlist = (.ok report, h)) {σ σ' : Store}
    (run : Scene.runAll ⟨g, h.env, block.outputs⟩ statements σ = some σ') :
    ∀ leaf ∈ block.outputs, h.value leaf = .ok (σ' leaf) := by
  intro id output
  obtain ⟨K, sharing, -, inside⟩ := allowed statements g written
  obtain ⟨drivers, checks, L, compiled⟩ := compile_compiled written sharing inside accepted
  obtain ⟨leaf, e, found, driven, offered⟩ := compiled_driver compiled output
  have after : (w.call (.compile settings log builder)).netlist = s.netlist :=
    congrArg (fun r => r.2.netlist) accepted
  obtain ⟨M, kept⟩ := reachable_kept (reachable_call reachable allowed)
  obtain ⟨N, kept'⟩ := leads_kept later kept
  have passed : (w.call (.compile settings log builder)).Leads ⟨h, w'.made⟩ :=
    later.tail ⟨.settle, trivial, by simp only [World.call, World.edit, settled]⟩
  obtain ⟨leaf', found', -, drive⟩ := (leads_lasts passed kept).leaf id leaf (after ▸ found)
  have value := (settled_up_to_date kept' settled id leaf' e found' (drive e driven) (by simp)).1
  have right := compiled.planned.right h.env σ σ' run (id, e) offered
  rw [value_ok found', ← value, right]

end

/-- A leaf that a block sets to 1 or 0 as another one says, which is 0 in the end. -/
theorem choice_means : ∃ (w w' : World) (builder : Builder) (report : PassReport) (h : Netlist),
    w.Reachable ∧ (w.call (.compile {} none builder)).Leads w' ∧
      settle w'.netlist = (.ok report, h) ∧ h.value 1 = .ok (.ofBool false) := by
  let statements : List Stmt := [.ifElse (.signal 0 0) [.assign (.leaf 1) (.literal 1 (.ofBool true))]
    [.assign (.leaf 1) (.literal 2 (.ofBool false))]]
  let builder : Builder := .number fun _ => .number fun _ => .number fun _ => .block statements
  let declared : List Call := [.leaf "c" (.ofBool true), .leaf "y" (.unknown 1)]
  let w := (World.empty 10).after declared
  let w₁ := w.call (.compile {} none builder)
  let w' := w₁.after [.settle, .force 0 (.ofBool false)]
  have reachable : w.Reachable := ⟨10, World.leads_after _ declared (by decide +kernel)⟩
  have later : w₁.Leads w' := World.leads_after _ _ (by decide +kernel)
  have written : ∀ g, builder.run g = (.ok statements, (builder.run g).2) := fun g => rfl
  have accepted := run_of_toOption (r := builder.compile {} ⟨w.netlist, none⟩) (a := ⟨[1], 3⟩)
    (by decide +kernel)
  have passes : (settle w'.netlist).1.toOption.isSome := by decide +kernel
  obtain ⟨report, passed⟩ := Option.isSome_iff_exists.mp passes
  have settled := run_of_toOption passed
  have ran : (Scene.runAll ⟨(builder.run w.netlist).2, (settle w'.netlist).2.env, [1]⟩ statements
      fun _ => .unknown 1).map (· 1) = some (.ofBool false) := by decide +kernel
  obtain ⟨σ, run, value⟩ := Option.map_eq_some_iff.mp ran
  have means := compile_means reachable (by decide +kernel) (written _) accepted later settled run
  exact ⟨w, w', builder, report, _, reachable, later, settled, value ▸ means 1 (by simp)⟩

end CombLogic
