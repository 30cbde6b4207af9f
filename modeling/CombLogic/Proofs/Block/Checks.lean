import CombLogic.Proofs.Block.Plan
import CombLogic.Proofs.Block.Watching

/- The checks of a block. There is one for each of its sites, and it tells whether a run of the whole
   block conflicts there. -/
namespace CombLogic

open Expr Stmt

/-- A condition that, where it has a value, is 1 exactly if a run of a block conflicts at a site. -/
def Site.Exact (site : Site) (g : Netlist) (outputs : List LeafId) (e : Expr) : Prop :=
  ∀ env σ v, (site.reach ⟨g, env, outputs⟩ σ).isSome → e.value env = .ok v →
    (v = .ofBool true ↔ site.Conflicts ⟨g, env, outputs⟩ σ)

section

variable {K : Set Expr} {g : Netlist} {b : Binding}

/-- Nothing but the body of a block sets a condition aside. -/
theorem conflicts_body {outputs : List LeafId} {start final : Binding} {log : Option DiagnosticLog}
    {next : Nat} {s₁ s₂ s₃ : ExecState} {drivers : List (LeafId × Expr)} {new : List (String × Expr)}
    (begun : Block.unassigned outputs .empty ⟨next, log, #[]⟩ = (.ok start, s₁))
    (added : s₂.conflicts.toList = s₁.conflicts.toList ++ new)
    (checked : outputs.mapM (Block.checkOutput g final) s₂ = (.ok drivers, s₃)) :
    s₃.conflicts.toList = new := by
  have steps : Stepwise Block.Elsewhere fun _ m => Quiet m := quiet_steps
  have nothing : s₁.conflicts = #[] := quiet_steps.unassigned outputs .empty _ start s₁ begun
  have same : s₃.conflicts = s₂.conflicts :=
    steps.mapM outputs (steps.checkOutput g final) s₂ drivers s₃ checked
  simpa [same, nothing] using added

theorem watches_exact {site : Site} {conflict : Expr} {check : ConflictCheck} (blank : Blank b)
    (watches : Watches g b [] site conflict) (checks : Checks g K conflict check) :
    site.Exact g b.keys check.conflict := by
  obtain ⟨good, same⟩ := checks
  have same := same watches.integerless
  intro env σ v reached value
  have assigned := assigned_of_resolved (same ▸ good.checked.resolved)
  exact watches.exact env σ v (blank_holds blank env σ) assigned (by simp) reached (same ▸ value)

/-- The checks of a plan are for the sites of the block, one by one. -/
theorem plan_watches {c : ExecContext} {statements : List Stmt} {outputs : List LeafId}
    {next : Nat} {log : Option DiagnosticLog} {drivers : List (LeafId × Expr)}
    {checks : List ConflictCheck} {s : ExecState} (watching : c.settings.overlapRule ≠ .allow)
    (sharing : Sharing K next) (inside : ∀ e ∈ bodyExprs statements, e ∈ K) (nodup : outputs.Nodup)
    (covered : ∀ target ∈ bodyTargets statements, Covers c.netlist outputs target)
    (run : Block.plan c statements outputs ⟨next, log, #[]⟩ = (.ok (drivers, checks), s)) :
    List.Forall₂ (fun site check => site.Exact c.netlist outputs check.conflict ∧
      Linted c.settings c.netlist site check.conflict) (bodySites statements) checks := by
  have ready : ExecState.Ready ⟨next, log, #[]⟩ K := ⟨sharing, by simp⟩
  obtain ⟨start, s₁, begun, run⟩ := executing_bind run
  obtain ⟨L₁, sub₁, ready₁, blank, keys, runs⟩ :=
    start_yields inside nodup covered K subset_rfl _ start s₁ ready begun
  obtain ⟨final, s₂, executed, run⟩ := executing_bind run
  obtain ⟨L₂, sub₂, ready₂, follows⟩ :=
    body_yields ready₁.sharing statements runs L₁ subset_rfl s₁ final s₂ ready₁ executed
  obtain ⟨new, added, watches⟩ := body_logs watching ready₁.sharing statements runs L₁ subset_rfl s₁
    final s₂ ready₁ executed
  obtain ⟨drivers', s₃, checked, run⟩ := executing_bind run
  obtain ⟨L₃, sub₃, ready₃, -⟩ :=
    checkOutputs_yields follows.good outputs L₂ subset_rfl s₂ drivers' s₃ ready₂ checked
  obtain ⟨_, _, got, run⟩ := executing_bind run
  cases got
  obtain ⟨checks', s₄, made, run⟩ := executing_bind run
  cases run
  have list := conflicts_body begun added checked
  obtain ⟨L₄, -, -, goods⟩ := checkConflicts_yields ready₃.sharing s₃.conflicts.toList ready₃.watched
    L₃ subset_rfl s₃ checks s ready₃ made
  rw [list] at goods
  refine (forall₂_join watches.flip goods).imp ?_
  rintro site check ⟨conflict, -, ⟨watches, linted⟩, checks⟩
  exact ⟨keys ▸ watches_exact blank watches checks, checks.2 watches.integerless ▸ linted⟩

theorem plan_exact {c : ExecContext} {statements : List Stmt} {outputs : List LeafId}
    {next : Nat} {log : Option DiagnosticLog} {drivers : List (LeafId × Expr)}
    {checks : List ConflictCheck} {s : ExecState} (watching : c.settings.overlapRule ≠ .allow)
    (sharing : Sharing K next) (inside : ∀ e ∈ bodyExprs statements, e ∈ K) (nodup : outputs.Nodup)
    (covered : ∀ target ∈ bodyTargets statements, Covers c.netlist outputs target)
    (run : Block.plan c statements outputs ⟨next, log, #[]⟩ = (.ok (drivers, checks), s)) :
    List.Forall₂ (fun site check => site.Exact c.netlist outputs check.conflict)
      (bodySites statements) checks :=
  (plan_watches watching sharing inside nodup covered run).imp fun _ _ => And.left

end

end CombLogic
