import CombLogic.Proofs.Conflicts

/- The check of patterns against the check at run time. Each unique case of an accepted block has passed
   the one; if all its patterns are constant and no two items were found to overlap, the other never
   reports a conflict. -/
namespace CombLogic

open Expr Netlist Stmt

/-- Cases with constant patterns that do not overlap are silent. -/
theorem clean_sites_silent {w : World} {settings : BlockSettings} {log : Option DiagnosticLog}
    {builder : Builder} {statements : List Stmt} {g : Netlist} {block : BlockSummary} {s : Session}
    (reachable : w.Reachable) (allowed : w.Allows (.compile settings log builder))
    (watching : settings.overlapRule ≠ .allow)
    (written : builder.run w.netlist = (.ok statements, g))
    (accepted : builder.compile settings ⟨w.netlist, log⟩ = (.ok block, s)) :
    ∃ checks, s.netlist.checks = g.checks ++ checks.toArray ∧
      List.Forall₂ (fun site check =>
        (∃ warnings, Coverage.check settings (site.shape g) = .ok warnings) ∧
          (site.Clean g → (∀ env, check.conflict.value env ≠ .ok (.ofBool true)) ∧
            ∀ w', (w.call (.compile settings log builder)).Leads w' → check ∈ w'.netlist.checks ∧
              ¬w'.netlist.Recomputes check.conflict (.ofBool true))) (bodySites statements) checks := by
  obtain ⟨K, sharing, -, inside⟩ := allowed statements g written
  obtain ⟨drivers, checks, L, compiled⟩ := compile_compiled written sharing inside accepted
  obtain ⟨log', t, ran⟩ := compiled.passes
  have watches := plan_watches watching sharing inside (outputs_nodup compiled.found)
    (outputs_cover compiled.found) ran
  have after : (w.call (.compile settings log builder)).netlist = s.netlist :=
    congrArg (fun r => r.2.netlist) accepted
  obtain ⟨M, kept⟩ := reachable_kept (reachable_call reachable allowed)
  refine ⟨checks, compiled.checks, ?_⟩
  have each : List.Forall₂ Eq checks checks := List.forall₂_refl checks
  refine (forall₂_join watches.flip each).imp ?_
  rintro site _ ⟨check, listed, ⟨-, linted⟩, rfl⟩
  refine ⟨linted.checked, fun clean => ⟨linted.silent clean, fun w' later => ⟨?_, fun one => ?_⟩⟩⟩
  · refine (leads_lasts later kept).checks check ?_
    rw [after, compiled.checks]
    simp [listed]
  · exact linted.silent clean _ one.1

/-- A case in a branch, with a wildcard and an unknown bit in its patterns. -/
theorem clean_case_silent : ∃ (w : World) (builder : Builder) (check : ConflictCheck),
    w.Reachable ∧ check ∈ (w.call (.compile {} none builder)).netlist.checks ∧
      ∀ env, check.conflict.value env ≠ .ok (.ofBool true) := by
  let items : List CaseItem := [.mk [.literal 3 ⟨[.z, .one]⟩] [.assign (.leaf 2) (.signal 1 0)],
    .mk [.literal 4 ⟨[.x, .zero]⟩, .literal 5 ⟨[.one, .zero]⟩] []]
  let statements : List Stmt := [.assign (.leaf 2) (.literal 0 (.ofBool false)),
    .ifElse (.signal 1 0) [.case ⟨true, true⟩ (.signal 2 1) items []] []]
  let builder : Builder := .number fun _ => .number fun _ => .number fun _ => .number fun _ =>
    .number fun _ => .number fun _ => .block statements
  let declared : List Call := [.leaf "en" (.ofBool true), .leaf "sel" (.unknown 2), .leaf "y" (.unknown 1)]
  let w := (World.empty 10).after declared
  have reachable : w.Reachable := ⟨10, World.leads_after _ declared (by decide +kernel)⟩
  have written : ∀ g, builder.run g = (.ok statements, (builder.run g).2) := fun g => rfl
  have accepted := run_of_toOption (r := builder.compile {} ⟨w.netlist, none⟩) (a := ⟨[2], 4⟩)
    (by decide +kernel)
  have allowed : w.Allows (.compile {} none builder) := by decide +kernel
  have clean : ∀ site ∈ bodySites statements, site.Clean (builder.run w.netlist).2 := by
    decide +kernel
  obtain ⟨site, listed⟩ : ∃ site, site ∈ bodySites statements :=
    List.exists_mem_of_length_pos (by decide +kernel)
  -- only these facts matter from here on, not how the world came about
  clear_value w builder
  obtain ⟨checks, -, each⟩ := clean_sites_silent reachable allowed (by decide) (written _) accepted
  obtain ⟨check, -, -, silent⟩ := forall₂_left each site listed
  obtain ⟨never, later⟩ := silent (clean site listed)
  exact ⟨w, builder, check, reachable, (later _ .refl).1, never⟩

end CombLogic
