import CombLogic.Proofs.Block.Checks
import CombLogic.Proofs.Netlist.Checks

/- Overlapping items of a case. Each unique case of an accepted block has its check, at any depth, and
   in every netlist from then on the check is 1 exactly where a run of the block comes to the case and
   finds several items matching. -/
namespace CombLogic

open Expr Netlist Stmt

/-- A check of a netlist that tells whether a run of a block conflicts at a site. Its condition has a
    value if no check waits for its first pass, or if all widths agree. -/
structure Site.CheckedBy (site : Site) (g : Netlist) (outputs : List LeafId) (check : ConflictCheck)
    (h : Netlist) : Prop where
  listed : check ∈ h.checks
  exact : ∀ σ v, (site.reach ⟨g, h.env, outputs⟩ σ).isSome → h.Recomputes check.conflict v →
    (v = .ofBool true ↔ site.Conflicts ⟨g, h.env, outputs⟩ σ)
  settled : h.Passed ∨ h.Balanced → ∀ σ, (site.reach ⟨g, h.env, outputs⟩ σ).isSome →
    (h.Recomputes check.conflict (.ofBool true) ↔ site.Conflicts ⟨g, h.env, outputs⟩ σ)

section

variable {w w' : World} {settings : BlockSettings} {log : Option DiagnosticLog} {builder : Builder}
  {statements : List Stmt} {g h : Netlist} {block : BlockSummary} {s : Session}

theorem check_recomputes (reachable : w.Reachable) {check : ConflictCheck}
    (listed : check ∈ w.netlist.checks) (ready : w.netlist.Passed ∨ w.netlist.Balanced) :
    ∃ v, w.netlist.Recomputes check.conflict v := by
  obtain ⟨K, kept⟩ := reachable_kept reachable
  rcases ready with passed | balanced
  · exact passed_recomputes kept (reachable_evaluated reachable) passed listed
  · exact balanced_recomputes kept (reachable_fits reachable balanced) balanced listed

theorem checkedBy_of_exact {site : Site} {outputs : List LeafId} {check : ConflictCheck}
    (exact : site.Exact g outputs check.conflict) (reachable : w.Reachable)
    (listed : check ∈ w.netlist.checks) : site.CheckedBy g outputs check w.netlist := by
  refine ⟨listed, fun σ v reached value => exact _ σ v reached value.1, fun ready σ reached => ?_⟩
  obtain ⟨v, value⟩ := check_recomputes reachable listed ready
  rw [← exact _ σ v reached value.1]
  constructor
  · exact fun one => Except.ok.inj (value.1.symm.trans one.1)
  · rintro rfl
    exact value

theorem leads_settle (leads : w.Leads w') : w.Leads ⟨(settle w'.netlist).2, w'.made⟩ :=
  leads.tail ⟨.settle, trivial, rfl⟩

/-- Checks are exact. -/
theorem checks_exact (reachable : w.Reachable)
    (allowed : w.Allows (.compile settings log builder)) (watching : settings.overlapRule ≠ .allow)
    (written : builder.run w.netlist = (.ok statements, g))
    (accepted : builder.compile settings ⟨w.netlist, log⟩ = (.ok block, s)) :
    ∃ checks, s.netlist.checks = g.checks ++ checks.toArray ∧
      List.Forall₂ (fun site check => ∀ w', (w.call (.compile settings log builder)).Leads w' →
        site.CheckedBy g block.outputs check w'.netlist) (bodySites statements) checks := by
  obtain ⟨K, sharing, -, inside⟩ := allowed statements g written
  obtain ⟨drivers, checks, L, compiled⟩ := compile_compiled written sharing inside accepted
  obtain ⟨log', t, ran⟩ := compiled.passes
  have exact := plan_exact watching sharing inside (outputs_nodup compiled.found)
    (outputs_cover compiled.found) ran
  have there := reachable_call reachable allowed
  have after : (w.call (.compile settings log builder)).netlist = s.netlist :=
    congrArg (fun r => r.2.netlist) accepted
  refine ⟨checks, compiled.checks, ?_⟩
  have each : List.Forall₂ Eq checks checks := List.forall₂_refl checks
  refine (forall₂_join exact.flip each).imp ?_
  rintro site _ ⟨check, listed, exact, rfl⟩ w' later
  obtain ⟨M, kept⟩ := reachable_kept there
  refine checkedBy_of_exact exact (reachable_leads there later) ?_
  refine (leads_lasts later kept).checks check ?_
  rw [after, compiled.checks]
  simp [listed]

end

/-- A case in a branch, whose items come to match both. -/
theorem overlap_checked : ∃ (w w' : World) (builder : Builder) (report : PassReport) (h : Netlist)
    (check : ConflictCheck), w.Reachable ∧ (w.call (.compile {} none builder)).Leads w' ∧
      settle w'.netlist = (.ok report, h) ∧ check ∈ h.checks ∧
        h.Recomputes check.conflict (.ofBool true) := by
  let items : List CaseItem := [.mk [.signal 3 2] [.assign (.leaf 4) (.literal 4 (.ofBool true))],
    .mk [.signal 5 3] []]
  let statements : List Stmt := [.assign (.leaf 4) (.literal 0 (.ofBool false)),
    .ifElse (.signal 1 0) [.case ⟨false, true⟩ (.signal 2 1) items []] []]
  let builder : Builder := .number fun _ => .number fun _ => .number fun _ => .number fun _ =>
    .number fun _ => .number fun _ => .block statements
  let declared : List Call := [.leaf "en" (.ofBool true), .leaf "sel" (.ofBool true),
    .leaf "p" (.ofBool true), .leaf "q" (.unknown 1), .leaf "y" (.unknown 1)]
  let w := (World.empty 10).after declared
  let w₁ := w.call (.compile {} none builder)
  let w' := w₁.after [.settle, .force 3 (.ofBool true)]
  have reachable : w.Reachable := ⟨10, World.leads_after _ declared (by decide +kernel)⟩
  have later : (w.call (.compile {} none builder)).Leads w' := World.leads_after _ _ (by decide +kernel)
  have written : ∀ g, builder.run g = (.ok statements, (builder.run g).2) := fun g => rfl
  have accepted := run_of_toOption (r := builder.compile {} ⟨w.netlist, none⟩) (a := ⟨[4], 4⟩)
    (by decide +kernel)
  have passes : (settle w'.netlist).1.toOption.isSome := by decide +kernel
  obtain ⟨report, passed⟩ := Option.isSome_iff_exists.mp passes
  have settled := run_of_toOption passed
  let scene : Scene := ⟨(builder.run w.netlist).2, (settle w'.netlist).2.env, [4]⟩
  have overlap : ∀ site ∈ bodySites statements, (site.reach scene fun _ => .unknown 1).isSome ∧
      site.Conflicts scene fun _ => .unknown 1 := by decide +kernel
  obtain ⟨site, listed⟩ : ∃ site, site ∈ bodySites statements :=
    List.exists_mem_of_length_pos (by decide +kernel)
  have allowed : w.Allows (.compile {} none builder) := by decide +kernel
  -- only these facts matter from here on, not how the worlds came about
  clear_value w' w builder
  obtain ⟨reached, conflicts⟩ := overlap site listed
  obtain ⟨checks, -, each⟩ := checks_exact reachable allowed (by decide) (written _) accepted
  obtain ⟨check, -, told⟩ := forall₂_left each site listed
  have checked : site.CheckedBy scene.netlist [4] check (settle w'.netlist).2 :=
    told _ (leads_settle later)
  have one := (checked.settled (.inl (settle_passed settled)) _ reached).mpr conflicts
  exact ⟨w, w', builder, report, _, check, reachable, later, settled, checked.listed, one⟩

end CombLogic
