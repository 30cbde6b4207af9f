import CombLogic.Proofs.Block.Execute
import CombLogic.Proofs.Block.Logs
import CombLogic.Proofs.Block.Linted

/- Execution sets one condition aside for each site of a block, in the order of the text, and each
   condition watches its site. -/
namespace CombLogic

open Expr Stmt

/-- Conditions that are watched for the sites of a list, one for each. -/
def WatchesAll (settings : BlockSettings) (g : Netlist) (b : Binding) (path : List Expr)
    (sites : List Site) (conflicts : List (String × Expr)) : Prop :=
  List.Forall₂ (fun site conflict =>
    Watches g b path site conflict.2 ∧ Linted settings g site conflict.2) sites conflicts

section

variable {settings : BlockSettings} {g : Netlist} {b b' : Binding} {path : List Expr} {guard : Expr} {L : Set Expr}
  {sites : List Site} {new : List (String × Expr)}

theorem watchesAll_under {asked : Scene → Store → Option Bool} (admits : Admits g b asked guard)
    (watches : WatchesAll settings g b (guard :: path) sites new) :
    WatchesAll settings g b path (sites.map (.under asked)) new :=
  List.forall₂_map_left_iff.mpr (watches.imp fun _ _ both =>
    ⟨watches_under admits both.1, linted_under both.2⟩)

theorem watchesAll_after {s : Stmt} (follows : Follows g b (fun c => c.run s) L b')
    (watches : WatchesAll settings g b' path sites new) : WatchesAll settings g b path (sites.map (.after s)) new :=
  List.forall₂_map_left_iff.mpr (watches.imp fun _ _ both =>
    ⟨watches_after follows both.1, linted_after both.2⟩)

/-- The condition that a case sets aside for itself, if it does. -/
theorem watchesAll_case {kind : CaseKind} {selector t : Expr} {width : Nat} {items : List CaseItem}
    {found : List Expr} {name : String} {warnings : List Diagnostic}
    (sized : selector.sized g.declared none = some (t, width))
    (joints : Joints g b kind.wildcard t items L found)
    (spelled : List.Forall₂ (fun item e => Spelled g b kind.wildcard t item.patterns e) items found)
    (named : Executing.caseName g selector = .ok name)
    (checked : Coverage.check settings ⟨name, kind, constants g kind.wildcard t items⟩ = .ok warnings)
    (logged : if kind.unique ∧ 1 < found.length then
      ∃ e, new = [(name, e)] ∧ e.Integerless ∧ Watched path found e else new = []) :
    WatchesAll settings g b path (if kind.unique ∧ 1 < items.length then
      [⟨kind.wildcard, selector, items, fun _ σ => some (some σ)⟩] else []) new := by
  rw [joints.length_eq]
  split
  · rename_i several
    rw [if_pos several] at logged
    obtain ⟨e, rfl, integerless, watched⟩ := logged
    exact .cons ⟨watches_case sized joints integerless watched,
      linted_case several.1 sized spelled named checked watched⟩ .nil
  · rename_i single
    rw [if_neg single] at logged
    obtain rfl := logged
    exact .nil

/-- Steps that follow and set nothing aside. -/
theorem watchesAll_then {K : Set Expr} {β : Type} {m : Executing β} (quiet : Quiet m)
    (watches : WatchesAll settings g b path sites new) :
    Logs K m fun _ later => WatchesAll settings g b path sites (new ++ later) := by
  refine logs_weaken (logs_quiet quiet) fun _ later none => ?_
  rw [none, List.append_nil]
  exact watches

end

variable {c : ExecContext}

mutual

theorem statement_logs {K : Set Expr} {next : Nat} {b : Binding} {path : List Expr}
    (watching : c.settings.overlapRule ≠ .allow) (sharing : Sharing K next) (s : Stmt)
    (runs : Runs c K b path s.exprs s.targets) : Logs K (Executing.statement c path s b) fun _ new =>
      WatchesAll c.settings c.netlist b path s.sites new := by
  cases s with
  | assign target value =>
    simp only [Executing.statement, sites]
    refine logs_weaken (logs_quiet (quiet_steps.assign c target value b)) ?_
    rintro _ _ rfl
    exact .nil
  | ifElse e thenBody elseBody =>
    simp only [Executing.statement, sites]
    refine logs_step (condition_yields sharing runs.good (runs.inside e (by simp [exprs])) c)
      (quiet_steps.condition c e b) fun L₁ _ holds sub₁ sharing₁ decides => ?_
    have first := runs_then runs sub₁ decides.fit
    refine logs_bind (body_yields sharing₁ thenBody first) (body_logs watching sharing₁ thenBody first)
      fun L₂ _ thenArm new sub₂ _ _ watches => ?_
    refine logs_step (yields_build (unary_fits (fit_mono sub₂ decides.fit))) (quiet_build _) ?_
    rintro L₃ _ _ sub₃ sharing₃ ⟨fit, n, rfl⟩
    have second := runs_else runs ((sub₁.trans sub₂).trans sub₃) fit
    refine logs_bind (body_yields sharing₃ elseBody second)
      (body_logs watching sharing₃ elseBody second) fun L₄ _ elseArm new' _ _ _ watches' => ?_
    simp only [← List.append_assoc]
    refine watchesAll_then (quiet_steps.joinBranches holds thenArm elseArm b.keys b) ?_
    exact List.rel_append (watchesAll_under (decides_admits decides) watches)
      (watchesAll_under (decides_rejects decides (needs_not (needs_self holds false))) watches')
  | case kind selector items default =>
    simp only [Executing.statement, sites]
    have given := runs_patterns runs
    refine logs_step (itemMatches_yields sharing runs.good (runs.inside selector (by simp [exprs]))
      given) (Executing.itemMatches_quiet c kind selector items b) ?_
    rintro L₁ _ ⟨name, found⟩ sub₁ _ ⟨t, width, sized, joints, spelled, named, _, checked⟩
    have guards := joints_guard joints
    have above := fun e listed => fit_mono sub₁ (runs.above e listed)
    refine logs_bind (watchCase_yields above (guards_fit guards))
      (Executing.watchCase_logs c watching above (guards_fit guards)) ?_
    intro L₂ _ _ new sub₂ _ _ logged
    have own := watchesAll_case sized joints spelled named checked logged
    have sub := sub₁.trans sub₂
    have inner := runs_items runs sub
    have nothing : Earlier L₂ [] none := rfl
    refine logs_bind (items_yield items inner guards.length_eq
      (fun e listed => fit_mono sub₂ (guards_fit guards e listed)) nothing)
      (items_log watching sized items inner .nil (guards_mono sub₂ guards) nothing) ?_
    rintro L₃ _ ⟨arms, earlier⟩ new' sub₃ _ ⟨-, past⟩ watches
    refine logs_step (yields_build (defaultGuard_makes past)) (quiet_build _) ?_
    rintro L₄ _ guard sub₄ sharing₄ ⟨fit, needs⟩
    have last := runs_default runs ((sub.trans sub₃).trans sub₄) fit
    refine logs_bind (body_yields sharing₄ default last) (body_logs watching sharing₄ default last)
      fun L₅ _ fallback new'' _ _ _ watches' => ?_
    have rest := List.rel_append watches
      (watchesAll_under (needs_misses sized guards needs) watches')
    simp only [← List.append_assoc]
    refine watchesAll_then (quiet_steps.joinItems found arms fallback b.keys b) ?_
    rw [List.append_assoc, List.append_assoc]
    exact List.rel_append own rest

theorem body_logs {K : Set Expr} {next : Nat} {b : Binding} {path : List Expr}
    (watching : c.settings.overlapRule ≠ .allow) (sharing : Sharing K next) (body : List Stmt)
    (runs : Runs c K b path (bodyExprs body) (bodyTargets body)) :
    Logs K (Executing.body c path body b) fun _ new =>
      WatchesAll c.settings c.netlist b path (bodySites body) new := by
  cases body with
  | nil =>
    simp only [Executing.body, bodySites]
    exact logs_pure .nil
  | cons s rest =>
    simp only [Executing.body, bodySites]
    have first := runs_first runs
    refine logs_bind (statement_yields sharing s first) (statement_logs watching sharing s first)
      fun L _ b' new sub sharing' follows watches => ?_
    have later := runs_next runs sub follows
    exact logs_weaken (body_logs watching sharing' rest later) fun _ _ watches' =>
      List.rel_append watches (watchesAll_after follows watches')

theorem items_log {K : Set Expr} {b : Binding} {path before found : List Expr} {wildcard : Bool}
    {selector t : Expr} {width : Nat} {earlier : Option Expr} {past : List CaseItem}
    (watching : c.settings.overlapRule ≠ .allow)
    (sized : selector.sized c.netlist.declared none = some (t, width)) (items : List CaseItem)
    (runs : Runs c K b path (itemExprs items) (itemTargets items))
    (missed : Guards c.netlist b wildcard t past K before)
    (guards : Guards c.netlist b wildcard t items K found) (holds : Earlier K before earlier) :
    Logs K (Executing.itemArms c path items found earlier b) fun _ new =>
      WatchesAll c.settings c.netlist b path (itemSites wildcard selector past items) new := by
  cases items with
  | nil =>
    simp only [Executing.itemArms, itemSites]
    exact logs_pure .nil
  | cons item rest =>
    obtain ⟨patterns, body⟩ := item
    cases guards with
    | @cons _ e _ found decides others =>
      simp only [Executing.itemArms, itemSites]
      refine logs_step (yields_build (itemGuard_makes decides.fit holds)) (quiet_build _) ?_
      rintro L₁ _ guard sub₁ sharing₁ ⟨fit, needs⟩
      have first := runs_item runs sub₁ fit
      refine logs_bind (body_yields sharing₁ body first) (body_logs watching sharing₁ body first)
        fun L₂ _ arm new sub₂ _ _ watches => ?_
      have sub := sub₁.trans sub₂
      refine logs_step (yields_build (orEarlier_makes (fit_mono sub decides.fit)
        (earlier_mono sub holds))) (quiet_build _) fun L₃ _ joint sub₃ _ holds' => ?_
      have larger := sub.trans sub₃
      have later := runs_rest runs larger
      have missed' : Guards c.netlist b wildcard t (past ++ [.mk patterns body]) L₃ (before ++ [e]) :=
        List.rel_append (guards_mono larger missed) (.cons (decides_mono larger decides) .nil)
      have others' := guards_mono larger others
      refine logs_bind (items_yield rest later others.length_eq (guards_fit others') holds')
        (items_log watching sized rest later missed' others' holds') ?_
      intro L₄ _ r new' _ _ _ watches'
      refine logs_pure ?_
      rw [List.append_nil]
      refine List.rel_append (watchesAll_under ?_ watches) watches'
      exact needs_takes sized missed decides needs

end

end CombLogic
