import CombLogic.Proofs.Block.Guards
import CombLogic.Proofs.Block.Traces

/- Symbolic execution follows the run, statement by statement, and leads from binding to binding as the
   text says. -/
namespace CombLogic

open Expr

namespace Stmt

mutual

/-- The expressions of a statement, nested ones included. -/
def exprs : Stmt → List Expr
  | .assign _ value => [value]
  | .ifElse condition thenBody elseBody => condition :: (bodyExprs thenBody ++ bodyExprs elseBody)
  | .case _ selector items default => selector :: (itemExprs items ++ bodyExprs default)

def bodyExprs : List Stmt → List Expr
  | [] => []
  | s :: rest => exprs s ++ bodyExprs rest

def itemExprs : List CaseItem → List Expr
  | [] => []
  | .mk patterns body :: rest => patterns ++ (bodyExprs body ++ itemExprs rest)

end

theorem patterns_listed {items : List CaseItem} :
    ∀ item ∈ items, ∀ pattern ∈ item.patterns, pattern ∈ itemExprs items := by
  induction items with
  | nil => simp
  | cons item rest ih =>
    obtain ⟨patterns, body⟩ := item
    intro other listed pattern given
    rcases List.mem_cons.mp listed with rfl | later
    · exact List.mem_append_left _ given
    · exact List.mem_append_right _ (List.mem_append_right _ (ih other later pattern given))

theorem patterns_written {kind : CaseKind} {selector : Expr} {items : List CaseItem}
    {default : List Stmt} :
    ∀ item ∈ items, ∀ pattern ∈ item.patterns, pattern ∈ (case kind selector items default).exprs :=
  fun item listed pattern here => by simp [exprs, patterns_listed item listed pattern here]

end Stmt

open Stmt

variable {K L : Set Expr} {next : Nat} {c : ExecContext} {b : Binding} {path : List Expr}

/-- What execution takes for granted: expressions among the nodes, and an entry for every leaf that
    is assigned. -/
structure Runs (c : ExecContext) (K : Set Expr) (b : Binding) (path exprs : List Expr)
    (targets : List Ref) : Prop where
  good : b.Good K
  above : ∀ e ∈ path, Fit K e
  inside : ∀ e ∈ exprs, e ∈ K
  covered : ∀ target ∈ targets, Covers c.netlist b.keys target

/-- The same for a part, under more conditions, and from another binding with the same leaves. -/
theorem runs_part {exprs part : List Expr} {targets within : List Ref} {b' : Binding}
    {path' : List Expr} (runs : Runs c K b path exprs targets) (sub : K ⊆ L) (good : b'.Good L)
    (keys : b'.keys = b.keys) (above : ∀ e ∈ path', Fit L e) (fewer : part ⊆ exprs)
    (targeted : within ⊆ targets) : Runs c L b' path' part within where
  good := good
  above := above
  inside e listed := sub (runs.inside e (fewer listed))
  covered target listed := keys ▸ runs.covered target (targeted listed)

/-- The same for a branch, which is reached under one more condition. -/
theorem runs_branch {exprs part : List Expr} {targets within : List Ref} {guard : Expr}
    (runs : Runs c K b path exprs targets) (sub : K ⊆ L) (fit : Fit L guard) (fewer : part ⊆ exprs)
    (targeted : within ⊆ targets) : Runs c L b (guard :: path) part within := by
  refine runs_part runs sub (good_mono sub runs.good) rfl (fun e listed => ?_) fewer targeted
  rcases List.mem_cons.mp listed with rfl | above
  · exact fit
  · exact fit_mono sub (runs.above e above)

/-- The same for what comes later. -/
theorem runs_later {exprs part : List Expr} {targets within : List Ref} {b' : Binding}
    (runs : Runs c K b path exprs targets) (sub : K ⊆ L) (good : b'.Good L) (keys : b'.keys = b.keys)
    (fewer : part ⊆ exprs) (targeted : within ⊆ targets) : Runs c L b' path part within :=
  runs_part runs sub good keys (fun e listed => fit_mono sub (runs.above e listed)) fewer targeted

section

/- The parts of a statement, of a case and of a body, where execution reaches them. -/

variable {condition selector guard : Expr} {kind : CaseKind} {s : Stmt}
  {thenBody elseBody default body : List Stmt} {items : List CaseItem} {patterns : List Expr}

theorem runs_then (runs : Runs c K b path (ifElse condition thenBody elseBody).exprs
      (ifElse condition thenBody elseBody).targets) (sub : K ⊆ L) (fit : Fit L guard) :
    Runs c L b (guard :: path) (bodyExprs thenBody) (bodyTargets thenBody) :=
  runs_branch runs sub fit (by simp [exprs]) (by simp [targets])

theorem runs_else (runs : Runs c K b path (ifElse condition thenBody elseBody).exprs
      (ifElse condition thenBody elseBody).targets) (sub : K ⊆ L) (fit : Fit L guard) :
    Runs c L b (guard :: path) (bodyExprs elseBody) (bodyTargets elseBody) :=
  runs_branch runs sub fit (by simp [exprs]) (by simp [targets])

theorem runs_patterns (runs : Runs c K b path (case kind selector items default).exprs
      (case kind selector items default).targets) :
    ∀ item ∈ items, ∀ pattern ∈ item.patterns, pattern ∈ K :=
  fun item listed pattern here => runs.inside pattern (patterns_written item listed pattern here)

theorem runs_items (runs : Runs c K b path (case kind selector items default).exprs
      (case kind selector items default).targets) (sub : K ⊆ L) :
    Runs c L b path (itemExprs items) (itemTargets items) :=
  runs_later runs sub (good_mono sub runs.good) rfl (by simp [exprs]) (by simp [targets])

theorem runs_default (runs : Runs c K b path (case kind selector items default).exprs
      (case kind selector items default).targets) (sub : K ⊆ L) (fit : Fit L guard) :
    Runs c L b (guard :: path) (bodyExprs default) (bodyTargets default) :=
  runs_branch runs sub fit (by simp [exprs]) (by simp [targets])

theorem runs_item (runs : Runs c K b path (itemExprs (.mk patterns body :: items))
      (itemTargets (.mk patterns body :: items))) (sub : K ⊆ L) (fit : Fit L guard) :
    Runs c L b (guard :: path) (bodyExprs body) (bodyTargets body) :=
  runs_branch runs sub fit (by simp [itemExprs]) (by simp [itemTargets])

theorem runs_rest (runs : Runs c K b path (itemExprs (.mk patterns body :: items))
      (itemTargets (.mk patterns body :: items))) (sub : K ⊆ L) :
    Runs c L b path (itemExprs items) (itemTargets items) :=
  runs_later runs sub (good_mono sub runs.good) rfl (by simp [itemExprs]) (by simp [itemTargets])

theorem runs_first (runs : Runs c K b path (bodyExprs (s :: body)) (bodyTargets (s :: body))) :
    Runs c K b path s.exprs s.targets :=
  runs_later runs subset_rfl runs.good rfl (by simp [bodyExprs]) (by simp [bodyTargets])

theorem runs_next {run : Scene → Store → Option Store} {b' : Binding}
    (runs : Runs c K b path (bodyExprs (s :: body)) (bodyTargets (s :: body))) (sub : K ⊆ L)
    (follows : Follows c.netlist b run L b') :
    Runs c L b' path (bodyExprs body) (bodyTargets body) :=
  runs_later runs sub follows.good follows.keys (by simp [bodyExprs]) (by simp [bodyTargets])

end

theorem follows_mono {g : Netlist} {run : Scene → Store → Option Store} {b' : Binding} (sub : K ⊆ L)
    (follows : Follows g b run K b') : Follows g b run L b' :=
  ⟨good_mono sub follows.good, follows.keys, follows.holds⟩

/-- Bindings that follow the bodies of items. -/
def ArmsFollow (g : Netlist) (b : Binding) (items : List CaseItem) (L : Set Expr)
    (arms : List Binding) : Prop :=
  List.Forall₂ (fun item arm => Follows g b (fun scene => scene.runAll item.body) L arm) items arms

/-- The arm that a run takes is the one that the conditions select. -/
theorem items_select {g : Netlist} {wildcard : Bool} {t : Expr} {items : List CaseItem}
    {found : List Expr} {arms : List Binding} {fallback : Binding} {default : List Stmt}
    {env : Env} {σ σ' : Store} (guards : Guards g b wildcard t items K found)
    (follow : ArmsFollow g b items K arms)
    (last : Follows g b (fun scene => scene.runAll default) K fallback) (holds : Holds env b σ)
    (done : (sceneOf g env b).runItems wildcard t items
      (fun σ => (sceneOf g env b).runAll default σ) σ = some σ') :
    Selects env (fun arm => Holds env arm σ' ∧ arm.keys = b.keys) fallback (found.zip arms) := by
  induction guards generalizing arms with
  | nil =>
    simp only [Scene.runItems] at done
    exact ⟨last.holds env σ σ' holds done, last.keys⟩
  | @cons item e _ _ decides _ ih =>
    obtain ⟨patterns, body⟩ := item
    cases follow with
    | cons first later =>
      simp only [Scene.runItems] at done
      obtain ⟨bit, asked, done⟩ := Option.bind_eq_some_iff.mp done
      have leads := decides.leads env σ bit holds asked
      cases bit with
      | true => exact .inl ⟨leads, first.holds env σ σ' holds done, first.keys⟩
      | false => exact .inr ⟨leads, ih later done⟩

/-- A joined binding follows the choice. -/
theorem joins_follow {g : Netlist} {run : Scene → Store → Option Store}
    {arms : List (Expr × Binding)} {fallback after : Binding}
    (joins : Joins arms fallback b.keys b L after)
    (selects : ∀ env σ σ', Holds env b σ → run (sceneOf g env b) σ = some σ' →
      Selects env (fun arm => Holds env arm σ' ∧ arm.keys = b.keys) fallback arms) :
    Follows g b run L after :=
  ⟨joins.good, joins.keys, fun env σ σ' holds done =>
    joins_holds joins (selects env σ σ' holds done)⟩

mutual

theorem statement_executes {K : Set Expr} {next : Nat} {b : Binding} {path : List Expr}
    (sharing : Sharing K next) (s : Stmt) (runs : Runs c K b path s.exprs s.targets) :
    Yields K (Executing.statement c path s b) fun L after =>
      Follows c.netlist b (fun scene => scene.run s) L after ∧ s.Traces c.netlist b after := by
  cases s with
  | assign target value =>
    simp only [Executing.statement, Scene.run]
    refine yields_weaken (assign_binds sharing runs.good.within
      (runs.inside value (by simp [exprs])) c) ?_
    rintro L _ sub ⟨ds, binds, rfl⟩
    obtain ⟨ps, shares, answers⟩ := binds_shares binds
    exact ⟨binds_follow (good_mono sub runs.good) (runs.covered target (by simp [targets])) binds,
      .assign shares answers⟩
  | ifElse e thenBody elseBody =>
    simp only [Executing.statement]
    refine yields_bind (condition_asks sharing runs.good.within
      (runs.inside e (by simp [exprs])) c) ?_
    rintro L₁ _ holds sub₁ sharing₁ ⟨inside, asks⟩
    have decides := asks_decides (good_mono sub₁ runs.good) inside asks
    have first := runs_then runs sub₁ decides.fit
    refine yields_bind (body_executes sharing₁ thenBody first) ?_
    rintro L₂ _ thenArm sub₂ _ ⟨follows, traces⟩
    refine yields_bind (yields_build (unary_fits (fit_mono sub₂ decides.fit))) ?_
    rintro L₃ _ fails sub₃ sharing₃ ⟨fit, -⟩
    have sub := (sub₁.trans sub₂).trans sub₃
    have second := runs_else runs sub fit
    refine yields_bind (body_executes sharing₃ elseBody second) ?_
    rintro L₄ _ elseArm sub₄ _ ⟨follows', traces'⟩
    refine yields_weaken (joinBranches_yields b.keys (OrderedMap.nodup_keys b)
      (fit_mono ((sub₂.trans sub₃).trans sub₄) decides.fit)
      (good_mono (sub₃.trans sub₄) follows.good) follows'.good
      (good_mono (sub.trans sub₄) runs.good) fun leaf listed => listed) ?_
    intro L₅ after _ joins
    refine ⟨joins_follow joins fun env σ σ' agrees done => ?_, .ifElse asks traces traces'
      (joins_gathered joins (by simpa using follows.keys) follows'.keys)⟩
    simp only [Scene.run] at done
    obtain ⟨bit, asked, done⟩ := Option.bind_eq_some_iff.mp done
    have leads := decides.leads env σ bit agrees asked
    cases bit with
    | true => exact .inl ⟨leads, follows.holds env σ σ' agrees done, follows.keys⟩
    | false => exact .inr ⟨leads, follows'.holds env σ σ' agrees done, follows'.keys⟩
  | case kind selector items default =>
    simp only [Executing.statement]
    refine yields_bind (itemMatches_yields sharing runs.good (runs.inside selector (by simp [exprs]))
      (runs_patterns runs)) ?_
    rintro L₁ _ ⟨name, found⟩ sub₁ _ ⟨t, width, sized, joints, spelled, -⟩
    have fits := guards_fit (joints_guard joints)
    refine yields_bind (watchCase_yields (fun e listed => fit_mono sub₁ (runs.above e listed)) fits) ?_
    intro L₂ _ _ sub₂ _ _
    have sub := sub₁.trans sub₂
    have inner := runs_items runs sub
    have nothing : Earlier L₂ [] none := rfl
    refine yields_bind (items_execute items inner joints.length_eq
      (fun e listed => fit_mono sub₂ (fits e listed)) nothing) ?_
    rintro L₃ _ ⟨arms, earlier⟩ sub₃ _ ⟨⟨follow, before⟩, each⟩
    refine yields_bind (yields_build (defaultGuard_makes before)) ?_
    rintro L₄ _ guard sub₄ sharing₄ ⟨fit, -⟩
    have sub' := (sub.trans sub₃).trans sub₄
    have last := runs_default runs sub' fit
    refine yields_bind (body_executes sharing₄ default last) ?_
    rintro L₅ _ fallback sub₅ _ ⟨follows, traces⟩
    have guards := joints_guard (joints_mono (((sub₂.trans sub₃).trans sub₄).trans sub₅) joints)
    have follow' : ArmsFollow c.netlist b items L₅ arms :=
      follow.imp fun _ _ => follows_mono (sub₄.trans sub₅)
    refine yields_weaken (joinItems_yields b.keys (OrderedMap.nodup_keys b)
      (guards_fit guards) ?_ follows.good
      (good_mono (sub'.trans sub₅) runs.good) fun leaf listed => listed) ?_
    · intro arm listed
      obtain ⟨item, -, followed⟩ := forall₂_right follow' arm listed
      exact followed.good
    · intro L₆ after _ joins
      refine ⟨joins_follow joins fun env σ σ' agrees done => ?_, .case sized spelled each traces
        (joins_gathered joins (fun p listed => ?_) follows.keys)⟩
      · simp only [Scene.run, sceneOf, sized, Option.bind_eq_bind, Option.bind_some] at done
        exact items_select guards follow' follows agrees done
      · obtain ⟨item, -, followed⟩ := forall₂_right follow p.2 (List.of_mem_zip listed).2
        exact followed.keys

theorem body_executes {K : Set Expr} {next : Nat} {b : Binding} {path : List Expr}
    (sharing : Sharing K next) (body : List Stmt)
    (runs : Runs c K b path (bodyExprs body) (bodyTargets body)) :
    Yields K (Executing.body c path body b) fun L after =>
      Follows c.netlist b (fun scene => scene.runAll body) L after ∧
        BodyTraces c.netlist body b after := by
  cases body with
  | nil =>
    simp only [Executing.body, Scene.runAll]
    exact yields_pure fun L sub => ⟨follows_refl (good_mono sub runs.good), .nil⟩
  | cons s rest =>
    simp only [Executing.body, Scene.runAll]
    refine yields_bind (statement_executes sharing s (runs_first runs)) ?_
    rintro L _ b' sub sharing' ⟨follows, traces⟩
    refine yields_weaken (body_executes sharing' rest (runs_next runs sub follows)) ?_
    exact fun L' after _ ⟨follows', later⟩ => ⟨follows_trans follows follows', .cons traces later⟩

theorem items_execute {K : Set Expr} {b : Binding} {path before found : List Expr}
    {earlier : Option Expr} (items : List CaseItem)
    (runs : Runs c K b path (itemExprs items) (itemTargets items))
    (length : items.length = found.length) (fits : ∀ e ∈ found, Fit K e)
    (past : Earlier K before earlier) :
    Yields K (Executing.itemArms c path items found earlier b) fun L r =>
      (ArmsFollow c.netlist b items L r.1 ∧ Earlier L (before ++ found) r.2) ∧
        ItemsTrace c.netlist items b r.1 := by
  cases items with
  | nil =>
    obtain rfl : found = [] := by simpa [eq_comm] using length
    simp only [Executing.itemArms]
    exact yields_pure fun L sub => ⟨⟨.nil, by simpa using earlier_mono sub past⟩, .nil⟩
  | cons item rest =>
    obtain ⟨patterns, body⟩ := item
    cases found with
    | nil => simp at length
    | cons e found =>
      simp only [Executing.itemArms]
      have here : Fit K e := fits e (by simp)
      refine yields_bind (yields_build (itemGuard_makes here past)) ?_
      rintro L₁ _ guard sub₁ sharing₁ ⟨fit, -⟩
      refine yields_bind (body_executes sharing₁ body (runs_item runs sub₁ fit)) ?_
      rintro L₂ _ arm sub₂ _ ⟨follows, traces⟩
      have sub := sub₁.trans sub₂
      refine yields_bind
        (yields_build (orEarlier_makes (fit_mono sub here) (earlier_mono sub past))) ?_
      intro L₃ _ joint sub₃ _ past₃
      have larger := sub.trans sub₃
      refine yields_bind (items_execute rest (runs_rest runs larger) (by simpa using length)
        (fun e listed => fit_mono larger (fits e (by simp [listed]))) past₃) ?_
      rintro L₄ _ ⟨arms, earlier'⟩ sub₄ _ ⟨⟨follow, past'⟩, others⟩
      refine yields_pure fun L₅ sub₅ => ⟨⟨.cons ?_ (follow.imp fun _ _ => follows_mono sub₅), ?_⟩,
        .cons traces others⟩
      · exact follows_mono ((sub₃.trans sub₄).trans sub₅) follows
      · simpa using earlier_mono sub₅ past'

end

theorem statement_yields (sharing : Sharing K next) (s : Stmt)
    (runs : Runs c K b path s.exprs s.targets) :
    Yields K (Executing.statement c path s b) (Follows c.netlist b fun scene => scene.run s) :=
  yields_weaken (statement_executes sharing s runs) fun _ _ _ => And.left

theorem body_yields (sharing : Sharing K next) (body : List Stmt)
    (runs : Runs c K b path (bodyExprs body) (bodyTargets body)) :
    Yields K (Executing.body c path body b) (Follows c.netlist b fun scene => scene.runAll body) :=
  yields_weaken (body_executes sharing body runs) fun _ _ _ => And.left

theorem items_yield {before found : List Expr} {earlier : Option Expr} (items : List CaseItem)
    (runs : Runs c K b path (itemExprs items) (itemTargets items))
    (length : items.length = found.length) (fits : ∀ e ∈ found, Fit K e)
    (past : Earlier K before earlier) :
    Yields K (Executing.itemArms c path items found earlier b) fun L r =>
      ArmsFollow c.netlist b items L r.1 ∧ Earlier L (before ++ found) r.2 :=
  yields_weaken (items_execute items runs length fits past) fun _ _ _ => And.left

end CombLogic
