import CombLogic.Proofs.Block.Backed

/- Execution of statements of which the flow analysis approves. Each step leaves the entries of the
   leaves assigned up to there assigned, and so is each condition that it sets aside. -/
namespace CombLogic

open Expr Stmt

/-- What the analysis has found out where a piece of a block starts, under the conditions of a path. -/
structure Approved (outputs : Finset LeafId) (b : Binding) (assigned : Finset LeafId)
    (path exprs : List Expr) : Prop where
  settled : b.Settled assigned
  known : ∀ leaf ∈ b.keys, leaf ∈ outputs
  above : ∀ e ∈ path, e.Assigned
  written : ∀ e ∈ exprs, e.Assigned

/-- A binding in which some leaves are assigned, and conditions that are assigned. -/
def AllAssigned (assigned : Finset LeafId) (after : Binding) (new : List (String × Expr)) : Prop :=
  after.Settled assigned ∧ ∀ w ∈ new, w.2.Assigned

section

variable {outputs assigned : Finset LeafId} {b b' : Binding} {path exprs part : List Expr}
  {guard e : Expr} {g : Netlist} {items : List CaseItem}

theorem Approved.clear (approved : Approved outputs b assigned path exprs) (listed : e ∈ exprs)
    (backed : ReadsAssigned g outputs assigned e) : (e.subst (g.held b)).Assigned :=
  backed_clear approved.settled approved.known (approved.written e listed) backed

theorem approved_part (approved : Approved outputs b assigned path exprs) (fewer : part ⊆ exprs) :
    Approved outputs b assigned path part :=
  { approved with written := fun e listed => approved.written e (fewer listed) }

theorem approved_branch (approved : Approved outputs b assigned path exprs) (done : guard.Assigned)
    (fewer : part ⊆ exprs) : Approved outputs b assigned (guard :: path) part where
  settled := approved.settled
  known := approved.known
  above := List.forall_mem_cons.mpr ⟨done, approved.above⟩
  written e listed := approved.written e (fewer listed)

theorem approved_later {later : Finset LeafId} (approved : Approved outputs b assigned path exprs)
    (settled : b'.Settled later) (keys : b'.keys = b.keys) (fewer : part ⊆ exprs) :
    Approved outputs b' later path part where
  settled := settled
  known leaf listed := approved.known leaf (keys ▸ listed)
  above := approved.above
  written e listed := approved.written e (fewer listed)

theorem patterns_backed (backed : ItemsBacked g outputs items assigned) :
    ∀ item ∈ items, ∀ pattern ∈ item.patterns, ReadsAssigned g outputs assigned pattern := by
  induction items with
  | nil => simp
  | cons item rest ih =>
    obtain ⟨patterns, body⟩ := item
    simp only [ItemsBacked] at backed
    intro other listed
    rcases List.mem_cons.mp listed with rfl | later
    · exact backed.1
    · exact ih backed.2.2 other later

theorem bits_assigned {wildcard : Bool} {t selector : Expr} {found : List Expr} {width : Nat}
    (sized : selector.sized g.declared none = some (t, width))
    (spelled : List.Forall₂ (fun item e => Spelled g b wildcard t item.patterns e) items found)
    (selected : (selector.subst (g.held b)).Assigned)
    (each : ∀ item ∈ items, ∀ pattern ∈ item.patterns, (pattern.subst (g.held b)).Assigned) :
    ∀ e ∈ found, e.Assigned := by
  intro e listed
  obtain ⟨item, given, here⟩ := forall₂_right spelled e listed
  exact spelled_assigned here (sized_clear sized selected) (each item given)

end

variable {c : ExecContext} {outputs : Finset LeafId}

mutual

theorem statement_assigned {K : Set Expr} {next : Nat} {b : Binding} {path : List Expr}
    {assigned : Finset LeafId} (sharing : Sharing K next) (s : Stmt)
    (runs : Runs c K b path s.exprs s.targets) (approved : Approved outputs b assigned path s.exprs)
    (backed : s.Backed c.netlist outputs assigned) :
    Logs K (Executing.statement c path s b) (AllAssigned (s.assigns c.netlist assigned)) := by
  cases s with
  | assign target value =>
    simp only [Executing.statement, assigns]
    simp only [Backed] at backed
    refine logs_weaken (logs_yields (assign_binds sharing runs.good.within
      (runs.inside value (by simp [exprs])) c) (quiet_steps.assign c target value b)) ?_
    rintro _ _ ⟨rfl, L, ds, binds, rfl⟩
    have clear := approved.clear (by simp [exprs]) backed
    exact ⟨binds_settled approved.settled clear binds, by simp⟩
  | ifElse e thenBody elseBody =>
    simp only [Executing.statement, assigns]
    simp only [Backed] at backed
    refine logs_step (condition_asks sharing runs.good.within (runs.inside e (by simp [exprs])) c)
      (quiet_steps.condition c e b) ?_
    rintro L₁ _ holds sub₁ sharing₁ ⟨inside, asks⟩
    have decides := asks_decides (good_mono sub₁ runs.good) inside asks
    have done := asks_assigned asks (approved.clear (by simp [exprs]) backed.1)
    have first := runs_then runs sub₁ decides.fit
    refine logs_bind (body_yields sharing₁ thenBody first) (body_assigned sharing₁ thenBody first
      (approved_branch approved done (by simp [exprs])) backed.2.1) ?_
    rintro L₂ _ thenArm new sub₂ _ follows ⟨settled, clean⟩
    refine logs_step (yields_build (unary_fits (fit_mono sub₂ decides.fit))) (quiet_build _) ?_
    rintro L₃ _ _ sub₃ sharing₃ ⟨fit, n, rfl⟩
    have sub := (sub₁.trans sub₂).trans sub₃
    have second := runs_else runs sub fit
    refine logs_bind (body_yields sharing₃ elseBody second) (body_assigned sharing₃ elseBody second
      (approved_branch approved (assigned_unary.mpr done) (by simp [exprs])) backed.2.2) ?_
    rintro L₄ _ elseArm new' sub₄ _ follows' ⟨settled', clean'⟩
    refine logs_weaken (logs_yields (joinBranches_yields b.keys (OrderedMap.nodup_keys b)
      (fit_mono ((sub₂.trans sub₃).trans sub₄) decides.fit)
      (good_mono (sub₃.trans sub₄) follows.good) follows'.good
      (good_mono (sub.trans sub₄) runs.good) fun leaf listed => listed)
      (quiet_steps.joinBranches holds thenArm elseArm b.keys b)) ?_
    rintro after _ ⟨rfl, L₅, joins⟩
    refine ⟨joins_settled joins (fun p one => ?_) (settled_mono settled' Finset.inter_subset_right),
      by simpa only [List.append_nil, List.forall_mem_append] using ⟨clean, clean'⟩⟩
    obtain rfl := List.mem_singleton.mp one
    exact ⟨done, settled_mono settled Finset.inter_subset_left⟩
  | case kind selector items default =>
    simp only [Executing.statement, assigns]
    simp only [Backed] at backed
    refine logs_step (itemMatches_yields sharing runs.good (runs.inside selector (by simp [exprs]))
      (runs_patterns runs)) (Executing.itemMatches_quiet c kind selector items b) ?_
    rintro L₁ _ ⟨name, found⟩ sub₁ _ ⟨t, width, sized, joints, spelled, -⟩
    have guards := joints_guard joints
    have bits := bits_assigned sized spelled (approved.clear (by simp [exprs]) backed.1)
      fun item listed pattern here => approved.clear (patterns_written item listed pattern here)
        (patterns_backed backed.2.1 item listed pattern here)
    have above := fun e listed => fit_mono sub₁ (runs.above e listed)
    refine logs_bind (watchCase_yields above (guards_fit guards))
      (watchCase_assigned above (guards_fit guards) approved.above bits) ?_
    intro L₂ _ _ own sub₂ _ _ ownDone
    have sub := sub₁.trans sub₂
    have inner := runs_items runs sub
    have nothing : Earlier L₂ [] none := rfl
    have fits := fun e listed => fit_mono sub₂ (guards_fit guards e listed)
    refine logs_bind (items_yield items inner guards.length_eq fits nothing)
      (items_assigned items inner guards.length_eq fits nothing (by simp) bits
        (approved_part approved (by simp [exprs])) backed.2.1) ?_
    rintro L₃ _ ⟨arms, earlier⟩ new sub₃ _ ⟨follow, past⟩ ⟨settled, clean⟩
    refine logs_step (yields_build (defaultGuard_makes past)) (quiet_build _) ?_
    rintro L₄ _ guard sub₄ sharing₄ ⟨fit, needs⟩
    have sub' := (sub.trans sub₃).trans sub₄
    have last := runs_default runs sub' fit
    have done : guard.Assigned := needs.assigned.mpr (by simpa using bits)
    refine logs_bind (body_yields sharing₄ default last) (body_assigned sharing₄ default last
      (approved_branch approved done (by simp [exprs])) backed.2.2) ?_
    rintro L₅ _ fallback new' sub₅ _ follows ⟨settled', clean'⟩
    have larger := (sub₂.trans sub₃).trans (sub₄.trans sub₅)
    refine logs_weaken (logs_yields (joinItems_yields b.keys (OrderedMap.nodup_keys b)
      (guards_fit (guards_mono larger guards)) ?_ follows.good
      (good_mono (sub'.trans sub₅) runs.good) fun leaf listed => listed)
      (quiet_steps.joinItems found arms fallback b.keys b)) ?_
    · intro arm listed
      obtain ⟨item, -, followed⟩ := forall₂_right follow arm listed
      exact good_mono (sub₄.trans sub₅) followed.good
    · rintro after _ ⟨rfl, L₆, joins⟩
      refine ⟨joins_settled joins (fun p inside => ?_) (settled_mono settled' itemsAssign_subset.1),
        by simpa only [List.append_nil, List.forall_mem_append] using ⟨ownDone, clean, clean'⟩⟩
      obtain ⟨bit, arm⟩ := List.of_mem_zip inside
      obtain ⟨item, listed, here⟩ := forall₂_right settled p.2 arm
      exact ⟨bits p.1 bit, settled_mono here (itemsAssign_subset.2 item listed)⟩

theorem body_assigned {K : Set Expr} {next : Nat} {b : Binding} {path : List Expr}
    {assigned : Finset LeafId} (sharing : Sharing K next) (body : List Stmt)
    (runs : Runs c K b path (bodyExprs body) (bodyTargets body))
    (approved : Approved outputs b assigned path (bodyExprs body))
    (backed : BodyBacked c.netlist outputs body assigned) :
    Logs K (Executing.body c path body b) (AllAssigned (bodyAssigns c.netlist body assigned)) := by
  cases body with
  | nil =>
    simp only [Executing.body, bodyAssigns]
    exact logs_pure ⟨approved.settled, by simp⟩
  | cons s rest =>
    simp only [Executing.body, bodyAssigns]
    simp only [BodyBacked] at backed
    have first := runs_first runs
    refine logs_bind (statement_yields sharing s first) (statement_assigned sharing s first
      (approved_part approved (by simp [bodyExprs])) backed.1) ?_
    rintro L _ b' new sub sharing' follows ⟨settled, clean⟩
    have later := runs_next runs sub follows
    refine logs_weaken (body_assigned sharing' rest later
      (approved_later approved settled follows.keys (by simp [bodyExprs])) backed.2) ?_
    rintro after new' ⟨settled', clean'⟩
    exact ⟨settled', List.forall_mem_append.mpr ⟨clean, clean'⟩⟩

theorem items_assigned {K : Set Expr} {b : Binding} {path before found : List Expr}
    {assigned : Finset LeafId} {earlier : Option Expr} (items : List CaseItem)
    (runs : Runs c K b path (itemExprs items) (itemTargets items))
    (length : items.length = found.length) (fits : ∀ e ∈ found, Fit K e)
    (past : Earlier K before earlier) (passed : ∀ e ∈ before, e.Assigned)
    (bits : ∀ e ∈ found, e.Assigned)
    (approved : Approved outputs b assigned path (itemExprs items))
    (backed : ItemsBacked c.netlist outputs items assigned) :
    Logs K (Executing.itemArms c path items found earlier b) fun r new =>
      List.Forall₂ (fun item arm =>
        Binding.Settled arm (bodyAssigns c.netlist item.body assigned)) items r.1 ∧
          ∀ w ∈ new, w.2.Assigned := by
  cases items with
  | nil =>
    simp only [Executing.itemArms]
    exact logs_pure ⟨.nil, by simp⟩
  | cons item rest =>
    obtain ⟨patterns, body⟩ := item
    cases found with
    | nil => simp at length
    | cons e found =>
      simp only [Executing.itemArms]
      simp only [ItemsBacked] at backed
      have here : Fit K e := fits e (by simp)
      refine logs_step (yields_build (itemGuard_makes here past)) (quiet_build _) ?_
      rintro L₁ _ guard sub₁ sharing₁ ⟨fit, needs⟩
      have first := runs_item runs sub₁ fit
      have done : guard.Assigned := needs.assigned.mpr (by simpa using ⟨bits e (by simp), passed⟩)
      refine logs_bind (body_yields sharing₁ body first) (body_assigned sharing₁ body first
        (approved_branch approved done (by simp [itemExprs])) backed.2.1) ?_
      rintro L₂ _ arm new sub₂ _ _ ⟨settled, clean⟩
      have sub := sub₁.trans sub₂
      refine logs_step (yields_build (orEarlier_makes (fit_mono sub here) (earlier_mono sub past)))
        (quiet_build _) fun L₃ _ joint sub₃ _ past₃ => ?_
      have larger := sub.trans sub₃
      have later := runs_rest runs larger
      have others := fun f listed => fit_mono larger (fits f (List.mem_cons_of_mem e listed))
      refine logs_bind (items_yield rest later (by simpa using length) others past₃)
        (items_assigned rest later (by simpa using length) others past₃
          (by simpa [or_imp, forall_and] using ⟨passed, bits e (by simp)⟩)
          (fun f listed => bits f (List.mem_cons_of_mem e listed))
          (approved_part approved (by simp [itemExprs])) backed.2.2) ?_
      rintro L₄ _ ⟨arms, earlier'⟩ new' _ _ _ ⟨follow, clean'⟩
      refine logs_pure ⟨.cons settled follow, ?_⟩
      rw [List.append_nil]
      exact List.forall_mem_append.mpr ⟨clean, clean'⟩

end

end CombLogic
