import CombLogic.Proofs.Block.Merges
import CombLogic.Proofs.Block.Spans

/- The record of joins, statement by statement: it lists every choice of the text, a leaf that a statement
   does not assign keeps its entry, every join is exact, and the widths of the entries hold throughout. -/
namespace CombLogic

open Expr Stmt

/-- A leaf belongs to none of some targets. -/
def Elsewhere (g : Netlist) (targets : List Ref) (leaf : LeafId) : Prop :=
  ∀ target ∈ targets, ∀ leaves, g.leavesOf target = .ok leaves → leaf ∉ leaves

/-- A join of a choice whose arms start from one binding. -/
structure Merge.Right (g : Netlist) (b : Binding) (m : Merge) : Prop where
  keys : m.before.keys = b.keys
  count : m.arms.length = m.statement.armCount
  exact : JoinsExactly m.arms m.fallback m.before.keys m.before m.after
  elsewhere : ∀ leaf, Elsewhere g m.statement.targets leaf → m.after.get? leaf = m.before.get? leaf

/-- All entries of a join span the widths of their leaves, and all conditions one bit. -/
structure Merge.Spans (g : Netlist) (env : Env) (m : Merge) : Prop where
  arms : ∀ p ∈ m.arms, p.1.Spans env 1 ∧ p.2.Spans g env
  fallback : m.fallback.Spans g env
  after : m.after.Spans g env

/-- What a piece of text leaves of a binding, and its joins. The pieces side by side in a choice leave a
    binding each. -/
structure Recorded (g : Netlist) (exprs : List Expr) (targets : List Ref) (choices : List Stmt)
    (b : Binding) (afters : List Binding) (merges : List Merge) : Prop where
  elsewhere : ∀ leaf, Elsewhere g targets leaf → ∀ after ∈ afters, after.get? leaf = b.get? leaf
  listed : merges.map Merge.statement = choices
  right : ∀ m ∈ merges, m.Right g b
  spans : ∀ env : Env, env.Suits g → g.Bits exprs targets → b.Spans g env →
    (∀ after ∈ afters, after.Spans g env) ∧ ∀ m ∈ merges, m.Spans g env

section

variable {g : Netlist} {exprs exprs' : List Expr} {targets targets' : List Ref}
  {choices choices' : List Stmt} {b b' after : Binding} {afters afters' : List Binding}
  {merges merges' : List Merge} {leaf : LeafId}

theorem elsewhere_append : Elsewhere g (targets ++ targets') leaf ↔
    Elsewhere g targets leaf ∧ Elsewhere g targets' leaf := by
  simp [Elsewhere, or_imp, forall_and]

theorem recorded_mono (fewer : exprs ⊆ exprs') (recorded : Recorded g exprs targets choices b afters merges) :
    Recorded g exprs' targets choices b afters merges where
  elsewhere := recorded.elsewhere
  listed := recorded.listed
  right := recorded.right
  spans env suits bits := recorded.spans env suits (bits_mono fewer (List.Subset.refl _) bits)

/-- Pieces that start from one binding. -/
theorem recorded_beside (first : Recorded g exprs targets choices b afters merges)
    (second : Recorded g exprs' targets' choices' b afters' merges') :
    Recorded g (exprs ++ exprs') (targets ++ targets') (choices ++ choices') b (afters ++ afters')
      (merges ++ merges') where
  elsewhere leaf apart := by
    obtain ⟨one, other⟩ := elsewhere_append.mp apart
    exact List.forall_mem_append.mpr ⟨first.elsewhere leaf one, second.elsewhere leaf other⟩
  listed := by rw [List.map_append, first.listed, second.listed]
  right := List.forall_mem_append.mpr ⟨first.right, second.right⟩
  spans env suits bits start := by
    obtain ⟨one, joins⟩ := first.spans env suits (bits_mono (by simp) (by simp) bits) start
    obtain ⟨other, joins'⟩ := second.spans env suits (bits_mono (by simp) (by simp) bits) start
    exact ⟨List.forall_mem_append.mpr ⟨one, other⟩, List.forall_mem_append.mpr ⟨joins, joins'⟩⟩

/-- One piece after the other. -/
theorem recorded_then (keys : b'.keys = b.keys) (first : Recorded g exprs targets choices b [b'] merges)
    (second : Recorded g exprs' targets' choices' b' [after] merges') :
    Recorded g (exprs ++ exprs') (targets ++ targets') (choices ++ choices') b [after]
      (merges ++ merges') where
  elsewhere leaf apart := by
    obtain ⟨one, other⟩ := elsewhere_append.mp apart
    simpa using (second.elsewhere leaf other after (by simp)).trans (first.elsewhere leaf one b' (by simp))
  listed := by rw [List.map_append, first.listed, second.listed]
  right := List.forall_mem_append.mpr ⟨first.right, fun m member =>
    { second.right m member with keys := (second.right m member).keys.trans keys }⟩
  spans env suits bits start := by
    obtain ⟨one, joins⟩ := first.spans env suits (bits_mono (by simp) (by simp) bits) start
    obtain ⟨other, joins'⟩ :=
      second.spans env suits (bits_mono (by simp) (by simp) bits) (one b' (by simp))
    exact ⟨other, List.forall_mem_append.mpr ⟨joins, joins'⟩⟩

/-- A leaf that has the same entry in all arms keeps it. -/
theorem JoinsExactly.elsewhere {arms : List (Expr × Binding)} {fallback : Binding}
    (joins : JoinsExactly arms fallback b.keys b after) (each : ∀ p ∈ arms, p.2.get? leaf = b.get? leaf)
    (last : fallback.get? leaf = b.get? leaf) : after.get? leaf = b.get? leaf := by
  by_cases bound : leaf ∈ b.keys
  · have all : (entries arms leaf).all (·.2.same (fallback.entry leaf)) = true := by
      simp only [entries, List.all_map, List.all_eq_true, Function.comp_apply, same_iff]
      exact fun p listed => by rw [entry_congr (each p listed), entry_congr last]
    have same := ((joins.each leaf bound).stays all).trans (entry_congr last)
    obtain ⟨e, found⟩ := OrderedMap.get?_of_mem_keys bound
    obtain ⟨e', found'⟩ := OrderedMap.get?_of_mem_keys (joins.keys ▸ bound : leaf ∈ after.keys)
    rw [entry_of_get found, entry_of_get found'] at same
    rw [found, found', same]
  · rw [(OrderedMap.get?_eq_none after leaf).mpr (joins.keys ▸ bound),
      (OrderedMap.get?_eq_none b leaf).mpr bound]

/-- A choice over recorded arms. -/
theorem recorded_choice {s : Stmt} {asked : Expr} {arms : List (Expr × Binding)} {fallback : Binding}
    (inner : Recorded g exprs s.targets choices b afters merges)
    (count : arms.length = s.armCount) (each : ∀ p ∈ arms, p.2 ∈ afters) (last : fallback ∈ afters)
    (joins : JoinsExactly arms fallback b.keys b after)
    (conditions : ∀ env : Env, env.Suits g → g.Bits (asked :: exprs) s.targets → b.Spans g env →
      ∀ p ∈ arms, p.1.Spans env 1) :
    Recorded g (asked :: exprs) s.targets (s :: choices) b [after]
      (⟨s, b, arms, fallback, after⟩ :: merges) := by
  have elsewhere : ∀ leaf, Elsewhere g s.targets leaf → after.get? leaf = b.get? leaf :=
    fun leaf apart => joins.elsewhere (fun p listed => inner.elsewhere leaf apart p.2 (each p listed))
      (inner.elsewhere leaf apart fallback last)
  refine ⟨by simpa using elsewhere, by rw [List.map_cons, inner.listed], ?_, ?_⟩
  · exact List.forall_mem_cons.mpr ⟨⟨rfl, count, joins, elsewhere⟩, inner.right⟩
  · intro env suits bits start
    obtain ⟨spans, below⟩ :=
      inner.spans env suits (bits_mono (by simp) (List.Subset.refl _) bits) start
    have chosen : ∀ p ∈ arms, p.1.Spans env 1 ∧ p.2.Spans g env := fun p listed =>
      ⟨conditions env suits bits start p listed, spans p.2 (each p listed)⟩
    have whole := joins.spans suits start chosen (spans fallback last)
    exact ⟨by simpa using whole, List.forall_mem_cons.mpr ⟨⟨chosen, spans fallback last, whole⟩, below⟩⟩

theorem shares_names {target : Ref} {e : Expr} {ps ds : List (LeafId × Expr)}
    (shares : g.shares target e = some ps) (answers : g.Answers b ps ds) {leaves : List LeafId}
    (found : g.leavesOf target = .ok leaves) : ds.map Prod.fst ⊆ leaves := by
  intro leaf listed
  obtain ⟨d, given, rfl⟩ := List.mem_map.mp listed
  obtain ⟨share, member, same, -⟩ := forall₂_right answers d given
  rw [same]
  cases target with
  | leaf id =>
    obtain ⟨t, width, -, -, rfl⟩ := shares_leaf.mp shares
    obtain rfl := Except.ok.inj (Netlist.leavesOf_leaf.symm.trans found)
    simp_all
  | bundle id =>
    obtain ⟨t, parts, widths, -, -, rfl⟩ := shares_bundle.mp shares
    obtain rfl := Except.ok.inj ((Netlist.leafWidths_ok widths).1.symm.trans found)
    obtain ⟨part, inside, low, rfl⟩ := Netlist.mem_plainSlices member
    exact List.mem_map_of_mem inside

theorem recorded_assign {target : Ref} {e : Expr} {ps ds : List (LeafId × Expr)}
    (shares : g.shares target e = some ps) (answers : g.Answers b ps ds) :
    Recorded g [e] [target] [] b [Executing.bindAll b ds] [] where
  elsewhere leaf apart := by
    have exists_ : ∃ leaves, g.leavesOf target = .ok leaves := by
      cases target with
      | leaf id => exact ⟨_, Netlist.leavesOf_leaf⟩
      | bundle id =>
        obtain ⟨t, parts, widths, -⟩ := shares_bundle.mp shares
        exact ⟨_, (Netlist.leafWidths_ok widths).1⟩
    obtain ⟨leaves, found⟩ := exists_
    have unlisted : leaf ∉ ds.map Prod.fst := fun listed =>
      apart target (by simp) leaves found (shares_names shares answers found listed)
    simpa using bindAll_unlisted unlisted
  listed := rfl
  right := by simp
  spans env suits bits start := by
    have each := shares_spans suits start (bits.targets target (by simp)) (bits.exprs e (by simp)) shares
      answers
    simpa using bindAll_spans start each

end

theorem yields_fst {α β : Type} {K : Set Expr} {m : Executing (α × β)} {m' : Executing α}
    {post : Set Expr → α → Prop} (same : Prod.fst <$> m = m') (run : Yields K m' post) :
    Yields K m fun L r => post L r.1 := by
  intro L sub s r s' ready done
  refine run L sub s r.1 s' ready ?_
  rw [← same, map_eq_pure_bind, step_ok done]
  rfl

section

variable {c : ExecContext}

mutual

theorem statement_recorded {K : Set Expr} {next : Nat} {b : Binding} {path : List Expr}
    (sharing : Sharing K next) (s : Stmt) (runs : Runs c K b path s.exprs s.targets) :
    Yields K (Executing.statementMerges c path s b) fun _ r =>
      Recorded c.netlist s.exprs s.targets s.choices b [r.1] r.2 := by
  cases s with
  | assign target value =>
    simp only [Executing.statementMerges]
    refine yields_bind (assign_binds sharing runs.good.within
      (runs.inside value (by simp [exprs])) c) ?_
    rintro L _ _ _ _ ⟨ds, binds, rfl⟩
    obtain ⟨ps, shares, answers⟩ := binds_shares binds
    exact yields_pure fun _ _ => recorded_assign shares answers
  | ifElse e thenBody elseBody =>
    simp only [Executing.statementMerges]
    refine yields_bind (condition_asks sharing runs.good.within
      (runs.inside e (by simp [exprs])) c) ?_
    rintro L₁ _ holds sub₁ sharing₁ ⟨inside, asks⟩
    have decides := asks_decides (good_mono sub₁ runs.good) inside asks
    obtain ⟨t, sized, form⟩ := asks
    have first := runs_then runs sub₁ decides.fit
    refine yields_bind (yields_both (yields_fst (Executing.bodyMerges_fst c _ thenBody b)
      (body_yields sharing₁ thenBody first)) (body_recorded sharing₁ thenBody first)) ?_
    rintro L₂ _ thenArm sub₂ _ ⟨follows, recorded⟩
    refine yields_bind (yields_build (unary_fits (fit_mono sub₂ decides.fit))) ?_
    rintro L₃ _ fails sub₃ sharing₃ ⟨fit, -⟩
    have sub := (sub₁.trans sub₂).trans sub₃
    have second := runs_else runs sub fit
    refine yields_bind (yields_both (yields_fst (Executing.bodyMerges_fst c _ elseBody b)
      (body_yields sharing₃ elseBody second)) (body_recorded sharing₃ elseBody second)) ?_
    rintro L₄ _ elseArm sub₄ sharing₄ ⟨follows', recorded'⟩
    refine yields_bind (joinBranches_exactly b.keys (OrderedMap.nodup_keys b) sharing₄
      (sub₄ (sub₃ (sub₂ decides.inside))) (within_mono (sub₃.trans sub₄) follows.good.within)
      follows'.good.within fun leaf listed => ⟨listed, follows.keys ▸ listed, follows'.keys ▸ listed⟩) ?_
    rintro L₅ _ after _ _ joins
    refine yields_pure fun _ _ => ?_
    refine recorded_choice (recorded_beside recorded recorded') rfl (by simp) (by simp) joins ?_
    intro env suits bits start
    simpa using text_spans suits start sized (by simp) (bits.exprs e (by simp)) form
  | case kind selector items default =>
    simp only [Executing.statementMerges]
    have member := runs.inside selector (by simp [exprs])
    have given := runs_patterns runs
    refine yields_bind (itemMatches_yields sharing runs.good member given) ?_
    rintro L₁ _ ⟨name, found⟩ sub₁ _ ⟨t, width, sized, joints, spelled, -⟩
    have fits := guards_fit (joints_guard joints)
    refine yields_bind (watchCase_yields (fun e listed => fit_mono sub₁ (runs.above e listed)) fits) ?_
    intro L₂ _ _ sub₂ _ _
    have sub := sub₁.trans sub₂
    have inner := runs_items runs sub
    have nothing : Earlier L₂ [] none := rfl
    have fits' := fun e listed => fit_mono sub₂ (fits e listed)
    refine yields_bind (yields_both (yields_fst (Executing.itemMerges_fst c path items found none b)
      (items_yield items inner joints.length_eq fits' nothing))
      (items_recorded items inner joints.length_eq fits' nothing)) ?_
    rintro L₃ _ arms sub₃ _ ⟨⟨follow, before⟩, recorded⟩
    refine yields_bind (yields_build (defaultGuard_makes before)) ?_
    rintro L₄ _ guard sub₄ sharing₄ ⟨fit, -⟩
    have sub' := (sub.trans sub₃).trans sub₄
    have last := runs_default runs sub' fit
    refine yields_bind (yields_both (yields_fst (Executing.bodyMerges_fst c _ default b)
      (body_yields sharing₄ default last)) (body_recorded sharing₄ default last)) ?_
    rintro L₅ _ fallback sub₅ sharing₅ ⟨follows, recorded'⟩
    have arm : ∀ a ∈ arms.1.1, a.Within L₅ ∧ a.keys = b.keys := by
      intro a listed
      obtain ⟨item, -, followed⟩ := forall₂_right follow a listed
      exact ⟨within_mono (sub₄.trans sub₅) followed.good.within, followed.keys⟩
    refine yields_bind (joinItems_exactly b.keys (OrderedMap.nodup_keys b) sharing₅
      (fun e listed => sub₅ (sub₄ (sub₃ (sub₂ (fits e listed).1)))) (fun a listed => (arm a listed).1)
      follows.good.within (within_mono (sub'.trans sub₅) runs.good.within)
      fun leaf listed => ⟨listed, follows.keys ▸ listed, fun a given => (arm a given).2 ▸ listed⟩) ?_
    rintro L₆ _ after _ _ joins
    refine yields_pure fun _ _ => ?_
    have count : (found.zip arms.1.1).length = items.length := by
      rw [List.length_zip, ← joints.length_eq, ← follow.length_eq, Nat.min_self]
    refine recorded_choice (recorded_beside recorded recorded') count
      (fun p listed => List.mem_append_left _ (List.of_mem_zip listed).2) (by simp) joins ?_
    intro env suits bits start p listed
    obtain ⟨item, given, spells⟩ := forall₂_right spelled p.1 (List.of_mem_zip listed).1
    refine spelled_spans suits start sized (bits.exprs selector (by simp)) (fun pattern here => ?_) spells
    exact bits.exprs pattern (by simp [patterns_listed item given pattern here])

theorem body_recorded {K : Set Expr} {next : Nat} {b : Binding} {path : List Expr}
    (sharing : Sharing K next) (body : List Stmt)
    (runs : Runs c K b path (bodyExprs body) (bodyTargets body)) :
    Yields K (Executing.bodyMerges c path body b) fun _ r =>
      Recorded c.netlist (bodyExprs body) (bodyTargets body) (bodyChoices body) b [r.1] r.2 := by
  cases body with
  | nil =>
    simp only [Executing.bodyMerges]
    exact yields_pure fun _ _ => ⟨by simp, rfl, by simp, fun env _ _ start => by simpa using start⟩
  | cons s rest =>
    simp only [Executing.bodyMerges]
    have first := runs_first runs
    refine yields_bind (yields_both (yields_fst (Executing.statementMerges_fst c path s b)
      (statement_yields sharing s first)) (statement_recorded sharing s first)) ?_
    rintro L _ r sub sharing' ⟨follows, recorded⟩
    have later := runs_next runs sub follows
    refine yields_bind (body_recorded sharing' rest later) fun L' _ r' _ _ recorded' => ?_
    exact yields_pure fun _ _ => recorded_then follows.keys recorded recorded'

theorem items_recorded {K : Set Expr} {b : Binding} {path before found : List Expr}
    {earlier : Option Expr} (items : List CaseItem)
    (runs : Runs c K b path (itemExprs items) (itemTargets items))
    (length : items.length = found.length) (fits : ∀ e ∈ found, Fit K e)
    (past : Earlier K before earlier) :
    Yields K (Executing.itemMerges c path items found earlier b) fun _ r =>
      Recorded c.netlist (itemExprs items) (itemTargets items) (itemChoices items) b r.1.1 r.2 := by
  cases items with
  | nil =>
    obtain rfl : found = [] := by simpa [eq_comm] using length
    simp only [Executing.itemMerges]
    exact yields_pure fun _ _ => ⟨by simp, rfl, by simp, by simp⟩
  | cons item rest =>
    obtain ⟨patterns, body⟩ := item
    cases found with
    | nil => simp at length
    | cons e found =>
      simp only [Executing.itemMerges]
      have here : Fit K e := fits e (by simp)
      refine yields_bind (yields_build (itemGuard_makes here past)) ?_
      rintro L₁ _ guard sub₁ sharing₁ ⟨fit, -⟩
      have first := runs_item runs sub₁ fit
      refine yields_bind (body_recorded sharing₁ body first) fun L₂ _ arm sub₂ _ recorded => ?_
      have sub := sub₁.trans sub₂
      refine yields_bind
        (yields_build (orEarlier_makes (fit_mono sub here) (earlier_mono sub past))) ?_
      intro L₃ _ joint sub₃ _ past₃
      have larger := sub.trans sub₃
      have later := runs_rest runs larger
      refine yields_bind (items_recorded rest later (by simpa using length)
        (fun e listed => fit_mono larger (fits e (by simp [listed]))) past₃) ?_
      intro L₄ _ r _ _ recorded'
      exact yields_pure fun _ _ =>
        recorded_mono (List.subset_append_right _ _) (recorded_beside recorded recorded')

end

end

end CombLogic
