import CombLogic.Proofs.Netlist.Pass

/- What a settlement pass leaves behind. The leaves end with the values with which the pass ends; and
   what the pass did not reach reads nothing that has changed, so its value is still right. -/
namespace CombLogic.Netlist

open Expr

variable {g g' : Netlist} {made : List ConflictCheck} {K : Set Expr}

theorem get?_modifyLeaf (g : Netlist) (id other : LeafId) (f : Leaf → Leaf) :
    (g.modifyLeaf id f).leaves.get? other =
      if id = other then (g.leaves.get? other).map f else g.leaves.get? other :=
  Numbered.get?_modify _ _ _ _

/-- A fold that only changes leaves. -/
theorem foldl_modifyLeaf {α : Type} (id : α → LeafId) (f : α → Leaf → Leaf) (changes : List α)
    (g : Netlist) : ∃ leaves,
      changes.foldl (fun g c => g.modifyLeaf (id c) (f c)) g = { g with leaves := leaves } ∧
      leaves.size = g.leaves.size ∧ ∀ k, leaves.get? k = (g.leaves.get? k).map fun leaf =>
        changes.foldl (fun leaf c => if id c = k then f c leaf else leaf) leaf := by
  induction changes generalizing g with
  | nil => exact ⟨g.leaves, rfl, rfl, fun k => by simp⟩
  | cons c rest ih =>
    obtain ⟨leaves, folded, size, each⟩ := ih (g.modifyLeaf (id c) (f c))
    refine ⟨leaves, by rw [List.foldl_cons, folded]; rfl, ?_, fun k => ?_⟩
    · rw [size]
      exact Numbered.size_modify _ _ _
    · rw [each, get?_modifyLeaf]
      by_cases here : id c = k
      · simp [here, Option.map_map, Function.comp_def]
      · simp [here]

theorem rooted_leaf (ids : List LeafId) (k : LeafId) (leaf : Leaf) :
    ids.foldl (fun leaf id => if id = k then { leaf with drive := .root } else leaf) leaf =
      if k ∈ ids then { leaf with drive := .root } else leaf := by
  induction ids generalizing leaf with
  | nil => simp
  | cons id rest ih =>
    rw [List.foldl_cons, ih]
    by_cases here : id = k
    · simp [here]
    · simp [here, Ne.symm here]

/-- A leaf that is listed ends with the value found for it. -/
theorem settled_leaf (change : LeafId → Option Change) (k : LeafId) (new : Value)
    (order : List LeafId) (placed : ∀ id c, change id = some c → c.leaf = id)
    (valued : ∀ c, change k = some c → c.new = new) (leaf : Leaf)
    (kept : change k = none → leaf.value = new) :
    (order.filterMap change).foldl
        (fun leaf c => if c.leaf = k then { leaf with value := c.new } else leaf) leaf =
      if k ∈ order then { leaf with value := new } else leaf := by
  induction order generalizing leaf with
  | nil => simp
  | cons id rest ih =>
    cases here : change id with
    | none =>
      rw [List.filterMap_cons_none here, ih leaf kept]
      by_cases same : k = id
      · subst same
        simp [← kept here]
      · simp [same]
    | some c =>
      obtain rfl := placed id c here
      rw [List.filterMap_cons_some here, List.foldl_cons]
      by_cases same : c.leaf = k
      · subst same
        rw [if_pos rfl, ih _ (fun _ => valued c here)]
        simp [valued c here]
      · rw [if_neg same, ih leaf kept]
        simp [Ne.symm same]

/-- The change of a leaf that a pass lists. -/
def changeAt (g : Netlist) (pass : PassResult) (id : LeafId) : Option Change :=
  match pass.values[id]?, g.leaves.get? id with
  | some new, some leaf => if leaf.value = new then none else some ⟨id, leaf.value, new⟩
  | _, _ => none

/-- The value with which a leaf ends if the pass lists it. -/
def valueAt (pass : PassResult) (id : LeafId) (leaf : Leaf) : Value :=
  (pass.values[id]?).getD leaf.value

theorem changeAt_found {pass : PassResult} {id : LeafId} {leaf : Leaf}
    (found : g.leaves.get? id = some leaf) : g.changeAt pass id =
      if leaf.value = valueAt pass id leaf then none
      else some ⟨id, leaf.value, valueAt pass id leaf⟩ := by
  unfold changeAt valueAt
  rw [found]
  cases pass.values[id]? <;> simp

theorem changeAt_some {pass : PassResult} {id : LeafId} {c : Change}
    (listed : g.changeAt pass id = some c) : ∃ leaf, g.leaves.get? id = some leaf ∧
      leaf.value ≠ valueAt pass id leaf ∧ c = ⟨id, leaf.value, valueAt pass id leaf⟩ := by
  cases found : g.leaves.get? id with
  | none =>
    unfold changeAt at listed
    rw [found] at listed
    cases known : pass.values[id]? <;> simp [known] at listed
  | some leaf =>
    rw [changeAt_found found] at listed
    split at listed
    · cases listed
    · rename_i differs
      exact ⟨leaf, rfl, differs, (Option.some.inj listed).symm⟩

/-- The leaf that a committed pass makes of a leaf. -/
def settledLeaf (g : Netlist) (pass : PassResult) (id : LeafId) (leaf : Leaf) : Leaf :=
  { leaf with
    drive := if id ∈ g.staged.keys then .root else leaf.drive
    value := if id ∈ pass.order then valueAt pass id leaf else leaf.value }

theorem settledLeaf_driven {pass : PassResult} {id : LeafId} {leaf : Leaf} {e : Expr}
    (driven : (g.settledLeaf pass id leaf).drive = .driven e) : leaf.drive = .driven e := by
  simp only [settledLeaf] at driven
  split at driven
  · cases driven
  · exact driven

/-- Values wait for leaves only that nothing drives. -/
theorem staged_input (kept : Kept g made K) {id : LeafId} {leaf : Leaf}
    (found : g.leaves.get? id = some leaf) (staged : id ∈ g.staged.keys) :
    leaf.drive.isDriven = false := by
  obtain ⟨value, there⟩ := OrderedMap.get?_of_mem_keys staged
  obtain ⟨leaf', found', input, -⟩ := kept.staged id value there
  obtain rfl : leaf = leaf' := by simpa [found] using found'
  exact input

/-- A pass leaves every driver in its place. -/
theorem settledLeaf_drive (kept : Kept g made K) (pass : PassResult) {id : LeafId} {leaf : Leaf}
    {e : Expr} (found : g.leaves.get? id = some leaf) (driven : leaf.drive = .driven e) :
    (g.settledLeaf pass id leaf).drive = .driven e := by
  have unstaged : id ∉ g.staged.keys := by
    intro staged
    have input := staged_input kept found staged
    simp [driven, Drive.isDriven] at input
  simp only [settledLeaf, if_neg unstaged, driven]

theorem settledLeaf_isDriven (kept : Kept g made K) (pass : PassResult) {id : LeafId} {leaf : Leaf}
    (found : g.leaves.get? id = some leaf) :
    (g.settledLeaf pass id leaf).drive.isDriven = leaf.drive.isDriven := by
  simp only [settledLeaf]
  split
  · rename_i staged
    rw [staged_input kept found staged]
    rfl
  · rfl

theorem commit_leaves (g : Netlist) (pass : PassResult) : ∃ leaves,
    g.commit (g.changesOf pass) = { g with
      leaves := leaves, staged := .empty, dirty := .empty, oldChecks := g.checks.size } ∧
    leaves.size = g.leaves.size ∧
    ∀ id, leaves.get? id = (g.leaves.get? id).map (g.settledLeaf pass id) := by
  obtain ⟨rooted, folded, size, each⟩ :=
    foldl_modifyLeaf id (fun _ leaf => { leaf with drive := .root }) g.staged.keys g
  obtain ⟨leaves, folded', size', each'⟩ := foldl_modifyLeaf Change.leaf
    (fun c leaf => { leaf with value := c.new }) (g.changesOf pass) { g with leaves := rooted }
  simp only [id] at folded each
  refine ⟨leaves, ?_, size'.trans size, fun k => ?_⟩
  · simp only [commit, folded, folded']
  · rw [each', each, Option.map_map]
    cases found : g.leaves.get? k with
    | none => rfl
    | some leaf =>
      have valued : ∀ c, g.changeAt pass k = some c → c.new = valueAt pass k leaf := by
        intro c listed
        obtain ⟨leaf', found', -, rfl⟩ := changeAt_some listed
        obtain rfl : leaf = leaf' := by simpa [found] using found'
        rfl
      have placed : ∀ id c, g.changeAt pass id = some c → c.leaf = id :=
        fun id c listed => by obtain ⟨_, -, -, rfl⟩ := changeAt_some listed; rfl
      simp only [Option.map_some, Function.comp_apply, rooted_leaf, Option.some.injEq]
      change ((pass.order.filterMap (g.changeAt pass)).foldl _ _) = _
      rw [settled_leaf _ k _ pass.order placed valued]
      · unfold settledLeaf
        split <;> split <;> rfl
      · intro unlisted
        have same : leaf.value = valueAt pass k leaf := by
          simpa [changeAt_found found] using unlisted
        rw [← same]
        split <;> rfl

/-- A committed pass changes leaves. Nothing waits after it, and all checks count as seen. -/
theorem commit_same (g : Netlist) (pass : PassResult) : g.commit (g.changesOf pass) = { g with
    leaves := (g.commit (g.changesOf pass)).leaves, staged := .empty, dirty := .empty
    oldChecks := g.checks.size } := by
  obtain ⟨leaves, equal, -, -⟩ := commit_leaves g pass
  rw [equal]

theorem commit_size (g : Netlist) (pass : PassResult) :
    (g.commit (g.changesOf pass)).leaves.size = g.leaves.size := by
  obtain ⟨leaves, equal, size, -⟩ := commit_leaves g pass
  rw [equal, size]

theorem commit_get (g : Netlist) (pass : PassResult) (id : LeafId) :
    (g.commit (g.changesOf pass)).leaves.get? id =
      (g.leaves.get? id).map (g.settledLeaf pass id) := by
  obtain ⟨leaves, equal, -, each⟩ := commit_leaves g pass
  rw [equal, each]

theorem commit_back {pass : PassResult} {id : LeafId} {leaf' : Leaf}
    (found : (g.commit (g.changesOf pass)).leaves.get? id = some leaf') :
    ∃ leaf, g.leaves.get? id = some leaf ∧ g.settledLeaf pass id leaf = leaf' :=
  Option.map_eq_some_iff.mp ((commit_get g pass id).symm.trans found)

@[simp] theorem commit_dirty (g : Netlist) (changes : List Change) :
    (g.commit changes).dirty = .empty := rfl

@[simp] theorem commit_staged (g : Netlist) (changes : List Change) :
    (g.commit changes).staged = .empty := rfl

@[simp] theorem commit_checks (g : Netlist) (pass : PassResult) :
    (g.commit (g.changesOf pass)).checks = g.checks := by
  rw [commit_same]

@[simp] theorem commit_oldChecks (g : Netlist) (pass : PassResult) :
    (g.commit (g.changesOf pass)).oldChecks = g.checks.size := by
  rw [commit_same]

theorem commit_declared (g : Netlist) (pass : PassResult) (id : LeafId) :
    (g.commit (g.changesOf pass)).declared (.leaf id) = g.declared (.leaf id) := by
  rw [declared_get, declared_get, commit_get]
  cases g.leaves.get? id <;> rfl

theorem readersOf_commit (g : Netlist) (pass : PassResult) (d : LeafId) :
    (g.commit (g.changesOf pass)).readersOf d = g.readersOf d := by
  simp only [readersOf, commit_get]
  cases g.leaves.get? d <;> rfl

/-- Where a pass starts: with the staged values. -/
def passStart (g : Netlist) : Evaluation :=
  g.staged.entries.foldl (fun ev entry => ev.set entry.1 entry.2) .start

theorem foldl_set {f : LeafId → Option Value} (entries : List (LeafId × Value))
    (agree : ∀ entry ∈ entries, f entry.1 = some entry.2) (ev : Evaluation) (id : LeafId) :
    (entries.foldl (fun ev entry => ev.set entry.1 entry.2) ev).values[id]? =
      if id ∈ entries.map Prod.fst then f id else ev.values[id]? := by
  induction entries generalizing ev with
  | nil => simp
  | cons entry rest ih =>
    rw [List.foldl_cons, ih (fun other later => agree other (by simp [later])), values_set]
    by_cases here : entry.1 = id
    · subst here
      simp [agree entry (by simp)]
    · simp only [if_neg here, List.map_cons, List.mem_cons, Ne.symm here, false_or]

theorem passStart_values (g : Netlist) (id : LeafId) : g.passStart.values[id]? = g.staged.get? id := by
  unfold passStart
  rw [foldl_set g.staged.entries (fun entry member => (g.staged.mem_entries _ _).mp member)]
  split
  · rfl
  · rename_i unlisted
    cases staged : g.staged.get? id with
    | none => simp [Evaluation.start]
    | some value =>
      exact (unlisted (List.mem_map_of_mem ((g.staged.mem_entries id value).mpr staged))).elim

theorem passStart_memo (g : Netlist) : g.passStart.memo = {} := by
  unfold passStart
  have kept : ∀ (entries : List (LeafId × Value)) (ev : Evaluation),
      (entries.foldl (fun ev entry => ev.set entry.1 entry.2) ev).memo = ev.memo := by
    intro entries
    induction entries with
    | nil => exact fun _ => rfl
    | cons entry rest ih => exact fun ev => ih _
  exact kept _ _

theorem passStart_right (g : Netlist) (env : Env) : MemoRight K env g.passStart.memo := by
  intro e _ v known
  simp [passStart_memo] at known

theorem orderOf_ok {ids order : List LeafId} (ordered : g.orderOf ids = .ok order) :
    Order.sort g.readersOf ids = .ok order := by
  unfold orderOf at ordered
  split at ordered
  · rename_i sorted
    cases ordered
    exact sorted
  · obtain ⟨_, _, failed⟩ := bind_ok ordered
    cases failed

theorem runPass_steps {pass : PassResult} (done : g.runPass = .ok pass) :
    ∃ ev, Order.sort g.readersOf g.affected.keys = .ok pass.order ∧
      g.evaluateDrivers g.passStart 0 pass.order = .ok (ev, pass.evaluated) ∧
      g.evaluateChecks g.affected ev 0 g.checks.toList = .ok pass.conflicts ∧
      pass.values = ev.values := by
  simp only [runPass] at done
  split at done
  · cases done
  · obtain ⟨order, ordered, done⟩ := bind_ok done
    obtain ⟨⟨ev, n⟩, evaluated, done⟩ := bind_ok done
    obtain ⟨conflicts, watched, done⟩ := bind_ok done
    cases done
    exact ⟨ev, orderOf_ok ordered, evaluated, watched, rfl⟩

theorem runPass_ok {pass : PassResult} (done : g.runPass = .ok pass) :
    ∃ ev, Order.sort g.readersOf g.affected.keys = .ok pass.order ∧
      g.evaluateDrivers g.passStart 0 pass.order = .ok (ev, pass.evaluated) ∧
      pass.values = ev.values := by
  obtain ⟨ev, sorted, evaluated, -, values⟩ := runPass_steps done
  exact ⟨ev, sorted, evaluated, values⟩

section

variable {pass : PassResult}

/-- A staged leaf whose value is about to change is a seed. -/
theorem mem_seeds {id : LeafId} : id ∈ g.seeds.keys ↔
    (∃ value leaf, g.staged.get? id = some value ∧ g.leaves.get? id = some leaf ∧
      leaf.value ≠ value) ∨ id ∈ g.dirty.keys := by
  unfold seeds
  rw [OrderedSet.mem_addAll, OrderedSet.keys_ofList, List.mem_eraseDups]
  refine or_congr_left ?_
  simp only [List.mem_map, List.mem_filter, Prod.exists, OrderedMap.mem_entries]
  constructor
  · rintro ⟨here, value, ⟨staged, changes⟩, rfl⟩
    cases found : g.leaves.get? here with
    | none => simp [found] at changes
    | some leaf => exact ⟨value, leaf, staged, rfl, by simpa [found] using changes⟩
  · rintro ⟨value, leaf, staged, found, differs⟩
    exact ⟨id, value, ⟨staged, by simpa [found] using differs⟩, rfl⟩

theorem closed_readers (kept : Kept g made K) :
    Order.Closed g.readersOf (· < g.leaves.size) :=
  fun d _ id member => kept.readers d id member

theorem seeds_bounded (kept : Kept g made K) : ∀ id ∈ g.seeds.keys, id < g.leaves.size := by
  intro id seed
  rcases mem_seeds.mp seed with ⟨value, leaf, -, found, -⟩ | dirty
  · exact g.leaves.lt_size id found
  · exact kept.dirty id dirty

theorem affected_closed (kept : Kept g made K) :
    Order.Closed g.readersOf (· ∈ g.affected.keys) :=
  Order.reachable_closed (List.range g.leaves.size) (by simpa using closed_readers kept)
    (by simpa using seeds_bounded kept) (by simp)

/-- An order of a pass lists exactly what is downstream of the seeds. -/
theorem mem_order (kept : Kept g made K)
    (sorted : Order.sort g.readersOf g.affected.keys = .ok pass.order) {id : LeafId} :
    id ∈ pass.order ↔ id ∈ g.affected.keys :=
  ⟨Order.sort_within sorted (affected_closed kept) (fun _ member => member) id,
    Order.sort_lists sorted id⟩

/-- The values with which a pass ends are the values after it. -/
theorem value_settled (kept : Kept g made K) {ev : Evaluation}
    (sorted : Order.sort g.readersOf g.affected.keys = .ok pass.order)
    (done : g.evaluateDrivers g.passStart 0 pass.order = .ok (ev, pass.evaluated))
    (values : pass.values = ev.values) {id : LeafId} {leaf : Leaf}
    (found : g.leaves.get? id = some leaf) :
    (ev.env g).value id = .ok (g.settledLeaf pass id leaf).value := by
  simp only [settledLeaf, valueAt, values]
  by_cases listed : id ∈ pass.order
  · rw [if_pos listed]
    cases known : ev.values[id]? with
    | some value => exact env_of_value known
    | none => rw [env_of_none known, value_ok found]; rfl
  · rw [if_neg listed]
    have same : ev.values[id]? = g.staged.get? id := by
      rw [evaluateDrivers_frame done (fun member => (listed member).elim), passStart_values]
    cases staged : g.staged.get? id with
    | none => rw [env_of_none (same.trans staged), value_ok found]
    | some value =>
      rw [env_of_value (same.trans staged)]
      by_contra differs
      refine listed ((mem_order kept sorted).mpr (Order.seed_reachable (mem_seeds.mpr (.inl ?_))))
      exact ⟨value, leaf, staged, found, fun equal => differs (by rw [equal])⟩

theorem value_committed (kept : Kept g made K) {ev : Evaluation}
    (sorted : Order.sort g.readersOf g.affected.keys = .ok pass.order)
    (done : g.evaluateDrivers g.passStart 0 pass.order = .ok (ev, pass.evaluated))
    (values : pass.values = ev.values) {id : LeafId} {leaf : Leaf}
    (found : g.leaves.get? id = some leaf) :
    (g.commit (g.changesOf pass)).value id = (ev.env g).value id := by
  rw [value_settled kept sorted done values found]
  exact value_ok (by rw [commit_get, found]; rfl)

/-- Only staged leaves and drivers that are evaluated take a value, so a leaf to which the pass does
    not come keeps its own. -/
theorem value_unreached (kept : Kept g made K) {ev : Evaluation}
    (sorted : Order.sort g.readersOf g.affected.keys = .ok pass.order)
    (done : g.evaluateDrivers g.passStart 0 pass.order = .ok (ev, pass.evaluated))
    (values : pass.values = ev.values) {id : LeafId} {leaf : Leaf}
    (found : g.leaves.get? id = some leaf) (unreached : id ∉ g.affected.keys) :
    (ev.env g).value id = g.value id := by
  have unlisted : id ∉ pass.order := fun member => unreached ((mem_order kept sorted).mp member)
  rw [value_settled kept sorted done values found, value_ok found, settledLeaf]
  simp [unlisted]

/-- A committed pass leaves every driven leaf with the value of its driver. -/
theorem committed_fresh (kept : Kept g made K) {ev : Evaluation}
    (sorted : Order.sort g.readersOf g.affected.keys = .ok pass.order)
    (done : g.evaluateDrivers g.passStart 0 pass.order = .ok (ev, pass.evaluated))
    (values : pass.values = ev.values) {id : LeafId} {leaf : Leaf} {e : Expr}
    (found : g.leaves.get? id = some leaf) (driven : leaf.drive = .driven e) :
    e.value (ev.env g) = .ok (g.settledLeaf pass id leaf).value := by
  obtain ⟨-, each⟩ :=
    evaluateDrivers_right kept (Order.sort_forward sorted) done (passStart_right g _)
  by_cases reached : id ∈ g.affected.keys
  · have listed := (mem_order kept sorted).mpr reached
    obtain ⟨value, plain, known⟩ := each id listed leaf e found driven
    rw [plain]
    simp [settledLeaf, valueAt, values, listed, known]
  · have clean : id ∉ g.dirty.keys :=
      fun dirty => reached (Order.seed_reachable (mem_seeds.mpr (.inr dirty)))
    have unlisted : id ∉ pass.order := fun member => reached ((mem_order kept sorted).mp member)
    have same : e.value (ev.env g) = e.value g.env := by
      refine value_congr (kept.driver id leaf e found driven).2.resolved fun d read => ?_
      obtain ⟨source, there⟩ := kept_read kept found driven read
      have apart : d ∉ g.affected.keys := fun reached' =>
        reached (affected_closed kept d reached' id (kept.listed id leaf e found driven d read))
      rw [value_unreached kept sorted done values there apart, env_value]
    rw [same, kept.fresh id leaf e found driven clean]
    simp [settledLeaf, unlisted]

end

theorem kept_commit (kept : Kept g made K) {pass : PassResult} (done : g.runPass = .ok pass) :
    Kept (g.commit (g.changesOf pass)) made K where
  sharing := by rw [commit_same]; exact kept.sharing
  driver id leaf' e found driven := by
    obtain ⟨leaf, there, rfl⟩ := commit_back found
    obtain ⟨member, checked⟩ := kept.driver id leaf e there (settledLeaf_driven driven)
    exact ⟨member, checked_congr checked fun d _ => (commit_declared g pass d).symm⟩
  listed id leaf' e found driven d read := by
    obtain ⟨leaf, there, rfl⟩ := commit_back found
    rw [readersOf_commit]
    exact kept.listed id leaf e there (settledLeaf_driven driven) d read
  readers d id member := by
    rw [readersOf_commit] at member
    exact commit_size g pass ▸ kept.readers d id member
  staged id value found := by simp at found
  dirty id member := by simp [OrderedSet.empty] at member
  checks check member := by
    have good := kept.checks check (commit_checks g pass ▸ member)
    exact ⟨good.inside, checked_congr good.checked fun d _ => (commit_declared g pass d).symm,
      good.reads⟩
  named id leaf' found := by
    obtain ⟨leaf, there, rfl⟩ := commit_back found
    rw [commit_same]
    exact kept.named id leaf there
  fresh id leaf' e found driven _ := by
    obtain ⟨ev, sorted, evaluated, values⟩ := runPass_ok done
    obtain ⟨leaf, there, rfl⟩ := commit_back found
    have driver := settledLeaf_driven driven
    rw [← committed_fresh kept sorted evaluated values there driver]
    refine value_congr (kept.driver id leaf e there driver).2.resolved fun d read => ?_
    obtain ⟨source, here⟩ := kept_read kept there driver read
    rw [value_settled kept sorted evaluated values here, env_value]
    exact value_ok (by rw [commit_get, here]; rfl)

end CombLogic.Netlist
