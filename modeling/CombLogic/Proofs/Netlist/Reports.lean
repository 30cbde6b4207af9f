import CombLogic.Proofs.Netlist.Checks
import CombLogic.Proofs.Netlist.Downstream
import CombLogic.Proofs.Netlist.Turns

/- What the parts of a report say: changes in an order in which they follow what they depend on, the
   notices of those who subscribed, how many drivers were evaluated. A pass over which nothing waits
   reports nothing and changes nothing. -/
namespace CombLogic

open Expr Netlist

namespace Netlist

/-- What is reported of a pass that goes through. -/
def reportOf (g : Netlist) (pass : PassResult) : PassReport where
  changes := g.changesOf pass
  evaluated := pass.evaluated
  conflicts := pass.conflicts
  notices := (g.changesOf pass).flatMap fun change =>
    (g.subscribersOf change.leaf).map fun subscriber => ⟨subscriber, change⟩

theorem settle_ok {g : Netlist} {pass : PassResult} (done : g.runPass = .ok pass) :
    settle g = (.ok (g.reportOf pass), g.commit (g.changesOf pass)) := by
  have state : (get : Edit Netlist) g = (.ok g, g) := rfl
  rw [settle, step_ok state]
  simp only [done]
  rfl

theorem settled_pass {g h : Netlist} {report : PassReport} (settled : settle g = (.ok report, h)) :
    ∃ pass, g.runPass = .ok pass ∧ g.reportOf pass = report ∧ g.commit (g.changesOf pass) = h := by
  rcases settle_cases g with ⟨x, failed, -⟩ | ⟨-, pass, -, done⟩
  · cases failed.symm.trans settled
  · cases (settle_ok done).symm.trans settled
    exact ⟨pass, done, rfl, rfl⟩

section Changes

variable {g : Netlist} {made : List ConflictCheck} {K : Set Expr} {pass : PassResult}

theorem mem_changesOf {c : Change} :
    c ∈ g.changesOf pass ↔ ∃ id ∈ pass.order, g.changeAt pass id = some c :=
  List.mem_filterMap

/-- A pass reports a change exactly where a value differs, and with these values. -/
theorem changesOf_iff {id : LeafId} {old new : Value} : ⟨id, old, new⟩ ∈ g.changesOf pass ↔
    g.value id = .ok old ∧ (g.commit (g.changesOf pass)).value id = .ok new ∧ old ≠ new := by
  constructor
  · intro member
    obtain ⟨_, listed, here⟩ := mem_changesOf.mp member
    obtain ⟨leaf, found, differs, same⟩ := changeAt_some here
    cases same
    have settled : (g.commit (g.changesOf pass)).leaves.get? id =
        some (g.settledLeaf pass id leaf) := by rw [commit_get, found]; rfl
    refine ⟨value_ok found, (value_ok settled).trans ?_, differs⟩
    simp [settledLeaf, listed]
  · rintro ⟨before, after, differs⟩
    obtain ⟨leaf, found, rfl⟩ := value_found before
    obtain ⟨_, settled, rfl⟩ := value_found after
    obtain ⟨leaf', found', rfl⟩ := commit_back settled
    obtain rfl : leaf = leaf' := by simpa [found] using found'
    -- only listed leaves change, so this one is listed
    have listed : id ∈ pass.order := by
      by_contra unlisted
      simp [settledLeaf, unlisted] at differs
    simp only [settledLeaf, if_pos listed] at differs ⊢
    exact mem_changesOf.mpr ⟨id, listed, by rw [changeAt_found found, if_neg differs]⟩

theorem changesOf_sublist (g : Netlist) (pass : PassResult) :
    ((g.changesOf pass).map Change.leaf).Sublist pass.order := by
  change ((pass.order.filterMap (g.changeAt pass)).map Change.leaf).Sublist _
  induction pass.order with
  | nil => exact .slnil
  | cons id rest ih =>
    cases here : g.changeAt pass id with
    | none => exact (List.filterMap_cons_none here ▸ ih).cons id
    | some c =>
      obtain ⟨leaf, -, -, rfl⟩ := changeAt_some here
      rw [List.filterMap_cons_some here]
      exact ih.cons_cons id

theorem order_nodup (kept : g.Kept made K)
    (sorted : Order.sort g.readersOf g.affected.keys = .ok pass.order) : pass.order.Nodup :=
  Order.sort_nodup (affected_closed kept) sorted

/-- A change follows the changes of all leaves on which its leaf depends. -/
theorem changesOf_follow (kept : g.Kept made K) (linked : g.Linked)
    (sorted : Order.sort g.readersOf g.affected.keys = .ok pass.order) {i j : Nat} {c d : Change}
    (here : (g.changesOf pass)[i]? = some c) (there : (g.changesOf pass)[j]? = some d)
    (depends : Relation.TransGen g.DependsOn c.leaf d.leaf) : j < i := by
  have place : ∀ {n : Nat} {e : Change}, (g.changesOf pass)[n]? = some e →
      ((g.changesOf pass).map Change.leaf)[n]? = some e.leaf := by
    intro n e found
    rw [List.getElem?_map, found, Option.map_some]
  have closed : Order.Closed g.readersOf (· ∈ pass.order) := by
    intro source listed id edge
    rw [mem_order kept sorted] at listed ⊢
    exact affected_closed kept source listed id edge
  have walk : Relation.TransGen (Order.Edge g.readersOf) d.leaf c.leaf := by
    rw [edge_swap kept linked, Relation.transGen_swap]
    exact depends
  have sub := changesOf_sublist g pass
  have listed : d.leaf ∈ pass.order := sub.subset (List.mem_of_getElem? (place there))
  have behind := (Order.forward_walk closed (Order.sort_forward sorted) listed walk).2
  exact Order.sublist_behind (order_nodup kept sorted) sub (place there) (place here) behind

theorem changesOf_once (kept : g.Kept made K)
    (sorted : Order.sort g.readersOf g.affected.keys = .ok pass.order) :
    ((g.changesOf pass).map Change.leaf).Nodup :=
  (order_nodup kept sorted).sublist (changesOf_sublist g pass)

/-- Nobody hears of two changes. -/
theorem notices_once (subscribed : g.Subscribed) {changes : List Change}
    (once : (changes.map Change.leaf).Nodup) :
    ((changes.flatMap fun c => (g.subscribersOf c.leaf).map fun number =>
      (⟨number, c⟩ : Notice)).map Notice.subscriber).Nodup := by
  simp only [List.map_flatMap, List.map_map, Function.comp_def, List.map_id']
  refine List.nodup_flatMap.mpr ⟨fun c _ => subscribed.once c.leaf, ?_⟩
  refine (List.pairwise_map.mp once).imp fun apart number here there => ?_
  exact apart (subscribed.apart _ _ number here there)

end Changes

section Subscribers

theorem move_subscribed {s s' : Stage} (move : Move s s') (subscribed : s.world.netlist.Subscribed) :
    s'.world.netlist.Subscribed := by
  cases move with
  | number | stage | drop | make | watch =>
    refine subscribed_same (fun _ => ?_) ?_ subscribed <;> rfl
  | extend extended next => exact extended.subscribed subscribed
  | @attach g g' _ _ drivers attached free =>
    refine subscribed_same (subscribersOf_kept (fun id leaf found => ?_) fun id leaf' found missing => ?_)
      (by rw [attached.same]) subscribed
    · obtain ⟨leaf', found', step⟩ := attached.leaf id leaf found
      exact ⟨leaf', found', by rw [step.same]⟩
    · obtain ⟨leaf, there, -⟩ := attached.back found
      simp [missing] at there
  | @commit g _ _ pass done =>
    refine subscribed_same (fun id => ?_) (by rw [commit_same]) subscribed
    simp only [subscribersOf, commit_get]
    cases g.leaves.get? id <;> rfl

end Subscribers

section Count

variable {g : Netlist} {made : List ConflictCheck} {K : Set Expr} {pass : PassResult}

/-- One driver is evaluated for each driven leaf in the order. -/
theorem evaluateDrivers_count {order : List LeafId} {ev ev' : Evaluation} {count n : Nat}
    (done : g.evaluateDrivers ev count order = .ok (ev', n)) :
    n = count + order.countP fun id => (g.driveOf id).isDriven := by
  induction order generalizing ev count with
  | nil =>
    cases done
    rfl
  | cons id rest ih =>
    obtain ⟨leaf, found, ⟨e, value, ev₁, driven, -, done⟩ | ⟨undriven, done⟩⟩ :=
      evaluateDrivers_cons done
    · rw [List.countP_cons, driveOf_found found, driven, ih done]
      simp [Drive.isDriven]
      omega
    · rw [List.countP_cons, driveOf_found found, undriven, ih done]
      simp

/-- The driven leaves downstream. -/
def Driven (g : Netlist) : Set LeafId := {id | g.Downstream id ∧ (g.driveOf id).isDriven = true}

theorem evaluated_count (kept : g.Kept made K) (linked : g.Linked) (done : g.runPass = .ok pass) :
    g.Driven.Finite ∧ pass.evaluated = g.Driven.ncard := by
  obtain ⟨ev, sorted, run, -⟩ := runPass_ok done
  have same : g.Driven =
      ((pass.order.filter fun id => (g.driveOf id).isDriven).toFinset : Set LeafId) := by
    ext id
    simp [Driven, mem_order kept sorted, mem_affected kept linked]
  have nodup := (order_nodup kept sorted).filter fun id => (g.driveOf id).isDriven
  rw [same, Set.ncard_coe_finset, List.toFinset_card_of_nodup nodup, ← List.countP_eq_length_filter]
  exact ⟨Finset.finite_toSet _, (evaluateDrivers_count run).trans (Nat.zero_add _)⟩

end Count

section Idle

variable {g : Netlist}

/-- Nothing waits for a pass. -/
structure Idle (g : Netlist) : Prop where
  staged : g.staged = .empty
  dirty : g.dirty = .empty
  passed : g.Passed

theorem commit_idle (g : Netlist) (pass : PassResult) : (g.commit (g.changesOf pass)).Idle :=
  ⟨rfl, rfl, by rw [Passed, commit_oldChecks, commit_checks]⟩

theorem affected_idle (idle : g.Idle) : g.affected = .empty := by
  have none : g.seeds = .empty := by
    rw [seeds, idle.staged, idle.dirty]
    rfl
  rw [affected, none, Order.reachable_empty]

theorem evaluateChecks_idle {ev : Evaluation} {checks : List ConflictCheck} {index : Nat}
    (old : index + checks.length ≤ g.oldChecks) :
    g.evaluateChecks .empty ev index checks = .ok [] := by
  induction checks generalizing index with
  | nil => rfl
  | cons check rest ih =>
    simp only [List.length_cons] at old
    have seen : ¬g.oldChecks ≤ index := by omega
    have unread : check.reads.any OrderedSet.empty.contains = false :=
      List.any_eq_false.mpr fun d _ => by simp [OrderedSet.empty, OrderedMap.empty, OrderedMap.contains]
    rw [evaluateChecks, unread]
    simp only [seen, decide_false, Bool.or_false, Bool.false_eq_true, ↓reduceIte]
    exact ih (by omega)

theorem runPass_idle (idle : g.Idle) : g.runPass = .ok ⟨[], {}, 0, []⟩ := by
  have sorted : g.orderOf OrderedSet.empty.keys = .ok [] := rfl
  have passed : g.oldChecks = g.checks.size := idle.passed
  have quiet : g.evaluateChecks .empty .start 0 g.checks.toList = .ok [] :=
    evaluateChecks_idle (by simp [passed])
  have fits : ¬g.maxPassNodes < OrderedSet.empty.size := Nat.not_lt_zero _
  rw [runPass, affected_idle idle, idle.staged, sorted, if_neg fits]
  change (g.evaluateChecks .empty .start 0 g.checks.toList >>= fun conflicts =>
    pure (⟨[], {}, 0, conflicts⟩ : PassResult)) = _
  rw [quiet]
  rfl

theorem commit_nothing (idle : g.Idle) : g.commit [] = g := by
  obtain ⟨leaves, bundles, names, staged, dirty, checks, oldChecks, limit, node, subscriber⟩ := g
  obtain ⟨rfl, rfl, passed⟩ := idle
  obtain rfl : oldChecks = checks.size := passed
  rfl

/-- Nothing waits, so nothing happens. -/
theorem settle_idle (idle : g.Idle) : settle g = (.ok ⟨[], 0, [], []⟩, g) := by
  rw [settle_ok (runPass_idle idle)]
  exact congrArg (Prod.mk _) (commit_nothing idle)

end Idle

end Netlist

end CombLogic
