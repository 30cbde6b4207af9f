import Mathlib.Data.List.Perm.Subperm
import CombLogic.Netlist.Order
import CombLogic.Proofs.Collections

/- What the walks over a graph of numbers find. Reachability gives a set that holds the seeds and is
   closed under the edges. A sort that gives an order lists every number it was given, and no edge
   in the order points back or to its own start. -/
namespace CombLogic.Order

variable {next : Nat → List Nat}

/-- Edges do not lead out of a set. -/
def Closed (next : Nat → List Nat) (inside : Nat → Prop) : Prop :=
  ∀ id, inside id → ∀ target ∈ next id, inside target

/-- The successors of the first so many nodes were added. -/
def Grown (next : Nat → List Nat) (place : Nat) (found : OrderedSet) : Prop :=
  ∀ i < place, ∀ id, found.order[i]? = some id → ∀ target ∈ next id, target ∈ found.keys

theorem order_of_keys {s t : OrderedSet} {more : List Nat} (keys : t.keys = s.keys ++ more) (i : Nat)
    {id : Nat} (old : s.order[i]? = some id) : t.order[i]? = some id := by
  have old : s.keys[i]? = some id := by simpa [OrderedMap.keys] using old
  have new : t.keys[i]? = some id := by
    rw [keys, List.getElem?_append_left (List.getElem?_eq_some_iff.mp old).1]
    exact old
  simpa [OrderedMap.keys] using new

theorem grown_addAll {place : Nat} {found : OrderedSet} {id : Nat} (grown : Grown next place found)
    (here : found.order[place]? = some id) : Grown next (place + 1) (found.addAll (next id)) := by
  intro i before other listed target successor
  have same : found.order[i]? = some other := by
    have bound : i < found.order.size := by
      have := (Array.getElem?_eq_some_iff.mp here).1
      omega
    have old := Array.getElem?_eq_getElem bound
    have kept := order_of_keys (OrderedSet.keys_addAll found (next id)) i old
    rw [listed] at kept
    rw [old, kept]
  rw [OrderedSet.mem_addAll]
  by_cases last : i = place
  · subst last
    obtain rfl : other = id := by simpa [same] using here
    exact .inr successor
  · exact .inl (grown i (by omega) other same target successor)

theorem size_within {s : OrderedSet} {ids : List Nat} (within : ∀ id ∈ s.keys, id ∈ ids) :
    s.order.size ≤ ids.length := by
  have short := (List.subperm_of_subset s.nodup_keys within).length_le
  simpa [OrderedMap.keys] using short

theorem grow_subset (fuel place : Nat) (found : OrderedSet) {id : Nat} (member : id ∈ found.keys) :
    id ∈ (grow next fuel place found).keys := by
  induction fuel generalizing place found with
  | zero => exact member
  | succ fuel ih =>
    simp only [grow]
    split
    · exact member
    · exact ih _ _ ((OrderedSet.mem_addAll _ _ _).mpr (.inl member))

theorem grow_within {inside : Nat → Prop} (closed : Closed next inside) (fuel place : Nat)
    (found : OrderedSet) (start : ∀ id ∈ found.keys, inside id) :
    ∀ id ∈ (grow next fuel place found).keys, inside id := by
  induction fuel generalizing place found with
  | zero => exact start
  | succ fuel ih =>
    simp only [grow]
    split
    · exact start
    · rename_i id here
      refine ih _ _ fun other member => ?_
      rcases (OrderedSet.mem_addAll _ _ _).mp member with old | new
      · exact start other old
      · have known : id ∈ found.keys := by
          simpa [OrderedMap.keys] using Array.mem_of_getElem? here
        exact closed id (start id known) other new

theorem grow_grown (fuel place : Nat) (found : OrderedSet) (grown : Grown next place found)
    {ids : List Nat} (enough : ids.length ≤ place + fuel) (within : ∀ id ∈ found.keys, id ∈ ids)
    (closed : Closed next (· ∈ ids)) :
    Grown next (grow next fuel place found).order.size (grow next fuel place found) := by
  induction fuel generalizing place found with
  | zero =>
    have short := size_within within
    exact fun i before => grown i (by simp only [grow] at before; omega)
  | succ fuel ih =>
    simp only [grow]
    split
    · rename_i past
      have short := Array.getElem?_eq_none_iff.mp past
      exact fun i before => grown i (by omega)
    · rename_i id here
      refine ih _ _ (grown_addAll grown here) (by omega) fun other member => ?_
      have known : id ∈ found.keys := by simpa [OrderedMap.keys] using Array.mem_of_getElem? here
      rcases (OrderedSet.mem_addAll _ _ _).mp member with old | new
      · exact within other old
      · exact closed id (within id known) other new

section Reachable

variable {size : Nat} {seeds : OrderedSet}

theorem seed_reachable {id : Nat} (seed : id ∈ seeds.keys) :
    id ∈ (reachable next size seeds).keys :=
  grow_subset size 0 seeds seed

theorem reachable_within {inside : Nat → Prop} (closed : Closed next inside)
    (start : ∀ id ∈ seeds.keys, inside id) : ∀ id ∈ (reachable next size seeds).keys, inside id :=
  grow_within closed size 0 seeds start

theorem reachable_empty (next : Nat → List Nat) (size : Nat) :
    reachable next size .empty = .empty := by
  cases size <;> rfl

theorem reachable_closed (ids : List Nat) (closed : Closed next (· ∈ ids))
    (start : ∀ id ∈ seeds.keys, id ∈ ids) (enough : ids.length ≤ size) :
    Closed next (· ∈ (reachable next size seeds).keys) := by
  intro id member target successor
  have grown : Grown next _ (reachable next size seeds) :=
    grow_grown size 0 seeds (fun i before => by omega) (by omega) start closed
  obtain ⟨i, bound, here⟩ := List.getElem_of_mem member
  have listed : (reachable next size seeds).order[i]? = some id := by
    simpa [OrderedMap.keys] using List.getElem?_eq_some_iff.mpr ⟨bound, here⟩
  exact grown i (Array.getElem?_eq_some_iff.mp listed).1 id listed target successor

end Reachable

/-- A visit leaves what it enters, and enters nothing outside a closed set. -/
structure Visited (v w : Visit) : Prop where
  left_kept : ∀ id ∈ v.left, id ∈ w.left
  entered_kept : ∀ id ∈ v.entered.keys, id ∈ w.entered.keys
  entered_left : ∀ id ∈ w.entered.keys, id ∈ v.entered.keys ∨ id ∈ w.left
  left_entered : (∀ id ∈ v.left, id ∈ v.entered.keys) → ∀ id ∈ w.left, id ∈ w.entered.keys
  /-- A node that is being visited when the visit begins still is when it ends. -/
  unleft : ∀ id ∈ v.entered.keys, id ∉ v.left → id ∉ w.left

namespace Visited

theorem refl (v : Visit) : Visited v v where
  left_kept _ member := member
  entered_kept _ member := member
  entered_left _ member := .inl member
  left_entered all := all
  unleft _ _ apart := apart

theorem trans {u v w : Visit} (first : Visited u v) (second : Visited v w) : Visited u w where
  left_kept id member := second.left_kept id (first.left_kept id member)
  entered_kept id member := second.entered_kept id (first.entered_kept id member)
  entered_left id member := by
    rcases second.entered_left id member with before | left
    · rcases first.entered_left id before with old | left
      · exact .inl old
      · exact .inr (second.left_kept id left)
    · exact .inr left
  left_entered all := second.left_entered (first.left_entered all)
  unleft id member apart := second.unleft id (first.entered_kept id member)
    (first.unleft id member apart)

end Visited

theorem foldl_visited {f : Visit → Nat → Visit} (step : ∀ v id, Visited v (f v id)) (ids : List Nat)
    (v : Visit) : Visited v (ids.foldl f v) := by
  induction ids generalizing v with
  | nil => exact .refl v
  | cons id rest ih => exact (step v id).trans (ih (f v id))

theorem visit_visited (depth : Nat) (v : Visit) (id : Nat) : Visited v (visit next depth v id) := by
  induction depth generalizing v id with
  | zero => exact .refl v
  | succ depth ih =>
    simp only [visit]
    split
    · exact .refl v
    · rename_i unseen
      have inner := foldl_visited ih (next id) { v with entered := v.entered.add id }
      have entered : ∀ other, other ∈ (v.entered.add id).keys ↔
          other ∈ v.entered.keys ∨ other = id := OrderedSet.mem_add v.entered id
      refine ⟨fun other member => ?_, fun other member => ?_, fun other member => ?_,
        fun all other member => ?_, fun other member apart => ?_⟩
      · exact List.mem_cons_of_mem _ (inner.left_kept other member)
      · exact inner.entered_kept other ((entered other).mpr (.inl member))
      · rcases inner.entered_left other member with before | left
        · rcases (entered other).mp before with old | rfl
          · exact .inl old
          · exact .inr (by simp)
        · exact .inr (List.mem_cons_of_mem _ left)
      · rcases List.mem_cons.mp member with rfl | later
        · exact inner.entered_kept _ ((entered _).mpr (.inr rfl))
        · exact inner.left_entered
            (fun some known => (entered some).mpr (.inl (all some known))) other later
      · have new : other ≠ id := fun same =>
          unseen ((OrderedMap.contains_iff _ _).mpr (same ▸ member))
        exact List.not_mem_cons_of_ne_of_not_mem new
          (inner.unleft other ((entered other).mpr (.inl member)) apart)

theorem foldl_within {inside : Nat → Prop} {f : Visit → Nat → Visit}
    (step : ∀ v id, inside id → (∀ other ∈ v.entered.keys, inside other) →
      ∀ other ∈ (f v id).entered.keys, inside other) (ids : List Nat)
    (targets : ∀ id ∈ ids, inside id) (v : Visit) (start : ∀ other ∈ v.entered.keys, inside other) :
    ∀ other ∈ (ids.foldl f v).entered.keys, inside other := by
  induction ids generalizing v with
  | nil => exact start
  | cons id rest ih =>
    exact ih (fun other later => targets other (by simp [later])) (f v id)
      (step v id (targets id (by simp)) start)

theorem visit_within {inside : Nat → Prop} (closed : Closed next inside) (depth : Nat) (v : Visit)
    (id : Nat) (here : inside id) (start : ∀ other ∈ v.entered.keys, inside other) :
    ∀ other ∈ (visit next depth v id).entered.keys, inside other := by
  induction depth generalizing v id with
  | zero => exact start
  | succ depth ih =>
    simp only [visit]
    split
    · exact start
    · refine foldl_within (fun v id => ih v id) (next id) (closed id here) _ ?_
      intro other member
      rcases (OrderedSet.mem_add _ _ _).mp member with old | rfl
      · exact start other old
      · exact here

/-- A node entered at the top is left. -/
theorem visit_left {depth : Nat} (v : Visit) (id : Nat)
    (all : ∀ other ∈ v.entered.keys, other ∈ v.left) : id ∈ (visit next (depth + 1) v id).left := by
  simp only [visit]
  split
  · rename_i known
    exact all id ((OrderedMap.contains_iff _ _).mp known)
  · simp

theorem foldl_left (depth : Nat) (ids : List Nat) (v : Visit)
    (all : ∀ other ∈ v.entered.keys, other ∈ v.left) :
    ∀ id ∈ ids, id ∈ (ids.foldl (visit next (depth + 1)) v).left := by
  induction ids generalizing v with
  | nil => simp
  | cons id rest ih =>
    have step : Visited v (visit next (depth + 1) v id) := visit_visited (depth + 1) v id
    have still : ∀ other ∈ (visit next (depth + 1) v id).entered.keys,
        other ∈ (visit next (depth + 1) v id).left := by
      intro other member
      rcases step.entered_left other member with old | left
      · exact step.left_kept other (all other old)
      · exact left
    intro other member
    rcases List.mem_cons.mp member with rfl | later
    · exact (foldl_visited (fun v id => visit_visited _ v id) rest _).left_kept _
        (visit_left v _ all)
    · exact ih _ still other later

/-- No edge points back in a list, or to its own start. -/
def Forward (next : Nat → List Nat) : List Nat → Prop
  | [] => True
  | id :: later => (∀ other ∈ id :: later, id ∉ next other) ∧ Forward next later

theorem mem_backward (ids : List Nat) (target : Nat) :
    target ∈ (backward next ids).1 ↔ ∃ id ∈ ids, target ∈ next id := by
  induction ids with
  | nil => simp [backward]
  | cons id rest ih =>
    simp only [backward, List.foldr_cons] at ih ⊢
    rw [IdSet.mem_addAll, ih]
    simp only [List.mem_cons, exists_eq_or_imp]
    exact or_comm

theorem forward_of_backward (ids : List Nat) (passed : (backward next ids).2 = none)
    (loopless : ∀ id ∈ ids, id ∉ next id) : Forward next ids := by
  induction ids with
  | nil => trivial
  | cons id rest ih =>
    simp only [backward, List.foldr_cons] at passed
    split at passed
    · simp at passed
    · rename_i unseen
      refine ⟨fun other member => ?_, ih passed fun other later => loopless other (by simp [later])⟩
      rcases List.mem_cons.mp member with rfl | later
      · exact loopless _ (by simp)
      · exact fun edge => unseen ((mem_backward rest id).mpr ⟨other, later, edge⟩)

/-- Nodes that all have an edge from one of them have no order in which edges point forward. -/
theorem forward_acyclic {order ids : List Nat} (forward : Forward next order)
    (sources : ∀ id ∈ ids, ∃ d ∈ ids, id ∈ next d)
    (listed : ∀ id ∈ ids, id ∈ order) : ids = [] := by
  induction order with
  | nil => exact List.eq_nil_iff_forall_not_mem.mpr fun id member => by simpa using listed id member
  | cons first later ih =>
    obtain ⟨ahead, forward⟩ := forward
    refine ih forward fun id member => ?_
    have apart : id ≠ first := by
      rintro rfl
      obtain ⟨d, inside, edge⟩ := sources id member
      exact ahead d (listed d inside) edge
    exact (List.mem_cons.mp (listed id member)).resolve_left apart

/-- The end of an edge stands behind its start. -/
theorem forward_idxOf {order : List Nat} (forward : Forward next order) {a b : Nat}
    (start : a ∈ order) (target : b ∈ order) (edge : b ∈ next a) :
    order.idxOf a < order.idxOf b := by
  induction order with
  | nil => simp at start
  | cons first later ih =>
    obtain ⟨ahead, forward⟩ := forward
    have apart : b ≠ first := by
      rintro rfl
      exact ahead a start edge
    rw [List.idxOf_cons_ne _ (Ne.symm apart)]
    by_cases here : a = first
    · subst here
      simp
    · rw [List.idxOf_cons_ne _ (Ne.symm here)]
      have start := (List.mem_cons.mp start).resolve_left here
      have target := (List.mem_cons.mp target).resolve_left apart
      exact Nat.succ_lt_succ (ih forward start target)

theorem visitAll_left_entered (ids : List Nat) :
    ∀ id ∈ (visitAll next ids).left, id ∈ (visitAll next ids).entered.keys :=
  (foldl_visited (fun v id => visit_visited ids.length v id) ids ⟨.empty, []⟩).left_entered (by simp)

theorem visitAll_lists (ids : List Nat) : ∀ id ∈ ids, id ∈ (visitAll next ids).left := by
  cases ids with
  | nil => simp
  | cons id rest =>
    exact foldl_left rest.length (id :: rest) ⟨.empty, []⟩ (by simp [OrderedSet.empty])

theorem visitAll_within {inside : Nat → Prop} (closed : Closed next inside) (ids : List Nat)
    (start : ∀ id ∈ ids, inside id) : ∀ id ∈ (visitAll next ids).entered.keys, inside id :=
  foldl_within (fun v id => visit_within closed ids.length v id) ids start ⟨.empty, []⟩
    (by simp [OrderedSet.empty])

section

variable {ids order : List Nat}

theorem sort_ok (sorted : sort next ids = .ok order) :
    order = (visitAll next ids).left ∧ cyclic? next (visitAll next ids) = none := by
  simp only [sort] at sorted
  split at sorted <;> simp_all

theorem sort_lists (sorted : sort next ids = .ok order) : ∀ id ∈ ids, id ∈ order := by
  obtain ⟨rfl, -⟩ := sort_ok sorted
  exact visitAll_lists ids

theorem sort_within (sorted : sort next ids = .ok order) {inside : Nat → Prop}
    (closed : Closed next inside) (start : ∀ id ∈ ids, inside id) : ∀ id ∈ order, inside id := by
  obtain ⟨rfl, -⟩ := sort_ok sorted
  exact fun id member => visitAll_within closed ids start id (visitAll_left_entered ids id member)

theorem sort_forward (sorted : sort next ids = .ok order) : Forward next order := by
  obtain ⟨rfl, acyclic⟩ := sort_ok sorted
  simp only [cyclic?, Option.or_eq_none_iff, List.find?_eq_none, List.contains_iff_mem] at acyclic
  exact forward_of_backward _ acyclic.2 fun id member =>
    acyclic.1 id (visitAll_left_entered ids id member)

theorem backward_mem (ids : List Nat) {id : Nat} (found : (backward next ids).2 = some id) :
    id ∈ ids := by
  induction ids with
  | nil => simp [backward] at found
  | cons head rest ih =>
    simp only [backward, List.foldr_cons] at found
    split at found
    · simp_all
    · exact List.mem_cons_of_mem _ (ih found)

theorem cyclic_entered {id : Nat} (found : cyclic? next (visitAll next ids) = some id) :
    id ∈ (visitAll next ids).entered.keys := by
  rcases Option.or_eq_some_iff.mp found with direct | ⟨-, back⟩
  · exact List.mem_of_find?_eq_some direct
  · exact visitAll_left_entered ids id (backward_mem _ back)

theorem sort_error {id : Nat} (failed : sort next ids = .error id) :
    cyclic? next (visitAll next ids) = some id := by
  simp only [sort] at failed
  split at failed <;> simp_all

end

end CombLogic.Order
