import Mathlib.Logic.Relation
import CombLogic.Proofs.Order

/- Cycles in a graph of numbers. A sort fails exactly where there is a cycle, and then gives a node on
   one. -/
namespace CombLogic.Order

variable {next : Nat → List Nat}

def Edge (next : Nat → List Nat) (id target : Nat) : Prop := target ∈ next id

/-- Along any number of edges. -/
def Walk (next : Nat → List Nat) : Nat → Nat → Prop := Relation.ReflTransGen (Edge next)

/-- Along at least one edge, back to the start. -/
def OnCycle (next : Nat → List Nat) (id : Nat) : Prop := Relation.TransGen (Edge next) id id

theorem walk_within {inside : Nat → Prop} (closed : Closed next inside) {id target : Nat}
    (walk : Walk next id target) (start : inside id) : inside target := by
  induction walk with
  | refl => exact start
  | tail _ edge ih => exact closed _ ih _ edge

/-- The walk finds exactly what can be reached. -/
theorem mem_reachable (ids : List Nat) (closed : Closed next (· ∈ ids)) {seeds : OrderedSet}
    (start : ∀ id ∈ seeds.keys, id ∈ ids) {size : Nat} (enough : ids.length ≤ size) (id : Nat) :
    id ∈ (reachable next size seeds).keys ↔ ∃ seed ∈ seeds.keys, Walk next seed id := by
  constructor
  · have closed : Closed next fun id => ∃ seed ∈ seeds.keys, Walk next seed id :=
      fun id ⟨seed, first, walk⟩ target edge => ⟨seed, first, walk.tail edge⟩
    exact reachable_within closed (fun seed first => ⟨seed, first, .refl⟩) id
  · rintro ⟨seed, first, walk⟩
    exact walk_within (reachable_closed ids closed start enough) walk (seed_reachable first)

section Postorder

/-- Nodes in the order in which they were left, the last one first. Of those left before a node, some
    were left before it was entered; no edge leads from them to nodes that were entered later. It leads
    to all the others. -/
def Postorder (next : Nat → List Nat) : List Nat → Prop
  | [] => True
  | id :: rest => (∃ earlier : List Nat, id ∉ earlier ∧
      (∀ other ∈ rest, other ∈ earlier ∨ Walk next id other) ∧
      ∀ other ∈ earlier, ∀ target ∈ next other, target ∈ earlier ∨ target ∉ id :: rest) ∧
    Postorder next rest

theorem postorder_suffix {before rest : List Nat} (post : Postorder next (before ++ rest)) :
    Postorder next rest := by
  induction before with
  | nil => exact post
  | cons id before ih => exact ih post.2

/-- The state of a search between two visits. -/
structure Searched (next : Nat → List Nat) (ids : List Nat) (v : Visit) : Prop where
  within : ∀ id ∈ v.entered.keys, id ∈ ids
  left : ∀ id ∈ v.left, id ∈ v.entered.keys
  nodup : v.left.Nodup
  /-- A node is left when all its successors are entered. -/
  entered : ∀ id ∈ v.left, ∀ target ∈ next id, target ∈ v.entered.keys
  post : Postorder next v.left

variable {ids : List Nat} {v w : Visit}

theorem length_visited (visited : Visited v w) : v.entered.keys.length ≤ w.entered.keys.length :=
  (List.subperm_of_subset v.entered.nodup_keys visited.entered_kept).length_le

theorem foldl_walk {f : Visit → Nat → Visit}
    (step : ∀ v id, ∀ other ∈ (f v id).left, other ∈ v.left ∨ Walk next id other)
    (targets : List Nat) (v : Visit) : ∀ other ∈ (targets.foldl f v).left,
      other ∈ v.left ∨ ∃ id ∈ targets, Walk next id other := by
  induction targets generalizing v with
  | nil => exact fun other left => .inl left
  | cons id rest ih =>
    intro other left
    rcases ih (f v id) other left with before | ⟨target, later, walk⟩
    · exact (step v id other before).imp_right fun walk => ⟨id, by simp, walk⟩
    · exact .inr ⟨target, by simp [later], walk⟩

/-- A visit leaves nodes only to which its start leads. -/
theorem visit_walk (depth : Nat) (v : Visit) (id : Nat) :
    ∀ other ∈ (visit next depth v id).left, other ∈ v.left ∨ Walk next id other := by
  induction depth generalizing v id with
  | zero => exact fun other left => .inl left
  | succ depth ih =>
    simp only [visit]
    split
    · exact fun other left => .inl left
    · intro other left
      rcases List.mem_cons.mp left with rfl | left
      · exact .inr .refl
      · rcases foldl_walk ih (next id) _ other left with before | ⟨target, edge, walk⟩
        · exact .inl before
        · exact .inr (.head edge walk)

theorem visit_enters {depth id : Nat} (within : ∀ id ∈ v.entered.keys, id ∈ ids) (here : id ∈ ids)
    (enough : ids.length ≤ v.entered.keys.length + depth) :
    id ∈ (visit next depth v id).entered.keys := by
  cases depth with
  | zero =>
    have all := (List.subperm_of_subset v.entered.nodup_keys within).perm_of_length_le enough
    exact all.mem_iff.mpr here
  | succ depth =>
    simp only [visit]
    split
    · rename_i known
      exact (OrderedMap.contains_iff _ _).mp known
    · exact (foldl_visited (fun v id => visit_visited depth v id) (next id) _).entered_kept id
        ((OrderedSet.mem_add _ _ _).mpr (.inr rfl))

theorem foldl_searched {depth : Nat}
    (step : ∀ v id, Searched next ids v → id ∈ ids →
      ids.length ≤ v.entered.keys.length + depth → Searched next ids (visit next depth v id))
    (targets : List Nat) (inside : ∀ id ∈ targets, id ∈ ids) (v : Visit)
    (searched : Searched next ids v) (enough : ids.length ≤ v.entered.keys.length + depth) :
    Searched next ids (targets.foldl (visit next depth) v) ∧
      ∀ id ∈ targets, id ∈ (targets.foldl (visit next depth) v).entered.keys := by
  induction targets generalizing v with
  | nil => exact ⟨searched, by simp⟩
  | cons id rest ih =>
    have here := inside id (by simp)
    have visited : Visited v (visit next depth v id) := visit_visited depth v id
    have longer := length_visited visited
    obtain ⟨after, entered⟩ := ih (fun other later => inside other (by simp [later])) _
      (step v id searched here enough) (by omega)
    refine ⟨after, fun other member => ?_⟩
    rcases List.mem_cons.mp member with rfl | later
    · exact (foldl_visited (fun v id => visit_visited depth v id) rest _).entered_kept _
        (visit_enters searched.within here enough)
    · exact entered other later

theorem mem_opened (v : Visit) (id other : Nat) :
    other ∈ (v.entered.add id).keys ↔ other ∈ v.entered.keys ∨ other = id :=
  OrderedSet.mem_add v.entered id other

/-- A node is entered before its successors are visited. -/
theorem searched_opened (searched : Searched next ids v) {id : Nat} (here : id ∈ ids) :
    Searched next ids { v with entered := v.entered.add id } where
  within other member := by
    rcases (mem_opened v id other).mp member with old | rfl
    · exact searched.within other old
    · exact here
  left other left := (mem_opened v id other).mpr (.inl (searched.left other left))
  nodup := searched.nodup
  entered other left target edge :=
    (mem_opened v id target).mpr (.inl (searched.entered other left target edge))
  post := searched.post

/-- What was left before a node was entered has no edge to it: its successors were entered then. -/
theorem postorder_left (searched : Searched next ids v) {id : Nat} (unseen : id ∉ v.entered.keys)
    (visited : Visited { v with entered := v.entered.add id } w)
    (walks : ∀ other ∈ w.left, other ∈ v.left ∨ Walk next id other)
    (post : Postorder next w.left) : Postorder next (id :: w.left) := by
  refine ⟨⟨v.left, fun left => unseen (searched.left id left), walks, ?_⟩, post⟩
  intro other left target edge
  have known := searched.entered other left target edge
  -- a successor that was not left by then is still being visited now
  refine (em (target ∈ v.left)).imp_right fun unfinished member => ?_
  rcases List.mem_cons.mp member with rfl | member
  · exact unseen known
  · exact visited.unleft target ((mem_opened v id target).mpr (.inl known)) unfinished member

theorem visit_searched (closed : Closed next (· ∈ ids)) (depth : Nat) (v : Visit) (id : Nat)
    (searched : Searched next ids v) (here : id ∈ ids)
    (enough : ids.length ≤ v.entered.keys.length + depth) :
    Searched next ids (visit next depth v id) := by
  induction depth generalizing v id with
  | zero => exact searched
  | succ depth ih =>
    simp only [visit]
    split
    · exact searched
    · rename_i unseen
      have unseen : id ∉ v.entered.keys := fun known =>
        unseen ((OrderedMap.contains_iff _ _).mpr known)
      let opened : Visit := { v with entered := v.entered.add id }
      have longer : opened.entered.keys.length = v.entered.keys.length + 1 := by
        simp [opened, OrderedSet.keys_add, unseen]
      have visited : Visited opened ((next id).foldl (visit next depth) opened) :=
        foldl_visited (visit_visited depth) (next id) opened
      obtain ⟨after, targets⟩ := foldl_searched ih (next id) (closed id here) opened
        (searched_opened searched here) (by omega)
      have entered : id ∈ opened.entered.keys := (mem_opened v id id).mpr (.inr rfl)
      have still := visited.unleft id entered fun left => unseen (searched.left id left)
      refine ⟨after.within, fun other left => ?_, List.nodup_cons.mpr ⟨still, after.nodup⟩,
        fun other left => ?_, postorder_left searched unseen visited (fun other left => ?_) after.post⟩
      · rcases List.mem_cons.mp left with rfl | left
        · exact visited.entered_kept _ entered
        · exact after.left other left
      · rcases List.mem_cons.mp left with rfl | left
        · exact targets
        · exact after.entered other left
      · rcases foldl_walk (visit_walk depth) (next id) opened other left with before | reached
        · exact .inl before
        · obtain ⟨target, edge, walk⟩ := reached
          exact .inr (.head edge walk)

theorem visitAll_searched (closed : Closed next (· ∈ ids)) :
    Searched next ids (visitAll next ids) := by
  have empty : Searched next ids ⟨.empty, []⟩ := by
    refine ⟨?_, ?_, List.nodup_nil, ?_, trivial⟩ <;> simp [OrderedSet.empty]
  exact (foldl_searched (visit_searched closed ids.length) ids (fun _ here => here) _ empty
    (by omega)).1

end Postorder

theorem backward_split {ids : List Nat} {id : Nat} (found : (backward next ids).2 = some id) :
    ∃ before later, ids = before ++ id :: later ∧ ∃ other ∈ later, id ∈ next other := by
  induction ids with
  | nil => simp [backward] at found
  | cons head rest ih =>
    simp only [backward, List.foldr_cons] at found
    split at found
    · rename_i seen
      obtain rfl : head = id := by simpa using found
      exact ⟨[], rest, rfl, (mem_backward rest head).mp seen⟩
    · obtain ⟨before, later, split, back⟩ := ih found
      exact ⟨head :: before, later, by simp [split], back⟩

/-- An edge that points back to a node closes a cycle. -/
theorem cyclic_onCycle {ids : List Nat} (closed : Closed next (· ∈ ids)) {id : Nat}
    (found : cyclic? next (visitAll next ids) = some id) : OnCycle next id := by
  rcases Option.or_eq_some_iff.mp found with direct | ⟨-, back⟩
  · exact .single (by simpa [Edge] using List.find?_some direct)
  · obtain ⟨before, later, split, other, member, edge⟩ := backward_split back
    have post := (visitAll_searched closed).post
    rw [split] at post
    obtain ⟨earlier, apart, reached, still⟩ := (postorder_suffix post).1
    rcases reached other member with left | walk
    · rcases still other left id edge with again | away
      · exact (apart again).elim
      · exact (away (by simp)).elim
    · exact .tail' walk edge

/-- An order in which all edges point forward leaves no cycle among its nodes. -/
theorem forward_onCycle {ids order : List Nat} (closed : Closed next (· ∈ ids))
    (forward : Forward next order) (listed : ∀ id ∈ ids, id ∈ order) :
    ∀ id ∈ ids, ¬OnCycle next id := by
  classical
  intro id here around
  let nodes := ids.filter fun other => Walk next id other ∧ Walk next other id
  have member : ∀ other, other ∈ nodes ↔
      other ∈ ids ∧ Walk next id other ∧ Walk next other id := by simp [nodes]
  have start : id ∈ nodes := (member id).mpr ⟨here, .refl, .refl⟩
  have sources : ∀ other ∈ nodes, ∃ d ∈ nodes, other ∈ next d := by
    intro other inside
    obtain ⟨-, there, back⟩ := (member other).mp inside
    have onward : OnCycle next other := .trans_right back (around.trans_left there)
    obtain ⟨d, walk, edge⟩ := Relation.TransGen.tail'_iff.mp onward
    have inside : d ∈ ids := walk_within closed (there.trans walk) here
    exact ⟨d, (member d).mpr ⟨inside, there.trans walk, .head edge back⟩, edge⟩
  have none := forward_acyclic forward sources fun other inside =>
    listed other ((member other).mp inside).1
  exact List.not_mem_nil (none ▸ start)

theorem sort_nodup {ids order : List Nat} (closed : Closed next (· ∈ ids))
    (sorted : sort next ids = .ok order) : order.Nodup := by
  obtain ⟨rfl, -⟩ := sort_ok sorted
  exact (visitAll_searched closed).nodup

/-- In a part of a list nothing moves ahead of what it was behind. -/
theorem sublist_behind {order part : List Nat} (nodup : order.Nodup) (sub : part.Sublist order)
    {i j a b : Nat} (here : part[i]? = some a) (there : part[j]? = some b)
    (behind : order.idxOf a < order.idxOf b) : i < j := by
  have ranked : order.Pairwise fun a b => order.idxOf a < order.idxOf b := by
    rw [List.pairwise_iff_getElem]
    intro i j first second before
    rwa [nodup.idxOf_getElem, nodup.idxOf_getElem]
  have ranked := List.pairwise_iff_getElem.mp (ranked.sublist sub)
  obtain ⟨first, rfl⟩ := List.getElem?_eq_some_iff.mp here
  obtain ⟨second, rfl⟩ := List.getElem?_eq_some_iff.mp there
  rcases Nat.lt_trichotomy i j with before | rfl | after
  · exact before
  · exact (Nat.lt_irrefl _ behind).elim
  · exact (Nat.lt_asymm behind (ranked j i second first after)).elim

/-- What a node leads to stands behind it. -/
theorem forward_walk {order : List Nat} (closed : Closed next (· ∈ order))
    (forward : Forward next order) {a b : Nat} (start : a ∈ order)
    (walk : Relation.TransGen (Edge next) a b) : b ∈ order ∧ order.idxOf a < order.idxOf b := by
  induction walk with
  | single edge =>
    have target := closed a start _ edge
    exact ⟨target, forward_idxOf forward start target edge⟩
  | tail _ edge ih =>
    obtain ⟨between, behind⟩ := ih
    have target := closed _ between _ edge
    exact ⟨target, Nat.lt_trans behind (forward_idxOf forward between target edge)⟩

section Sorting

variable {ids : List Nat} (closed : Closed next (· ∈ ids))

include closed

theorem sort_onCycle {id : Nat} (failed : sort next ids = .error id) :
    id ∈ ids ∧ OnCycle next id :=
  ⟨visitAll_within closed ids (fun _ here => here) id (cyclic_entered (sort_error failed)),
    cyclic_onCycle closed (sort_error failed)⟩

/-- A sort fails exactly where there is a cycle. -/
theorem sort_fails_iff : (∃ id, sort next ids = .error id) ↔ ∃ id ∈ ids, OnCycle next id := by
  cases sorted : sort next ids with
  | ok order =>
    have none := forward_onCycle closed (sort_forward sorted) (sort_lists sorted)
    simpa using none
  | error id => exact iff_of_true ⟨id, rfl⟩ ⟨id, sort_onCycle closed sorted⟩

end Sorting

end CombLogic.Order
