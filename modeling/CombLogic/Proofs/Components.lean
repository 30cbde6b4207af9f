import CombLogic.Netlist.Settle
import CombLogic.Proofs.Cycles

/- Strongly connected components. Those of a graph are the classes of nodes that lead to each other,
   and every node is in one. A pass that finds no order reports the component of a node on a cycle. -/
namespace CombLogic

namespace Order

variable {next : Nat → List Nat}

theorem mem_pointed (targets : List Nat) (id : Nat) (found : Std.TreeMap Nat (List Nat))
    (other target : Nat) :
    other ∈ (targets.foldl (fun found target => found.insert target (id :: found.getD target []))
        found).getD target [] ↔
      other ∈ found.getD target [] ∨ other = id ∧ target ∈ targets := by
  induction targets generalizing found with
  | nil => simp
  | cons first rest ih =>
    simp only [List.foldl_cons, ih, Std.TreeMap.getD_insert, Std.LawfulEqCmp.compare_eq_iff_eq]
    by_cases same : first = target
    · subst same
      simp only [if_pos, List.mem_cons, true_or, and_true]
      tauto
    · simp only [if_neg same, List.mem_cons, Ne.symm same, false_or]

theorem mem_sources (ids : List Nat) (id target : Nat) :
    id ∈ (sources next ids).getD target [] ↔ id ∈ ids ∧ target ∈ next id := by
  have grown : ∀ found : Std.TreeMap Nat (List Nat),
      id ∈ (ids.foldl (fun found id => (next id).foldl (fun found target =>
        found.insert target (id :: found.getD target [])) found) found).getD target [] ↔
      id ∈ found.getD target [] ∨ id ∈ ids ∧ target ∈ next id := by
    induction ids with
    | nil => simp
    | cons first rest ih =>
      intro found
      rw [List.foldl_cons, ih, mem_pointed, List.mem_cons, or_assoc]
      refine or_congr_right ?_
      constructor
      · rintro (⟨rfl, edge⟩ | ⟨later, edge⟩)
        · exact ⟨.inl rfl, edge⟩
        · exact ⟨.inr later, edge⟩
      · rintro ⟨rfl | later, edge⟩
        · exact .inl ⟨rfl, edge⟩
        · exact .inr ⟨later, edge⟩
  simpa [sources] using grown {}

theorem mem_untaken {ids : List Nat} {taken : IdSet} {id target : Nat} :
    id ∈ untaken ((sources next ids).getD · []) taken target ↔
      id ∈ ids ∧ target ∈ next id ∧ id ∉ taken := by
  simp [untaken, mem_sources, ← Bool.not_eq_true, Std.TreeSet.contains_iff_mem, and_assoc]

/-- Each leads to the other. -/
def Together (next : Nat → List Nat) (id other : Nat) : Prop :=
  Walk next id other ∧ Walk next other id

/-- All nodes that lead to a node and back. -/
def IsComponent (next : Nat → List Nat) (part : List Nat) : Prop :=
  ∃ id, ∀ other, other ∈ part ↔ Together next id other

theorem IsComponent.mem_iff {part : List Nat} (component : IsComponent next part) {id : Nat}
    (member : id ∈ part) (other : Nat) : other ∈ part ↔ Together next id other := by
  obtain ⟨first, all⟩ := component
  obtain ⟨out, back⟩ := (all id).mp member
  rw [all]
  constructor
  · rintro ⟨there, home⟩
    exact ⟨back.trans there, home.trans out⟩
  · rintro ⟨there, home⟩
    exact ⟨out.trans there, home.trans back⟩

/-- The state of the search for components before the given nodes. -/
structure Gathering (next : Nat → List Nat) (ids rest : List Nat) (found : Gathered) : Prop where
  component : ∀ part ∈ found.components, IsComponent next part
  taken : ∀ id, id ∈ found.taken ↔ ∃ part ∈ found.components, id ∈ part
  /-- What leads to a component is in one, too. -/
  back : ∀ id ∈ ids, ∀ target ∈ next id, target ∈ found.taken → id ∈ found.taken
  rest : ∀ id ∈ ids, id ∈ found.taken ∨ id ∈ rest

variable {ids rest : List Nat} {found : Gathered} {id : Nat}

theorem Gathering.rest_cases (gathering : Gathering next ids (id :: rest) found) {other : Nat}
    (inside : other ∈ ids) : other ∈ found.taken ∨ other = id ∨ other ∈ rest :=
  (gathering.rest other inside).imp_right List.mem_cons.mp

variable (closed : Closed next (· ∈ ids))

include closed

theorem Gathering.walk_back (gathering : Gathering next ids rest found) {target : Nat} (here : id ∈ ids)
    (walk : Walk next id target) (known : target ∈ found.taken) : id ∈ found.taken := by
  induction walk using Relation.ReflTransGen.head_induction_on with
  | refl => exact known
  | head edge _ ih => exact gathering.back _ here _ edge (ih (closed _ here _ edge))

section

variable (gathering : Gathering next ids (id :: rest) found) (here : id ∈ ids)
  (fresh : id ∉ found.taken)

include gathering here fresh

/-- Back along the edges between nodes that are in no component yet. -/
theorem walk_untaken (other : Nat) :
    Walk (untaken ((sources next ids).getD · []) found.taken) id other ↔
      other ∈ ids ∧ other ∉ found.taken ∧ Walk next other id := by
  constructor
  · intro walk
    induction walk with
    | refl => exact ⟨here, fresh, .refl⟩
    | tail _ edge ih =>
      obtain ⟨inside, edge, free⟩ := mem_untaken.mp edge
      exact ⟨inside, free, .head edge ih.2.2⟩
  · rintro ⟨inside, free, walk⟩
    induction walk using Relation.ReflTransGen.head_induction_on with
    | refl => exact .refl
    | head edge _ ih =>
      have later := ih (closed _ inside _ edge) fun known =>
        free (gathering.back _ inside _ edge known)
      exact later.tail (mem_untaken.mpr ⟨inside, edge, free⟩)

/-- What leads to the node that is left last among those in no component is reached from it: along
    the way there is no node that was left before this one was entered. -/
theorem together_iff (post : Postorder next (id :: rest)) (other : Nat) :
    other ∈ ids ∧ other ∉ found.taken ∧ Walk next other id ↔ Together next id other := by
  constructor
  · rintro ⟨inside, free, walk⟩
    obtain ⟨earlier, apart, reached, still⟩ := post.1
    have late : other ∉ earlier := by
      clear reached
      induction walk using Relation.ReflTransGen.head_induction_on with
      | refl => exact apart
      | head edge _ ih =>
        have onward := closed _ inside _ edge
        have untaken := fun known => free (gathering.back _ inside _ edge known)
        intro early
        rcases still _ early _ edge with again | away
        · exact ih onward untaken again
        · exact away ((gathering.rest _ onward).resolve_left untaken)
    refine ⟨?_, walk⟩
    rcases (gathering.rest_cases inside).resolve_left free with rfl | later
    · exact .refl
    · exact (reached other later).resolve_left late
  · rintro ⟨there, walk⟩
    exact ⟨walk_within closed there here,
      fun known => fresh (gathering.walk_back closed here there known), walk⟩

theorem mem_component (post : Postorder next (id :: rest)) (other : Nat) :
    other ∈ component ((sources next ids).getD · []) ids.length found.taken id ↔
      Together next id other := by
  have inside : Closed (untaken ((sources next ids).getD · []) found.taken) (· ∈ ids) :=
    fun _ _ source edge => (mem_untaken.mp edge).1
  have start : ∀ seed ∈ (OrderedSet.ofList [id]).keys, seed ∈ ids := by
    simpa [OrderedSet.keys_ofList] using here
  rw [component, mem_reachable ids inside start (Nat.le_refl _)]
  simp [OrderedSet.keys_ofList, walk_untaken closed gathering here fresh,
    together_iff closed gathering here fresh post]

theorem gather_fresh (post : Postorder next (id :: rest)) :
    Gathering next ids rest (gather ((sources next ids).getD · []) ids.length found id) := by
  have member := mem_component closed gathering here fresh post
  rw [gather, if_neg (by simpa using fresh)]
  generalize component ((sources next ids).getD · []) ids.length found.taken id = part at member
  have taken : ∀ other, other ∈ found.taken.addAll part ↔
      other ∈ found.taken ∨ Together next id other := by
    simp [← member, IdSet.mem_addAll]
  refine ⟨fun one listed => ?_, fun other => ?_, fun other inside target edge known => ?_,
    fun other inside => ?_⟩
  · rcases List.mem_cons.mp listed with rfl | listed
    · exact ⟨id, member⟩
    · exact gathering.component one listed
  · rw [taken, gathering.taken, ← member]
    simp [or_comm]
  · rw [taken] at known ⊢
    rcases known with known | ⟨-, walk⟩
    · exact .inl (gathering.back other inside target edge known)
    · refine or_iff_not_imp_left.mpr fun free => ?_
      exact (together_iff closed gathering here fresh post other).mp ⟨inside, free, .head edge walk⟩
  · have self : Together next id id := ⟨.refl, .refl⟩
    rw [taken]
    rcases gathering.rest_cases inside with known | rfl | later
    · exact .inl (.inl known)
    · exact .inl (.inr self)
    · exact .inr later

end

theorem gather_step (gathering : Gathering next ids (id :: rest) found) (here : id ∈ ids)
    (post : Postorder next (id :: rest)) :
    Gathering next ids rest (gather ((sources next ids).getD · []) ids.length found id) := by
  by_cases known : id ∈ found.taken
  · rw [gather, if_pos (by simpa using known)]
    refine { gathering with rest := fun other inside => ?_ }
    rcases gathering.rest_cases inside with taken | rfl | later
    · exact .inl taken
    · exact .inl known
    · exact .inr later
  · exact gather_fresh closed gathering here known post

theorem gather_all (gathering : Gathering next ids rest found) (inside : ∀ id ∈ rest, id ∈ ids)
    (post : Postorder next rest) : Gathering next ids []
      (rest.foldl (gather ((sources next ids).getD · []) ids.length) found) := by
  induction rest generalizing found with
  | nil => exact gathering
  | cons id rest ih =>
    exact ih (gather_step closed gathering (inside id (by simp)) post)
      (fun other later => inside other (by simp [later])) post.2

/-- Every part is a component, and every node is in one. -/
theorem components_exact : (∀ part ∈ components next ids, IsComponent next part) ∧
    ∀ id ∈ ids, ∃ part ∈ components next ids, id ∈ part := by
  have searched := visitAll_searched closed
  have start : Gathering next ids (visitAll next ids).left ⟨[], {}⟩ :=
    ⟨by simp, by simp, by simp, fun id here => .inr (visitAll_lists ids id here)⟩
  have done := gather_all closed start
    (fun id left => searched.within id (searched.left id left)) searched.post
  refine ⟨done.component, fun id here => (done.taken id).mp ?_⟩
  simpa using done.rest id here

end Order

namespace Netlist

variable {g : Netlist} {ids part : List LeafId} {start : LeafId}

theorem isCyclic_of_onCycle (component : Order.IsComponent g.readersOf part) (member : start ∈ part)
    (around : Order.OnCycle g.readersOf start) : g.isCyclic part = true := by
  match part with
  | [id] =>
    obtain rfl : start = id := by simpa using member
    obtain ⟨target, edge, walk⟩ := Relation.TransGen.head'_iff.mp around
    have there := (component.mem_iff member target).mpr ⟨.single edge, walk⟩
    obtain rfl : target = start := by simpa using there
    simpa [isCyclic, Order.Edge] using edge
  | _ :: _ :: _ => simp [isCyclic]

section

variable (closed : Order.Closed g.readersOf (· ∈ ids)) (here : start ∈ ids)
  (around : Order.OnCycle g.readersOf start)

include closed here around

/-- The search among the cyclic components finds one, and needs no other. -/
theorem holding_component : ∃ part, ((Order.components g.readersOf ids).filter g.isCyclic).find?
    (·.contains start) = some part ∧ Order.IsComponent g.readersOf part ∧ start ∈ part := by
  obtain ⟨classes, covered⟩ := Order.components_exact closed
  obtain ⟨own, listed, member⟩ := covered start here
  have cyclic := isCyclic_of_onCycle (classes own listed) member around
  cases found : ((Order.components g.readersOf ids).filter g.isCyclic).find?
      (·.contains start) with
  | none =>
    have missing := List.find?_eq_none.mp found own (List.mem_filter.mpr ⟨listed, cyclic⟩)
    exact (missing (by simpa using member)).elim
  | some part =>
    have among := List.mem_of_mem_filter (List.mem_of_find?_eq_some found)
    exact ⟨part, rfl, classes part among, by simpa using List.find?_some found⟩

/-- What is reported for a node on a cycle is its component. -/
theorem mem_loopOf (other : LeafId) :
    other ∈ g.loopOf ids start ↔ Order.Together g.readersOf start other := by
  obtain ⟨part, found, component, inside⟩ := holding_component closed here around
  rw [loopOf, found, IdSet.mem_toList_ofList]
  exact component.mem_iff inside other

end

theorem loopOf_ascending (g : Netlist) (ids : List LeafId) (start : LeafId) :
    (g.loopOf ids start).Pairwise (· < ·) :=
  Std.TreeSet.ordered_toList.imp fun less => Nat.compare_eq_lt.mp less

end Netlist

end CombLogic
