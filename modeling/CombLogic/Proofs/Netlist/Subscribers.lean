import Mathlib.Data.List.Nodup
import CombLogic.Netlist.Settle
import CombLogic.Proofs.Netlist.Lookup

/- Subscribers. A number is given out once and stands in the list of one leaf, so nobody is called
   twice for one change or for the changes of two leaves. -/
namespace CombLogic.Netlist

/-- Every subscriber has a number of its own. -/
structure Subscribed (g : Netlist) : Prop where
  given : ∀ id, ∀ number ∈ g.subscribersOf id, number < g.nextSubscriber
  once : ∀ id, (g.subscribersOf id).Nodup
  apart : ∀ id other number, number ∈ g.subscribersOf id → number ∈ g.subscribersOf other →
    id = other

variable {g g' : Netlist}

theorem subscribed_empty (limit : Nat) : (empty limit).Subscribed := by
  have none : ∀ id, (empty limit).subscribersOf id = [] := fun id => by simp [subscribersOf, empty]
  refine ⟨fun id => ?_, fun id => ?_, fun id other number => ?_⟩ <;> simp [none]

theorem subscribed_same (lists : ∀ id, g'.subscribersOf id = g.subscribersOf id)
    (next : g'.nextSubscriber = g.nextSubscriber) (subscribed : g.Subscribed) : g'.Subscribed where
  given id number member := next ▸ subscribed.given id number (lists id ▸ member)
  once id := lists id ▸ subscribed.once id
  apart id other number here there :=
    subscribed.apart id other number (lists id ▸ here) (lists other ▸ there)

/-- Leaves that were there keep their subscribers, and new ones have none. -/
theorem subscribersOf_kept (old : ∀ id leaf, g.leaves.get? id = some leaf →
      ∃ leaf', g'.leaves.get? id = some leaf' ∧ leaf'.subscribers = leaf.subscribers)
    (new : ∀ id leaf', g'.leaves.get? id = some leaf' → g.leaves.get? id = none →
      leaf'.subscribers = #[]) (id : LeafId) : g'.subscribersOf id = g.subscribersOf id := by
  unfold subscribersOf
  cases found : g.leaves.get? id with
  | some leaf =>
    obtain ⟨leaf', there, same⟩ := old id leaf found
    simp only [there, same]
  | none =>
    cases there : g'.leaves.get? id with
    | none => rfl
    | some leaf' => simp [new id leaf' there found]

theorem subscribed_addLeaf (name : String) (init : Value) (g : Netlist) (subscribed : g.Subscribed) :
    (addLeaf name init g).2.Subscribed := by
  have lists : ∀ id, (addLeaf name init g).2.subscribersOf id = g.subscribersOf id := by
    refine subscribersOf_kept (fun id leaf found => ?_) fun id leaf' found missing => ?_
    · rw [addLeaf_get, if_neg (Nat.ne_of_lt (g.leaves.lt_size id found))]
      exact ⟨leaf, found, rfl⟩
    · rw [addLeaf_get, missing] at found
      split at found
      · exact Option.some.inj found ▸ rfl
      · cases found
  exact subscribed_same lists rfl subscribed

/-- A leaf with a new subscriber. -/
def withSubscriber (g : Netlist) (id : LeafId) : Netlist :=
  { g.modifyLeaf id fun leaf => { leaf with subscribers := leaf.subscribers.push g.nextSubscriber }
    with nextSubscriber := g.nextSubscriber + 1 }

theorem withSubscriber_get (g : Netlist) (id other : LeafId) :
    (g.withSubscriber id).leaves.get? other = if id = other then
      (g.leaves.get? other).map fun leaf =>
        { leaf with subscribers := leaf.subscribers.push g.nextSubscriber }
      else g.leaves.get? other :=
  g.leaves.get?_modify id other _

theorem subscribersOf_withSubscriber (g : Netlist) (id other : LeafId) :
    (g.withSubscriber id).subscribersOf other =
      if other = id ∧ (g.leaves.get? id).isSome then g.subscribersOf id ++ [g.nextSubscriber]
      else g.subscribersOf other := by
  simp only [subscribersOf, withSubscriber_get]
  by_cases here : id = other
  · subst here
    cases g.leaves.get? id <;> simp
  · simp [here, Ne.symm here]

theorem mem_withSubscriber {id other : LeafId} {number : Nat}
    (member : number ∈ (g.withSubscriber id).subscribersOf other) :
    number ∈ g.subscribersOf other ∨ number = g.nextSubscriber ∧ other = id := by
  rw [subscribersOf_withSubscriber] at member
  split at member
  · rename_i here
    obtain ⟨rfl, -⟩ := here
    exact (List.mem_append.mp member).imp_right fun last => ⟨List.mem_singleton.mp last, rfl⟩
  · exact .inl member

theorem subscribed_withSubscriber (id : LeafId) (subscribed : g.Subscribed) :
    (g.withSubscriber id).Subscribed where
  given other number member := by
    rcases mem_withSubscriber member with old | ⟨rfl, -⟩
    · exact Nat.lt_succ_of_lt (subscribed.given other number old)
    · exact Nat.lt_succ_self _
  once other := by
    rw [subscribersOf_withSubscriber]
    split
    · refine List.Nodup.append (subscribed.once id) (List.nodup_singleton _) fun number old last => ?_
      exact Nat.ne_of_lt (subscribed.given id number old) (List.mem_singleton.mp last)
    · exact subscribed.once other
  apart one other number here there := by
    rcases mem_withSubscriber here with old | ⟨rfl, rfl⟩
    · rcases mem_withSubscriber there with old' | ⟨rfl, rfl⟩
      · exact subscribed.apart one other number old old'
      · exact (Nat.lt_irrefl _ (subscribed.given _ _ old)).elim
    · rcases mem_withSubscriber there with old | ⟨-, rfl⟩
      · exact (Nat.lt_irrefl _ (subscribed.given _ _ old)).elim
      · rfl

end CombLogic.Netlist
