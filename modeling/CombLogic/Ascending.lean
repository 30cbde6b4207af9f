/- Sets of numbers kept as arrays in ascending order. A number that is larger than all the others is
   added at the end; that is where most numbers come. -/
namespace CombLogic

structure Ascending where
  ids : Array Nat
  ascending : ids.toList.Pairwise (· < ·)

namespace Ascending

def empty : Ascending := ⟨#[], by simp⟩

instance : Inhabited Ascending := ⟨empty⟩

def toList (s : Ascending) : List Nat := s.ids.toList

theorem le_of_back {ids : Array Nat} (ascending : ids.toList.Pairwise (· < ·)) {last id : Nat}
    (back : ids.back? = some last) (member : id ∈ ids.toList) : id ≤ last := by
  obtain ⟨before, rfl⟩ := Array.back?_eq_some_iff.1 back
  simp only [Array.toList_push, List.pairwise_append, List.mem_append, List.mem_singleton]
    at ascending member
  rcases member with member | rfl
  · exact Nat.le_of_lt (ascending.2.2 id member last rfl)
  · exact Nat.le_refl id

/-- Adds a number above the last one. -/
def push (s : Ascending) (id : Nat) (above : ∀ last ∈ s.ids.back?, last < id) : Ascending where
  ids := s.ids.push id
  ascending := by
    rw [Array.toList_push, List.pairwise_append]
    refine ⟨s.ascending, by simp, fun other member last same => ?_⟩
    obtain rfl : last = id := by simpa using same
    cases back : s.ids.back? with
    | none => simp_all
    | some top => exact Nat.lt_of_le_of_lt (le_of_back s.ascending back member) (above top back)

/-- Adds a number in its place. -/
def place (s : Ascending) (id : Nat) : Ascending where
  ids := (s.ids.filter (· < id)).push id ++ s.ids.filter (id < ·)
  ascending := by
    simp only [Array.toList_append, Array.toList_push, Array.toList_filter]
    rw [List.pairwise_append, List.pairwise_append]
    refine ⟨⟨s.ascending.filter _, by simp, by simp⟩, s.ascending.filter _, ?_⟩
    intro low before high after
    simp only [List.mem_append, List.mem_filter, List.mem_singleton, decide_eq_true_eq]
      at before after
    omega

def insert (s : Ascending) (id : Nat) : Ascending :=
  if above : ∀ last ∈ s.ids.back?, last < id then s.push id above
  else if s.ids.back? = some id then s
  else s.place id

end Ascending

end CombLogic
