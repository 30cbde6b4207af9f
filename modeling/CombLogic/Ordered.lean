import Std.Data.TreeMap
import Std.Data.TreeSet

/- Maps and sets over numbers that remember in which order their keys first came. The keys are kept
   twice, in their order and in a search tree, so that every step is fast; a map holds the proof
   that both list the same keys, each once. -/
namespace CombLogic

/-- A set of numbers, listed in ascending order. -/
abbrev IdSet := Std.TreeSet Nat

namespace IdSet

def add (s : IdSet) (id : Nat) : IdSet := if s.contains id then s else s.insert id

def addAll (s : IdSet) (ids : List Nat) : IdSet := ids.foldl add s

def ofList (ids : List Nat) : IdSet := addAll {} ids

end IdSet

structure OrderedMap (α : Type) where
  order : Array Nat
  values : Std.TreeMap Nat α
  mem_order : ∀ {key : Nat}, key ∈ order ↔ key ∈ values
  nodup_order : order.toList.Nodup

namespace OrderedMap

variable {α : Type}

def empty : OrderedMap α := ⟨#[], {}, by simp, by simp⟩

def get? (m : OrderedMap α) (key : Nat) : Option α := m.values[key]?

def contains (m : OrderedMap α) (key : Nat) : Bool := m.values.contains key

def keys (m : OrderedMap α) : List Nat := m.order.toList

def size (m : OrderedMap α) : Nat := m.order.size

def isEmpty (m : OrderedMap α) : Bool := m.order.isEmpty

/-- Keys with their values. -/
def entries (m : OrderedMap α) : List (Nat × α) :=
  m.keys.filterMap fun key => (m.get? key).map (key, ·)

/-- A key that is there already keeps its place and takes the new value. -/
def insert (m : OrderedMap α) (key : Nat) (value : α) : OrderedMap α :=
  if held : key ∈ m.values then
    ⟨m.order, m.values.insert key value, by
      intro other
      rw [m.mem_order, Std.TreeMap.mem_insert, Std.LawfulEqCmp.compare_eq_iff_eq]
      exact ⟨.inr, fun h => h.elim (fun same => same ▸ held) id⟩, m.nodup_order⟩
  else
    ⟨m.order.push key, m.values.insert key value, by
      intro other
      rw [Array.mem_push, m.mem_order, Std.TreeMap.mem_insert,
        Std.LawfulEqCmp.compare_eq_iff_eq, or_comm, eq_comm], by
      rw [Array.toList_push, List.nodup_append]
      refine ⟨m.nodup_order, by simp, fun other member last same => ?_⟩
      obtain rfl : last = key := by simpa using same
      exact fun h => held (h ▸ m.mem_order.1 (Array.mem_def.2 member))⟩

end OrderedMap

/-- A set that remembers in which order its members came. -/
abbrev OrderedSet := OrderedMap Unit

namespace OrderedSet

def empty : OrderedSet := OrderedMap.empty

def add (s : OrderedSet) (id : Nat) : OrderedSet := if s.contains id then s else s.insert id ()

def addAll (s : OrderedSet) (ids : List Nat) : OrderedSet := ids.foldl add s

def ofList (ids : List Nat) : OrderedSet := empty.addAll ids

end OrderedSet

end CombLogic
