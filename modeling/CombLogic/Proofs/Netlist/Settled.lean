import Mathlib.Order.WellFoundedSet
import CombLogic.Proofs.Netlist.Loops
import CombLogic.Proofs.Shared

/- Netlists in which no driver waits for a pass. They have no loop, so what holds of a leaf whenever it
   holds of all that its driver reads holds of every leaf; and the values of the leaves that nothing
   drives decide all others. -/
namespace CombLogic.Netlist

open Expr

variable {g h : Netlist} {made : List ConflictCheck} {K : Set Expr}

theorem loop_of_transGen {id : LeafId} (path : Relation.TransGen g.DependsOn id id) :
    ∃ ids, g.Loop ids := by
  obtain ⟨next, edge, rest⟩ := Relation.TransGen.head'_iff.mp path
  obtain ⟨others, chain, last⟩ := List.exists_isChain_cons_of_relationReflTransGen rest
  refine ⟨id :: (next :: others).dropLast, ?_⟩
  have whole : (next :: others).dropLast ++ [id] = next :: others := by
    rw [← last]
    exact List.dropLast_append_getLast _
  rw [Loop, List.cons_append, whole]
  exact List.IsChain.cons_cons edge chain

/-- Where no leaf waits, dependencies are well-founded. -/
theorem clean_induction (wait : g.LoopsWait) (clean : g.dirty.keys = []) {p : LeafId → Prop}
    (step : ∀ id, (∀ d, g.DependsOn id d → p d) → p id) (id : LeafId) : p id := by
  let before : LeafId → LeafId → Prop := fun d id => Relation.TransGen g.DependsOn id d
  have acyclic : Std.Irrefl before := by
    refine ⟨fun id path => ?_⟩
    obtain ⟨ids, loop⟩ := loop_of_transGen path
    obtain ⟨other, -, dirty⟩ := wait ids loop
    simp [clean] at dirty
  have trans : IsTrans LeafId before := ⟨fun _ _ _ first second => second.trans first⟩
  have order : IsStrictOrder LeafId before := { }
  have founded : (Set.Iio g.leaves.size).WellFoundedOn before :=
    (Set.finite_Iio g.leaves.size).wellFoundedOn
  have absent : ∀ id, ¬id < g.leaves.size → p id := by
    rintro id outside
    refine step id fun d edge => ?_
    obtain ⟨leaf, e, found, -⟩ := edge
    exact (outside (g.leaves.lt_size id found)).elim
  by_cases there : id < g.leaves.size
  · refine founded.induction there fun id _ ih => ?_
    refine step id fun d edge => ?_
    by_cases inside : d < g.leaves.size
    · exact ih d inside (.single edge)
    · exact absent d inside
  · exact absent id there

/-- The shape of the driver of a leaf, if it has one. -/
def driverShape (g : Netlist) (id : LeafId) : Option (Option Expr) :=
  (g.leaves.get? id).map fun leaf => leaf.drive.driver?.map shape

/-- The same leaves, with drivers of the same structure. -/
def SameDrivers (g h : Netlist) : Prop := ∀ id, g.driverShape id = h.driverShape id

theorem driverShape_leaf {id : LeafId} {leaf : Leaf} (alike : g.SameDrivers h)
    (found : g.leaves.get? id = some leaf) : ∃ leaf', h.leaves.get? id = some leaf' ∧
      leaf'.drive.driver?.map shape = leaf.drive.driver?.map shape := by
  have same := alike id
  simp only [driverShape, found, Option.map_some] at same
  exact Option.map_eq_some_iff.mp same.symm

theorem driverShape_driver {id : LeafId} {leaf : Leaf} {e : Expr} (alike : g.SameDrivers h)
    (found : g.leaves.get? id = some leaf) (driven : leaf.drive = .driven e) :
    ∃ leaf' e', h.leaves.get? id = some leaf' ∧ leaf'.drive = .driven e' ∧ e'.shape = e.shape := by
  obtain ⟨leaf', found', same⟩ := driverShape_leaf alike found
  rw [driven, Drive.driver?, Option.map_some] at same
  obtain ⟨e', driver, same⟩ := Option.map_eq_some_iff.mp same
  exact ⟨leaf', e', found', driver?_eq_some.mp driver, same⟩

/-- Leaves that nothing drives have the same values. -/
def SameInputs (g h : Netlist) : Prop :=
  ∀ id leaf, g.leaves.get? id = some leaf → leaf.drive.isDriven = false → g.value id = h.value id

instance (g h : Netlist) : Decidable (g.SameDrivers h) :=
  decidable_of_iff (∀ id < max g.leaves.size h.leaves.size, g.driverShape id = h.driverShape id) <| by
    refine ⟨fun same id => ?_, fun same id _ => same id⟩
    by_cases within : id < max g.leaves.size h.leaves.size
    · exact same id within
    · rw [lt_max_iff, not_or] at within
      rw [driverShape, driverShape, g.leaves.get?_outside id within.1,
        h.leaves.get?_outside id within.2]

instance (g : Netlist) (p : LeafId → Leaf → Prop) [∀ id leaf, Decidable (p id leaf)] :
    Decidable (∀ id leaf, g.leaves.get? id = some leaf → p id leaf) :=
  decidable_of_iff (∀ id < g.leaves.size, ∀ leaf ∈ g.leaves.get? id, p id leaf)
    ⟨fun each id leaf found => each id (g.leaves.lt_size id found) leaf found,
      fun each id _ leaf found => each id leaf found⟩

instance (g h : Netlist) : Decidable (g.SameInputs h) :=
  inferInstanceAs (Decidable (∀ id leaf, g.leaves.get? id = some leaf →
    leaf.drive.isDriven = false → g.value id = h.value id))

end CombLogic.Netlist
