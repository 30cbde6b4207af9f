import CombLogic.Proofs.Netlist.Loops

/- Readers and dependencies. A leaf lists exactly the leaves whose drivers read it, and only driven
   leaves wait for a pass. Every small change keeps both. -/
namespace CombLogic

open Expr Netlist

namespace Netlist

/-- Who is listed as a reader is one, and who waits is driven. -/
structure Linked (g : Netlist) : Prop where
  reader : ∀ d, ∀ id ∈ g.readersOf d, g.DependsOn id d
  waiting : ∀ id ∈ g.dirty.keys, ∃ leaf e, g.leaves.get? id = some leaf ∧ leaf.drive = .driven e

section

variable {g g' : Netlist} {made : List ConflictCheck} {K : Set Expr}

theorem readersOf_iff (kept : g.Kept made K) (linked : g.Linked) (id d : LeafId) :
    id ∈ g.readersOf d ↔ g.DependsOn id d :=
  ⟨linked.reader d id, dependsOn_listed kept⟩

theorem extends_driven (extended : Extends g g') {id : LeafId} {leaf : Leaf} {e : Expr}
    (found : g.leaves.get? id = some leaf) (driven : leaf.drive = .driven e) :
    ∃ leaf', g'.leaves.get? id = some leaf' ∧ leaf'.drive = .driven e := by
  obtain ⟨subscribers, there⟩ := extended.old id leaf found
  exact ⟨_, there, driven⟩

theorem extends_linked (extended : Extends g g') (linked : g.Linked) : g'.Linked where
  reader d id member := by
    rw [extended.readersOf] at member
    obtain ⟨leaf, e, found, driven, read⟩ := linked.reader d id member
    obtain ⟨leaf', found', driven'⟩ := extends_driven extended found driven
    exact ⟨leaf', e, found', driven', read⟩
  waiting id member := by
    rw [extended.dirty] at member
    obtain ⟨leaf, e, found, driven⟩ := linked.waiting id member
    obtain ⟨leaf', found', driven'⟩ := extends_driven extended found driven
    exact ⟨leaf', e, found', driven'⟩

section

variable {drivers : List (LeafId × Expr)}

/-- A leaf that gets a driver is driven, and one that has a driver keeps it. -/
theorem attached_driven (attached : Attached drivers g g') (free : ∀ p ∈ drivers, g.Free p.1)
    {id : LeafId} {leaf : Leaf} {e : Expr} (found : g.leaves.get? id = some leaf)
    (driven : leaf.drive = .driven e) :
    ∃ leaf', g'.leaves.get? id = some leaf' ∧ leaf'.drive = .driven e := by
  obtain ⟨leaf', found', step⟩ := attached.leaf id leaf found
  exact ⟨leaf', found', attachedLeaf_driven step free found driven⟩

theorem attached_given (attached : Attached drivers g g') (free : ∀ p ∈ drivers, g.Free p.1)
    {id : LeafId} {e : Expr} (listed : (id, e) ∈ drivers) :
    ∃ leaf' e', g'.leaves.get? id = some leaf' ∧ leaf'.drive = .driven e' ∧ (id, e') ∈ drivers := by
  obtain ⟨leaf, found, -⟩ := free (id, e) listed
  obtain ⟨leaf', found', step⟩ := attached.leaf id leaf found
  rcases step.drive with ⟨other, -⟩ | ⟨e', listed', driven⟩
  · exact (other (List.mem_map_of_mem listed)).elim
  · exact ⟨leaf', e', found', driven, listed'⟩

theorem attached_linked (kept : g.Kept made K) (attached : Attached drivers g g')
    (free : ∀ p ∈ drivers, g.Free p.1) (offered : ∀ p ∈ drivers, g.DriverFor K p)
    (agree : Agree drivers) (linked : g.Linked) : g'.Linked where
  reader d id member := by
    cases found : g'.leaves.get? d with
    | none => simp [readersOf, found] at member
    | some source =>
      obtain ⟨before, there, -⟩ := attached.back found
      rcases (attached.mem_readersOf there id).mp member with old | ⟨e, listed, read⟩
      · obtain ⟨leaf, e, found, driven, read⟩ := linked.reader d id old
        obtain ⟨leaf', found', driven'⟩ := attached_driven attached free found driven
        exact ⟨leaf', e, found', driven', read⟩
      · -- the driver that a leaf ends with need not be this one, but it reads the same
        obtain ⟨leaf', e', found', driven, listed'⟩ := attached_given attached free listed
        have read := (mem_reads kept.sharing (offered (id, e) listed).1).mp read
        exact ⟨leaf', e', found', driven, (agree _ listed _ listed' rfl d).mp read⟩
  waiting id member := by
    rcases (attached.dirty id).mp member with old | given
    · obtain ⟨leaf, e, found, driven⟩ := linked.waiting id old
      obtain ⟨leaf', found', driven'⟩ := attached_driven attached free found driven
      exact ⟨leaf', e, found', driven'⟩
    · obtain ⟨⟨_, e⟩, listed, rfl⟩ := List.mem_map.mp given
      obtain ⟨leaf', e', found', driven, -⟩ := attached_given attached free listed
      exact ⟨leaf', e', found', driven⟩

end

theorem commit_linked (kept : g.Kept made K) (pass : PassResult) (linked : g.Linked) :
    (g.commit (g.changesOf pass)).Linked where
  reader d id member := by
    rw [readersOf_commit] at member
    obtain ⟨leaf, e, found, driven, read⟩ := linked.reader d id member
    exact ⟨g.settledLeaf pass id leaf, e, by rw [commit_get, found]; rfl,
      settledLeaf_drive kept pass found driven, read⟩
  waiting id member := by simp [OrderedSet.empty] at member

end

end Netlist

theorem move_linked {s s' : Stage} (move : Move s s') (kept : s.world.Kept s.known)
    (linked : s.world.netlist.Linked) : s'.world.netlist.Linked := by
  cases move with
  | number | stage | drop | make | watch => exact ⟨linked.reader, linked.waiting⟩
  | extend extended next => exact extends_linked extended linked
  | attach attached free offered agree =>
    exact attached_linked kept attached free offered agree linked
  | commit done => exact commit_linked kept _ linked

end CombLogic
