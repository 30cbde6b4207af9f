import CombLogic.Proofs.Evaluation
import CombLogic.Proofs.Netlist.Drivers
import CombLogic.Proofs.Netlist.Subscribers

/- What every call on a netlist keeps: the expressions in it are well shared, drivers and checks are
   sized, whoever reads a leaf is listed there, and a driven leaf that does not wait for the next
   pass has the value of its driver. -/
namespace CombLogic

namespace Netlist

/-- The values of the leaves as they stand. -/
def env (g : Netlist) : Env := Evaluation.start.env g

theorem env_value (g : Netlist) (id : LeafId) : g.env.value id = g.value id := by
  simp [env, Evaluation.start, Evaluation.env]

/-- The expressions that a netlist and checks made from it hold. -/
def exprs (g : Netlist) (made : List ConflictCheck) : Set Expr := fun e =>
  (∃ id leaf, g.leaves.get? id = some leaf ∧ leaf.drive = .driven e) ∨
    ∃ check ∈ g.checks.toList ++ made, check.conflict = e

structure Kept (g : Netlist) (made : List ConflictCheck) (K : Set Expr) : Prop where
  sharing : Sharing K g.nextNode
  driver : ∀ id leaf e, g.leaves.get? id = some leaf → leaf.drive = .driven e →
    e ∈ K ∧ Checked g.declared e leaf.width
  listed : ∀ id leaf e, g.leaves.get? id = some leaf → leaf.drive = .driven e → ∀ d, e.Reads d →
    id ∈ g.readersOf d
  readers : ∀ d, ∀ id ∈ g.readersOf d, id < g.leaves.size
  staged : ∀ id value, g.staged.get? id = some value →
    ∃ leaf, g.leaves.get? id = some leaf ∧ leaf.drive.isDriven = false ∧ value.width = leaf.width
  dirty : ∀ id ∈ g.dirty.keys, id < g.leaves.size
  checks : ∀ check ∈ g.checks.toList ++ made, g.GoodCheck K check
  named : ∀ id leaf, g.leaves.get? id = some leaf → (g.names.text? leaf.name).isSome
  fresh : ∀ id leaf e, g.leaves.get? id = some leaf → leaf.drive = .driven e → id ∉ g.dirty.keys →
    e.value g.env = .ok leaf.value

/-- A change that leaves the leaves alone, apart from their subscribers, and adds undriven ones. -/
structure Extends (g g' : Netlist) : Prop where
  old : ∀ id leaf, g.leaves.get? id = some leaf →
    ∃ subscribers, g'.leaves.get? id = some { leaf with subscribers := subscribers }
  new : ∀ id leaf, g'.leaves.get? id = some leaf → g.leaves.get? id = none →
    leaf.drive = .undriven ∧ leaf.readers = .empty ∧ leaf.value.width = leaf.width ∧
      (g'.names.text? leaf.name).isSome
  names : ∀ number name, g.names.text? number = some name → g'.names.text? number = some name
  staged : g'.staged = g.staged
  dirty : g'.dirty = g.dirty
  checks : g'.checks = g.checks
  oldChecks : g'.oldChecks = g.oldChecks
  subscribed : g.Subscribed → g'.Subscribed

namespace Extends

variable {g g' g'' : Netlist}

theorem size_le (extended : Extends g g') : g.leaves.size ≤ g'.leaves.size := by
  by_contra short
  have before : g'.leaves.size < g.leaves.size := Nat.lt_of_not_le short
  obtain ⟨leaf, found⟩ := Option.isSome_iff_exists.mp ((g.leaves.get?_isSome _).mpr before)
  obtain ⟨subscribers, there⟩ := extended.old _ leaf found
  exact Nat.lt_irrefl _ (g'.leaves.lt_size _ there)

theorem back (extended : Extends g g') {id : LeafId} {leaf' : Leaf}
    (found : g'.leaves.get? id = some leaf') :
    (∃ leaf subscribers, g.leaves.get? id = some leaf ∧
      leaf' = { leaf with subscribers := subscribers }) ∨
    (g.leaves.get? id = none ∧ leaf'.drive = .undriven ∧ leaf'.readers = .empty ∧
      leaf'.value.width = leaf'.width ∧ (g'.names.text? leaf'.name).isSome) := by
  cases before : g.leaves.get? id with
  | none => exact .inr ⟨rfl, extended.new id leaf' found before⟩
  | some leaf =>
    obtain ⟨subscribers, there⟩ := extended.old id leaf before
    rw [found] at there
    exact .inl ⟨leaf, subscribers, rfl, by simpa using there⟩

/-- Nodes are built. -/
theorem renumber (g : Netlist) (next : Nat) : Extends g { g with nextNode := next } where
  old id leaf found := ⟨leaf.subscribers, found⟩
  new id leaf found missing := by simp [missing] at found
  names number name listed := listed
  staged := rfl
  dirty := rfl
  checks := rfl
  oldChecks := rfl
  subscribed := subscribed_same (fun _ => rfl) rfl

theorem refl (g : Netlist) : Extends g g := renumber g g.nextNode

theorem trans (first : Extends g g') (second : Extends g' g'') : Extends g g'' where
  old id leaf found := by
    obtain ⟨subscribers, there⟩ := first.old id leaf found
    obtain ⟨subscribers', there'⟩ := second.old id _ there
    exact ⟨subscribers', there'⟩
  new id leaf found missing := by
    rcases second.back found with ⟨leaf', subscribers, between, rfl⟩ | ⟨-, fresh⟩
    · obtain ⟨drive, readers, width, named⟩ := first.new id leaf' between missing
      obtain ⟨name, listed⟩ := Option.isSome_iff_exists.mp named
      exact ⟨drive, readers, width, Option.isSome_of_eq_some (second.names _ _ listed)⟩
    · exact fresh
  names number name listed := second.names _ _ (first.names _ _ listed)
  staged := second.staged.trans first.staged
  dirty := second.dirty.trans first.dirty
  checks := second.checks.trans first.checks
  oldChecks := second.oldChecks.trans first.oldChecks
  subscribed subscribed := second.subscribed (first.subscribed subscribed)

theorem declared (extended : Extends g g') {id : LeafId} (some : (g.declared (.leaf id)).isSome) :
    g.declared (.leaf id) = g'.declared (.leaf id) := by
  rw [declared_get] at some
  obtain ⟨leaf, found⟩ := Option.isSome_iff_exists.mp (by simpa using some)
  obtain ⟨subscribers, there⟩ := extended.old id leaf found
  simp [declared_get, found, there]

theorem checked (extended : Extends g g') {e : Expr} {width : Nat}
    (checked : Checked g.declared e width) : Checked g'.declared e width :=
  checked_congr checked fun _ read => extended.declared (checked_reads checked read)

theorem value (extended : Extends g g') {id : LeafId} {leaf : Leaf}
    (found : g.leaves.get? id = some leaf) : g.value id = g'.value id := by
  obtain ⟨subscribers, there⟩ := extended.old id leaf found
  rw [value_ok found, value_ok there]

theorem readersOf (extended : Extends g g') (id : LeafId) : g'.readersOf id = g.readersOf id := by
  unfold Netlist.readersOf
  cases found : g.leaves.get? id with
  | none =>
    cases there : g'.leaves.get? id with
    | none => rfl
    | some leaf => simp [(extended.new id leaf there found).2.1]
  | some leaf =>
    obtain ⟨subscribers, there⟩ := extended.old id leaf found
    simp [there]

end Extends

section

variable {g g' : Netlist} {made : List ConflictCheck} {K L : Set Expr}

theorem kept_empty (limit : Nat) : Kept (empty limit) [] ∅ where
  sharing := .none_shared
  driver id leaf e found := by simp [empty] at found
  listed id leaf e found := by simp [empty] at found
  readers d id member := by simp [readersOf, empty] at member
  staged id value found := by simp [empty] at found
  dirty id member := by simp [empty, OrderedSet.empty] at member
  checks check member := by simp [empty] at member
  named id leaf found := by simp [empty] at found
  fresh id leaf e found := by simp [empty] at found

theorem kept_exprs (kept : Kept g made K) : g.exprs made ⊆ K := by
  rintro e (⟨id, leaf, found, driven⟩ | ⟨check, member, rfl⟩)
  · exact (kept.driver id leaf e found driven).1
  · exact (kept.checks check member).inside

/-- A leaf that is read is there. -/
theorem kept_read (kept : Kept g made K) {id : LeafId} {leaf : Leaf} {e : Expr}
    (found : g.leaves.get? id = some leaf) (driven : leaf.drive = .driven e) {d : LeafId}
    (read : e.Reads d) : ∃ source, g.leaves.get? d = some source := by
  have declared := checked_reads (kept.driver id leaf e found driven).2 read
  rw [declared_get] at declared
  exact Option.isSome_iff_exists.mp (by simpa using declared)

/-- Nothing that is kept depends on the set in which the expressions are seen, as long as it is well
    shared. -/
theorem kept_extends (kept : Kept g made K) (extended : Extends g g')
    (sharing : Sharing L g'.nextNode) (sub : g.exprs made ⊆ L) : Kept g' made L where
  sharing := sharing
  driver id leaf' e found driven := by
    rcases extended.back found with ⟨leaf, subscribers, before, rfl⟩ | ⟨-, undriven, -⟩
    · exact ⟨sub (.inl ⟨id, leaf, before, driven⟩),
        extended.checked (kept.driver id leaf e before driven).2⟩
    · simp [undriven] at driven
  listed id leaf' e found driven d read := by
    rw [extended.readersOf]
    rcases extended.back found with ⟨leaf, subscribers, before, rfl⟩ | ⟨-, undriven, -⟩
    · exact kept.listed id leaf e before driven d read
    · simp [undriven] at driven
  readers d id member := by
    rw [extended.readersOf] at member
    exact Nat.lt_of_lt_of_le (kept.readers d id member) extended.size_le
  staged id value found := by
    rw [extended.staged] at found
    obtain ⟨leaf, before, free, width⟩ := kept.staged id value found
    obtain ⟨subscribers, there⟩ := extended.old id leaf before
    exact ⟨_, there, free, width⟩
  dirty id member := by
    rw [extended.dirty] at member
    exact Nat.lt_of_lt_of_le (kept.dirty id member) extended.size_le
  checks check member := by
    rw [extended.checks] at member
    have good := kept.checks check member
    exact ⟨sub (.inr ⟨check, member, rfl⟩), extended.checked good.checked, good.reads⟩
  named id leaf' found := by
    rcases extended.back found with ⟨leaf, subscribers, before, rfl⟩ | ⟨-, -, -, -, named⟩
    · obtain ⟨name, listed⟩ := Option.isSome_iff_exists.mp (kept.named id leaf before)
      exact Option.isSome_of_eq_some (extended.names _ _ listed)
    · exact named
  fresh id leaf' e found driven settled := by
    rw [extended.dirty] at settled
    rcases extended.back found with ⟨leaf, subscribers, before, rfl⟩ | ⟨-, undriven, -⟩
    · rw [← kept.fresh id leaf e before driven settled]
      refine (Expr.value_congr (kept.driver id leaf e before driven).2.resolved ?_).symm
      intro d read
      obtain ⟨source, there⟩ := kept_read kept before driven read
      rw [env_value, env_value, extended.value there]
    · simp [undriven] at driven

end

end Netlist

end CombLogic
