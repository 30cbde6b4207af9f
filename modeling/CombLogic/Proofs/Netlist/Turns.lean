import CombLogic.Proofs.Netlist.Links

/- Where leaves have their values from, before and after a change. Only a leaf that nothing has written
   can turn into something else: into a root by a pass, for which its value was staged, or into a
   driven leaf where drivers are put in their places. -/
namespace CombLogic.Netlist

open Expr

/-- Where a leaf has its value from. A leaf that is not there yet counts as undriven. -/
def driveOf (g : Netlist) (id : LeafId) : Drive :=
  match g.leaves.get? id with
  | some leaf => leaf.drive
  | none => .undriven

/-- Each leaf stays as it was, or was undriven and has turned in a permitted way. -/
def Turns (permitted : LeafId → Drive → Prop) (g g' : Netlist) : Prop :=
  ∀ id, g'.driveOf id = g.driveOf id ∨
    (g.driveOf id = .undriven ∧ permitted id (g'.driveOf id))

/-- Leaves become driven in no other way than by drivers. -/
def ByDriver (_ : LeafId) (drive : Drive) : Prop := drive.isDriven = true

/-- Staged leaves become roots. -/
def ByPass (g : Netlist) (id : LeafId) (drive : Drive) : Prop :=
  drive = .root ∧ id ∈ g.staged.keys

section

variable {g g' g'' : Netlist} {made : List ConflictCheck} {K : Set Expr}
  {permitted : LeafId → Drive → Prop} {id : LeafId}

theorem driveOf_found {leaf : Leaf} (found : g.leaves.get? id = some leaf) :
    g.driveOf id = leaf.drive := by
  simp [driveOf, found]

theorem turns_same (same : g'.leaves = g.leaves) : Turns permitted g g' := by
  intro id
  left
  simp only [driveOf, same]

theorem turns_trans (first : Turns permitted g g') (second : Turns permitted g' g'') :
    Turns permitted g g'' := by
  intro id
  rcases second id with same | ⟨undriven, turned⟩
  · rcases first id with before | ⟨undriven, turned⟩
    · exact .inl (same.trans before)
    · exact .inr ⟨undriven, same ▸ turned⟩
  · rcases first id with before | ⟨undriven', -⟩
    · exact .inr ⟨before ▸ undriven, turned⟩
    · exact .inr ⟨undriven', turned⟩

theorem turns_mono {wider : LeafId → Drive → Prop}
    (weaker : ∀ id drive, permitted id drive → wider id drive) (turns : Turns permitted g g') :
    Turns wider g g' := fun id => (turns id).imp_right fun both => ⟨both.1, weaker _ _ both.2⟩

theorem extends_turns (extended : Extends g g') : Turns permitted g g' := by
  intro id
  left
  cases there : g'.leaves.get? id with
  | none =>
    cases found : g.leaves.get? id with
    | none => simp [driveOf, found, there]
    | some leaf =>
      obtain ⟨subscribers, there'⟩ := extended.old id leaf found
      simp [there] at there'
  | some leaf' =>
    rw [driveOf_found there]
    rcases extended.back there with ⟨leaf, subscribers, found, rfl⟩ | ⟨missing, undriven, -⟩
    · rw [driveOf_found found]
    · simp [driveOf, missing, undriven]

theorem attached_other {drivers : List (LeafId × Expr)} (attached : Attached drivers g g')
    (other : id ∉ drivers.map Prod.fst) : g'.driveOf id = g.driveOf id := by
  cases there : g'.leaves.get? id with
  | none =>
    cases found : g.leaves.get? id with
    | none => simp [driveOf, found, there]
    | some leaf =>
      obtain ⟨leaf', found', -⟩ := attached.leaf id leaf found
      simp [there] at found'
  | some leaf' =>
    obtain ⟨leaf, found, step⟩ := attached.back there
    rw [driveOf_found found, driveOf_found there]
    rcases step.drive with ⟨-, same⟩ | ⟨e, listed, -⟩
    · exact same
    · exact (other (List.mem_map_of_mem listed)).elim

theorem attached_turns {drivers : List (LeafId × Expr)} (attached : Attached drivers g g')
    (free : ∀ p ∈ drivers, g.Free p.1) : Turns ByDriver g g' := by
  intro id
  by_cases listed : id ∈ drivers.map Prod.fst
  · obtain ⟨p, offered, rfl⟩ := List.mem_map.mp listed
    obtain ⟨leaf, found, undriven, -⟩ := free p offered
    obtain ⟨leaf', found', step⟩ := attached.leaf p.1 leaf found
    rw [driveOf_found found, driveOf_found found']
    rcases step.drive with ⟨other, -⟩ | ⟨e, -, driven⟩
    · exact (other listed).elim
    · exact .inr ⟨undriven, by rw [driven]; rfl⟩
  · exact .inl (attached_other attached listed)

theorem commit_turns (kept : g.Kept made K) (pass : PassResult) :
    Turns g.ByPass g (g.commit (g.changesOf pass)) := by
  intro id
  simp only [driveOf, commit_get]
  cases found : g.leaves.get? id with
  | none => exact .inl rfl
  | some leaf =>
    by_cases staged : id ∈ g.staged.keys
    · have input := staged_input kept found staged
      cases drive : leaf.drive with
      | undriven => exact .inr ⟨drive, by simp [settledLeaf, staged, ByPass]⟩
      | root => exact .inl (by simp [settledLeaf, staged, drive])
      | driven e => simp [drive, Drive.isDriven] at input
    · exact .inl (by simp [settledLeaf, staged])

/-- What no call ever takes back. -/
theorem turns_driven (turns : Turns permitted g g') {e : Expr} (driven : g.driveOf id = .driven e) :
    g'.driveOf id = .driven e := by
  rcases turns id with same | ⟨undriven, -⟩
  · exact same.trans driven
  · simp [driven] at undriven

theorem turns_root (turns : Turns permitted g g') (root : g.driveOf id = .root) :
    g'.driveOf id = .root := by
  rcases turns id with same | ⟨undriven, -⟩
  · exact same.trans root
  · simp [root] at undriven

end

end CombLogic.Netlist
