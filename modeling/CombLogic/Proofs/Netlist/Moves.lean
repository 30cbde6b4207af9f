import Mathlib.Logic.Relation
import CombLogic.Proofs.Netlist.Attach

/- The small changes of which every call is made. Each of them keeps what is kept, and none takes a
   driver away, narrows the widths or forgets a check. -/
namespace CombLogic

open Expr Netlist

/-- A netlist, and the checks that were made from it and not added yet or added already. -/
structure World where
  netlist : Netlist
  made : List ConflictCheck

/-- A world, with a well-shared set that holds all its expressions. -/
structure Stage where
  world : World
  known : Set Expr

namespace World

def Kept (w : World) (K : Set Expr) : Prop := w.netlist.Kept w.made K

end World

/-- A staged value fits its leaf, which no expression drives. -/
def Netlist.Forceable (g : Netlist) (id : LeafId) (value : Value) : Prop :=
  ∃ leaf, g.leaves.get? id = some leaf ∧ leaf.drive.isDriven = false ∧ value.width = leaf.width

inductive Move : Stage → Stage → Prop where
  /-- Nodes are built. -/
  | number {g : Netlist} {made : List ConflictCheck} {K L : Set Expr} {next : Nat} (sub : K ⊆ L)
      (sharing : Sharing L next) : Move ⟨⟨g, made⟩, K⟩ ⟨⟨{ g with nextNode := next }, made⟩, L⟩
  | extend {g g' : Netlist} {made : List ConflictCheck} {K : Set Expr} (extended : Extends g g')
      (next : g'.nextNode = g.nextNode) : Move ⟨⟨g, made⟩, K⟩ ⟨⟨g', made⟩, K⟩
  | attach {g g' : Netlist} {made : List ConflictCheck} {K : Set Expr}
      {drivers : List (LeafId × Expr)} (attached : Attached drivers g g')
      (free : ∀ p ∈ drivers, g.Free p.1) (offered : ∀ p ∈ drivers, g.DriverFor K p)
      (agree : Agree drivers) :
      Move ⟨⟨g, made⟩, K⟩ ⟨⟨g', made⟩, K⟩
  | stage {g : Netlist} {made : List ConflictCheck} {K : Set Expr} {id : LeafId} {value : Value}
      (fits : g.Forceable id value) :
      Move ⟨⟨g, made⟩, K⟩ ⟨⟨{ g with staged := g.staged.insert id value }, made⟩, K⟩
  /-- A pass fails. -/
  | drop {g : Netlist} {made : List ConflictCheck} {K : Set Expr} :
      Move ⟨⟨g, made⟩, K⟩ ⟨⟨{ g with staged := .empty }, made⟩, K⟩
  | commit {g : Netlist} {made : List ConflictCheck} {K : Set Expr} {pass : PassResult}
      (done : g.runPass = .ok pass) :
      Move ⟨⟨g, made⟩, K⟩ ⟨⟨g.commit (g.changesOf pass), made⟩, K⟩
  | make {g : Netlist} {made : List ConflictCheck} {K : Set Expr} {check : ConflictCheck}
      (good : g.GoodCheck K check) : Move ⟨⟨g, made⟩, K⟩ ⟨⟨g, check :: made⟩, K⟩
  | watch {g : Netlist} {made : List ConflictCheck} {K : Set Expr} {check : ConflictCheck}
      (good : g.GoodCheck K check) :
      Move ⟨⟨g, made⟩, K⟩ ⟨⟨{ g with checks := g.checks.push check }, made⟩, K⟩

abbrev Moves : Stage → Stage → Prop := Relation.ReflTransGen Move

namespace Netlist

section

variable {g : Netlist} {made : List ConflictCheck} {K : Set Expr}

/-- Staged values and checks may be any that fit. -/
theorem kept_pending (kept : g.Kept made K) {staged : OrderedMap Value}
    {checks : Array ConflictCheck} {made' : List ConflictCheck}
    (fits : ∀ id value, staged.get? id = some value → g.Forceable id value)
    (good : ∀ check ∈ checks.toList ++ made', g.GoodCheck K check) :
    Kept { g with staged := staged, checks := checks } made' K where
  sharing := kept.sharing
  driver id leaf e found driven := by
    obtain ⟨member, checked⟩ := kept.driver id leaf e found driven
    exact ⟨member, checked_leaves (by rfl) checked⟩
  listed := kept.listed
  readers := kept.readers
  staged := fits
  dirty := kept.dirty
  checks check member := goodCheck_leaves (by rfl) (good check member)
  named := kept.named
  fresh := kept.fresh

end

end Netlist

theorem move_kept {s s' : Stage} (move : Move s s') (kept : s.world.Kept s.known) :
    s'.world.Kept s'.known := by
  cases move with
  | number sub sharing =>
    exact kept_extends kept (.renumber _ _) sharing ((kept_exprs kept).trans sub)
  | extend extended next => exact kept_extends kept extended (next ▸ kept.sharing) (kept_exprs kept)
  | attach attached free offered => exact kept_attach kept attached free offered
  | @stage g _ _ id value fits =>
    refine kept_pending kept (fun other value' found => ?_) kept.checks
    rw [OrderedMap.get?_insert] at found
    by_cases here : id = other
    · obtain rfl : value = value' := by simpa [here] using found
      exact here ▸ fits
    · exact kept.staged other value' (by simpa [here] using found)
  | drop => exact kept_pending kept (by simp) kept.checks
  | commit done => exact kept_commit kept done
  | make good =>
    refine kept_pending kept kept.staged fun other member => ?_
    rcases List.mem_append.mp member with added | listed
    · exact kept.checks other (List.mem_append_left _ added)
    · rcases List.mem_cons.mp listed with rfl | before
      · exact good
      · exact kept.checks other (List.mem_append_right _ before)
  | watch good =>
    refine kept_pending kept kept.staged fun other member => ?_
    simp only [Array.toList_push, List.mem_append, List.mem_singleton] at member
    rcases member with (before | rfl) | listed
    · exact kept.checks other (List.mem_append_left _ before)
    · exact good
    · exact kept.checks other (List.mem_append_right _ listed)

theorem moves_kept {s s' : Stage} (moves : Moves s s') (kept : s.world.Kept s.known) :
    s'.world.Kept s'.known := by
  induction moves with
  | refl => exact kept
  | tail _ move ih => exact move_kept move ih

/-- What lasts: leaves and their widths, drivers, and checks. -/
structure Lasts (g g' : Netlist) : Prop where
  leaf : ∀ id leaf, g.leaves.get? id = some leaf → ∃ leaf', g'.leaves.get? id = some leaf' ∧
    leaf'.width = leaf.width ∧ ∀ e, leaf.drive = .driven e → leaf'.drive = .driven e
  checks : ∀ check ∈ g.checks, check ∈ g'.checks

theorem lasts_refl (g : Netlist) : Lasts g g where
  leaf _ leaf found := ⟨leaf, found, rfl, fun _ driven => driven⟩
  checks _ member := member

theorem lasts_trans {g g' g'' : Netlist} (first : Lasts g g') (second : Lasts g' g'') :
    Lasts g g'' where
  leaf id leaf found := by
    obtain ⟨leaf', found', width, drive⟩ := first.leaf id leaf found
    obtain ⟨leaf'', found'', width', drive'⟩ := second.leaf id leaf' found'
    exact ⟨leaf'', found'', width'.trans width, fun e driven => drive' e (drive e driven)⟩
  checks check member := second.checks check (first.checks check member)

theorem move_lasts {s s' : Stage} (move : Move s s') (kept : s.world.Kept s.known) :
    Lasts s.world.netlist s'.world.netlist := by
  cases move with
  | number | stage | drop | make => exact ⟨(lasts_refl _).leaf, fun _ member => member⟩
  | extend extended next =>
    refine ⟨fun id leaf found => ?_, fun check member => extended.checks ▸ member⟩
    obtain ⟨subscribers, there⟩ := extended.old id leaf found
    exact ⟨_, there, rfl, fun _ driven => driven⟩
  | attach attached free offered =>
    refine ⟨fun id leaf found => ?_, fun check member => by rw [attached.same]; exact member⟩
    obtain ⟨leaf', found', step⟩ := attached.leaf id leaf found
    exact ⟨leaf', found', by rw [step.same],
      fun e driven => attachedLeaf_driven step free found driven⟩
  | @commit g made K pass done =>
    refine ⟨fun id leaf found => ?_, fun _ member => by rw [commit_checks]; exact member⟩
    exact ⟨g.settledLeaf pass id leaf, by rw [commit_get, found]; rfl, rfl,
      fun e driven => settledLeaf_drive kept pass found driven⟩
  | watch good => exact ⟨(lasts_refl _).leaf, fun check member => by simp [member]⟩

theorem moves_lasts {s s' : Stage} (moves : Moves s s') (kept : s.world.Kept s.known) :
    Lasts s.world.netlist s'.world.netlist := by
  induction moves with
  | refl => exact lasts_refl _
  | tail before move ih => exact lasts_trans ih (move_lasts move (moves_kept before kept))

end CombLogic
