import Mathlib.Data.List.Chain
import CombLogic.Proofs.Netlist.Edits

/- Loops of drivers. The last driver that closed a loop still waits for a pass, and every pass that
   such a leaf takes part in comes back to it, so none goes through as long as there is a loop. -/
namespace CombLogic

open Expr Netlist

namespace Netlist

/-- The driver of a leaf reads another one, or the leaf itself. -/
def DependsOn (g : Netlist) (id source : LeafId) : Prop :=
  ∃ leaf e, g.leaves.get? id = some leaf ∧ leaf.drive = .driven e ∧ e.Reads source

/-- Each leaf depends on the next one, and the last one on the first. -/
def Loop (g : Netlist) : List LeafId → Prop
  | [] => False
  | id :: rest => List.IsChain g.DependsOn (id :: rest ++ [id])

/-- In every loop a leaf waits for the next pass. -/
def LoopsWait (g : Netlist) : Prop := ∀ ids, g.Loop ids → ∃ id ∈ ids, id ∈ g.dirty.keys

section

variable {g g' : Netlist} {made : List ConflictCheck} {K : Set Expr} {ids : List LeafId}

theorem loop_mono (loop : g.Loop ids)
    (each : ∀ id ∈ ids, ∀ source, g.DependsOn id source → g'.DependsOn id source) :
    g'.Loop ids := by
  cases ids with
  | nil => exact loop
  | cons id rest =>
    refine List.IsChain.imp_of_mem_imp (fun a b member _ edge => each a ?_ b edge) loop
    simpa [or_comm, or_assoc] using member

/-- Every leaf of a loop depends on one of them. -/
theorem loop_source (loop : g.Loop ids) : ∀ id ∈ ids, ∃ d ∈ ids, g.DependsOn id d := by
  cases ids with
  | nil => exact loop.elim
  | cons id rest =>
    have steps := List.isChain_cons_append_singleton_iff_forall₂.mp loop
    intro other member
    obtain ⟨i, bound, rfl⟩ := List.getElem_of_mem member
    have next : i < (rest ++ [id]).length := by simpa using bound
    have inside : (rest ++ [id]).get ⟨i, next⟩ ∈ rest ++ [id] := List.get_mem _ _
    refine ⟨_, ?_, steps.get bound next⟩
    rcases List.mem_append.mp inside with later | first
    · exact List.mem_cons_of_mem _ later
    · exact List.mem_cons.mpr (.inl (List.mem_singleton.mp first))

/-- What holds of a leaf in a loop, and of whatever depends on a leaf of which it holds, holds of
    the whole loop. -/
theorem loop_closed (loop : g.Loop ids) {p : LeafId → Prop}
    (carries : ∀ id d, g.DependsOn id d → p d → p id) {id : LeafId} (member : id ∈ ids)
    (here : p id) : ∀ other ∈ ids, p other := by
  cases ids with
  | nil => simp at member
  | cons first rest =>
    obtain ⟨before, after, split⟩ := List.append_of_mem member
    have chain : List.IsChain g.DependsOn (before ++ [id] ++ (after ++ [first])) := by
      simpa [Loop, split] using loop
    have earlier := chain.left_of_append.backwards_concat_induction p before
      (fun a b edge => carries a b edge) here
    have start : p first := by
      cases before with
      | nil => simp_all
      | cons head _ =>
        obtain rfl : first = head := (List.cons.inj split).1
        exact earlier first (by simp)
    exact List.IsChain.backwards_concat_induction p (first :: rest) loop
      (fun a b edge => carries a b edge) start

theorem dependsOn_listed (kept : g.Kept made K) {id d : LeafId} (edge : g.DependsOn id d) :
    id ∈ g.readersOf d := by
  obtain ⟨leaf, e, found, driven, read⟩ := edge
  exact kept.listed id leaf e found driven d read

/-- No pass goes through as long as there is a loop. -/
theorem runPass_loop (kept : g.Kept made K) (wait : g.LoopsWait) (loop : g.Loop ids)
    (pass : PassResult) : g.runPass ≠ .ok pass := by
  intro done
  obtain ⟨ev, sorted, -, -⟩ := runPass_ok done
  obtain ⟨id, member, dirty⟩ := wait ids loop
  have reached : ∀ other ∈ ids, other ∈ g.affected.keys :=
    loop_closed loop
      (fun a b edge inside => affected_closed kept b inside a (dependsOn_listed kept edge)) member
      (Order.seed_reachable (mem_seeds.mpr (.inr dirty)))
  have sources : ∀ other ∈ ids, ∃ d ∈ ids, other ∈ g.readersOf d := by
    intro other inside
    obtain ⟨d, there, edge⟩ := loop_source loop other inside
    exact ⟨d, there, dependsOn_listed kept edge⟩
  have none := Order.forward_acyclic (Order.sort_forward sorted) sources
    fun other inside => (mem_order kept sorted).mpr (reached other inside)
  exact List.not_mem_nil (none ▸ member)

theorem settle_loop (kept : g.Kept made K) (wait : g.LoopsWait) (loop : g.Loop ids) :
    ∃ x, settle g = (.error x, { g with staged := .empty }) := by
  rcases settle_cases g with ⟨x, failed, -⟩ | ⟨report, pass, -, done⟩
  · exact ⟨x, failed⟩
  · exact (runPass_loop kept wait loop pass done).elim

theorem loop_lasts (lasts : Lasts g g') (loop : g.Loop ids) : g'.Loop ids := by
  refine loop_mono loop fun id _ source edge => ?_
  obtain ⟨leaf, e, found, driven, read⟩ := edge
  obtain ⟨leaf', found', -, drive⟩ := lasts.leaf id leaf found
  exact ⟨leaf', e, found', drive e driven, read⟩

theorem extends_dependsOn (extended : Extends g g') {id source : LeafId}
    (edge : g'.DependsOn id source) : g.DependsOn id source := by
  obtain ⟨leaf', e, found, driven, read⟩ := edge
  rcases extended.back found with ⟨leaf, subscribers, before, rfl⟩ | ⟨-, undriven, -⟩
  · exact ⟨leaf, e, before, driven, read⟩
  · simp [undriven] at driven

theorem commit_dependsOn (pass : PassResult) {id source : LeafId}
    (edge : (g.commit (g.changesOf pass)).DependsOn id source) : g.DependsOn id source := by
  obtain ⟨leaf', e, found, driven, read⟩ := edge
  obtain ⟨leaf, before, rfl⟩ := commit_back found
  exact ⟨leaf, e, before, settledLeaf_driven driven, read⟩

/-- A leaf that does not wait afterwards has the driver that it had before. -/
theorem attached_dependsOn {drivers : List (LeafId × Expr)} (attached : Attached drivers g g')
    {id source : LeafId} (clean : id ∉ g'.dirty.keys) (edge : g'.DependsOn id source) :
    g.DependsOn id source := by
  obtain ⟨leaf', e, found, driven, read⟩ := edge
  obtain ⟨leaf, before, step⟩ := attached.back found
  rw [attached.dirty, not_or] at clean
  rcases step.drive with ⟨-, drive⟩ | ⟨e', listed, -⟩
  · exact ⟨leaf, e, before, drive ▸ driven, read⟩
  · exact (clean.2 (List.mem_map_of_mem listed)).elim

end

/-- No leaf has another value, and none is put in from outside that was not before. -/
structure Frozen (g g' : Netlist) : Prop where
  value : ∀ id leaf, g.leaves.get? id = some leaf →
    ∃ leaf', g'.leaves.get? id = some leaf' ∧ leaf'.value = leaf.value
  root : ∀ id leaf', g'.leaves.get? id = some leaf' → leaf'.drive = .root →
    ∃ leaf, g.leaves.get? id = some leaf ∧ leaf.drive = .root

theorem frozen_refl (g : Netlist) : Frozen g g where
  value _ leaf found := ⟨leaf, found, rfl⟩
  root _ leaf found root := ⟨leaf, found, root⟩

theorem frozen_trans {g g' g'' : Netlist} (first : Frozen g g') (second : Frozen g' g'') :
    Frozen g g'' where
  value id leaf found := by
    obtain ⟨leaf', found', value⟩ := first.value id leaf found
    obtain ⟨leaf'', found'', value'⟩ := second.value id leaf' found'
    exact ⟨leaf'', found'', value'.trans value⟩
  root id leaf'' found root := by
    obtain ⟨leaf', found', root'⟩ := second.root id leaf'' found root
    exact first.root id leaf' found' root'

end Netlist

section

variable {s s' : Stage}

theorem move_waits (move : Move s s') (kept : s.world.Kept s.known)
    (wait : s.world.netlist.LoopsWait) : s'.world.netlist.LoopsWait := by
  cases move with
  | number | stage | drop | make | watch => exact wait
  | extend extended next =>
    intro ids loop
    rw [extended.dirty]
    exact wait ids (loop_mono loop fun _ _ _ edge => extends_dependsOn extended edge)
  | attach attached free offered =>
    intro ids loop
    by_contra clean
    push Not at clean
    have before := loop_mono loop fun id member _ edge =>
      attached_dependsOn attached (clean id member) edge
    obtain ⟨id, member, dirty⟩ := wait ids before
    exact clean id member ((attached.dirty id).mpr (.inl dirty))
  | commit done =>
    intro ids loop
    have before := loop_mono loop fun _ _ _ edge => commit_dependsOn _ edge
    exact (runPass_loop kept wait before _ done).elim

theorem move_frozen (move : Move s s') (kept : s.world.Kept s.known)
    (wait : s.world.netlist.LoopsWait) {ids : List LeafId} (loop : s.world.netlist.Loop ids) :
    Frozen s.world.netlist s'.world.netlist := by
  cases move with
  | number | stage | drop | make | watch => exact ⟨(frozen_refl _).value, (frozen_refl _).root⟩
  | extend extended next =>
    refine ⟨fun id leaf found => ?_, fun id leaf' found root => ?_⟩
    · obtain ⟨subscribers, there⟩ := extended.old id leaf found
      exact ⟨_, there, rfl⟩
    · rcases extended.back found with ⟨leaf, subscribers, before, rfl⟩ | ⟨-, undriven, -⟩
      · exact ⟨leaf, before, root⟩
      · simp [undriven] at root
  | attach attached free offered =>
    refine ⟨fun id leaf found => ?_, fun id leaf' found root => ?_⟩
    · obtain ⟨leaf', found', step⟩ := attached.leaf id leaf found
      exact ⟨leaf', found', by rw [step.same]⟩
    · obtain ⟨leaf, before, step⟩ := attached.back found
      rcases step.drive with ⟨-, drive⟩ | ⟨e, -, drive⟩
      · exact ⟨leaf, before, drive ▸ root⟩
      · simp [drive] at root
  | commit done => exact (runPass_loop kept wait loop _ done).elim

end

end CombLogic
