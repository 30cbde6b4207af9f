import CombLogic.Proofs.Block.Backed
import CombLogic.Proofs.Block.Finished

/- Values from before a block. Along every way through the text it can be told which leaves may still
   hold, or have been given, bits that were there before; the entries of these leaves are not assigned. -/
namespace CombLogic

open Expr Netlist Stmt

namespace Stmt

mutual

/-- The assignments on each way through a statement, in their order. -/
def paths : Stmt → List (List (Ref × Expr))
  | .assign target e => [[(target, e)]]
  | .ifElse _ thenBody elseBody => bodyPaths thenBody ++ bodyPaths elseBody
  | .case _ _ items default => itemPaths items ++ bodyPaths default

def bodyPaths : List Stmt → List (List (Ref × Expr))
  | [] => [[]]
  | s :: rest => (paths s).flatMap fun path => (bodyPaths rest).map (path ++ ·)

def itemPaths : List CaseItem → List (List (Ref × Expr))
  | [] => []
  | .mk _ body :: rest => bodyPaths body ++ itemPaths rest

end

end Stmt

namespace Netlist

/-- An expression reads none of some leaves. A bundle is read with all its leaves. -/
def Avoids (g : Netlist) (leaves : Finset LeafId) (e : Expr) : Prop :=
  e.All fun n => ∀ target ∈ n.target?, ∀ leaf ∈ g.leafSet target, leaf ∉ leaves

instance (g : Netlist) (leaves : Finset LeafId) (e : Expr) : Decidable (g.Avoids leaves e) :=
  inferInstanceAs (Decidable (e.All _))

/-- The leaves that take bits of what is assigned to a target: all but the leaves of a bundle that have
    no bits. -/
def takers (g : Netlist) : Ref → Finset LeafId
  | .leaf leaf => {leaf}
  | .bundle id => (g.leafSet (.bundle id)).filter fun leaf => g.declared (.leaf leaf) ≠ some 0

/-- The leaves with values from before the block, after one more assignment. -/
def stale (g : Netlist) (leaves : Finset LeafId) (a : Ref × Expr) : Finset LeafId :=
  leaves \ g.leafSet a.1 ∪ if g.Avoids leaves a.2 then ∅ else g.takers a.1

end Netlist

/-- Some leaves are bound to what is not assigned. -/
def Binding.Stale (b : Binding) (leaves : Finset LeafId) : Prop :=
  ∀ leaf ∈ leaves, ∃ e, b.get? leaf = some e ∧ ¬e.Assigned

section

variable {g : Netlist} {b after : Binding} {target : Ref} {leaf : LeafId} {leaves : Finset LeafId}
  {e : Expr} {ps ds : List (LeafId × Expr)}

/-- What stands for a target is assigned only if the entries of all its leaves are. -/
theorem held_clear (clear : (g.held b target).Assigned) (inside : leaf ∈ g.leafSet target) :
    (b.entry leaf).Assigned := by
  cases target with
  | leaf id =>
    obtain rfl : leaf = id := by simpa [leafSet, leavesOf_leaf, Except.toOption] using inside
    exact clear
  | bundle id =>
    cases known : g.leavesOf (.bundle id) with
    | error x => simp [leafSet, known, Except.toOption] at inside
    | ok ids =>
      simp only [held, known] at clear
      exact assigned_concat.mp clear _ (by simpa [leafSet, known, Except.toOption] using
        ⟨leaf, by simpa [leafSet, known, Except.toOption] using inside, rfl⟩)

/-- What is put in place of a stale read is not assigned, sized or not. -/
theorem stale_read (stale : b.Stale leaves) (reads : ¬g.Avoids leaves e) {t : Expr}
    {context : Option Nat} {width : Nat} (sized : e.sized g.declared context = some (t, width)) :
    ¬(t.subst (g.held b)).Assigned := by
  intro clear
  obtain ⟨w, fits⟩ := sized_fitted sized
  refine reads fun n inside target read leaf within listed => ?_
  obtain ⟨f, found, missed⟩ := stale leaf listed
  refine missed (entry_of_get found ▸ ?_)
  have every := all_unfitted (by simp [unassigned?, target?]) ?_ e fits (clear_iff.mp clear)
  · exact held_clear ((every n inside).2 target read) within
  · intro n parent
    cases n <;> simp_all [isAtom, unassigned?, target?]

theorem shares_leaves (shares : g.shares target e = some ps) :
    (ps.map Prod.fst).toFinset = g.leafSet target := by
  cases target with
  | leaf id =>
    obtain ⟨t, width, -, -, rfl⟩ := shares_leaf.mp shares
    simp [leafSet, leavesOf_leaf, Except.toOption]
  | bundle id =>
    obtain ⟨t, parts, widths, -, -, rfl⟩ := shares_bundle.mp shares
    rw [plainSlices_leaves, leafSet, (leafWidths_ok widths).1]
    rfl

theorem shares_stale (stale : b.Stale leaves) (reads : ¬g.Avoids leaves e)
    (shares : g.shares target e = some ps) :
    ∀ p ∈ ps, p.1 ∈ g.takers target → ¬(p.2.subst (g.held b)).Assigned := by
  intro p listed taker
  cases target with
  | leaf id =>
    obtain ⟨t, width, -, sized, rfl⟩ := shares_leaf.mp shares
    obtain rfl := List.mem_singleton.mp listed
    exact stale_read stale reads sized
  | bundle id =>
    obtain ⟨t, parts, widths, -, sized, rfl⟩ := shares_bundle.mp shares
    obtain ⟨part, given, low, rfl⟩ := mem_plainSlices listed
    obtain ⟨leaf, found, width⟩ := (leafWidths_ok widths).2 part given
    have bits : part.2 ≠ 0 := by
      have own := (Finset.mem_filter.mp taker).2
      simpa [declared_get, found, width] using own
    simp only [piece, bits, ↓reduceIte, subst]
    rw [assigned_parent rfl]
    simpa [children] using stale_read stale reads sized

/-- An assignment leaves the leaves stale that it does not write, and makes those stale to which it
    gives what it reads from stale ones. -/
theorem assign_stale (stale : b.Stale leaves) (shares : g.shares target e = some ps)
    (answers : g.Answers b ps ds) : (Executing.bindAll b ds).Stale (g.stale leaves (target, e)) := by
  have same : ds.map Prod.fst = ps.map Prod.fst := map_of_forall₂ answers fun _ _ both => both.1
  have written : ∀ leaf, leaf ∈ ds.map Prod.fst ↔ leaf ∈ g.leafSet target := fun leaf => by
    rw [same, ← shares_leaves shares, List.mem_toFinset]
  intro leaf listed
  rcases Finset.mem_union.mp listed with old | new
  · obtain ⟨before, outside⟩ := Finset.mem_sdiff.mp old
    rw [bindAll_unlisted fun inside => outside ((written leaf).mp inside)]
    exact stale leaf before
  · split at new
    · simp at new
    · rename_i reads
      have inside : leaf ∈ g.leafSet target := by
        cases target with
        | leaf id => simpa [takers, leafSet, leavesOf_leaf, Except.toOption] using new
        | bundle id => exact (Finset.mem_filter.mp new).1
      obtain ⟨f, -, member, found⟩ := bindAll_listed (b := b) ((written leaf).mpr inside)
      obtain ⟨share, given, own, form⟩ := forall₂_right answers _ member
      obtain rfl : leaf = share.1 := own
      refine ⟨f, found, fun assigned => shares_stale stale reads shares share given new ?_⟩
      exact form ▸ assigned_alike (shape_shape f) assigned

theorem joined_stale {arms : List (Expr × Binding)} {fallback arm : Binding}
    (joined : Gathered arms fallback b after) (given : arm = fallback ∨ ∃ r, (r, arm) ∈ arms)
    (stale : arm.Stale leaves) : after.Stale leaves := by
  intro leaf listed
  obtain ⟨e, found, missed⟩ := stale leaf listed
  have keys : arm.keys = after.keys := by
    rw [joined.keys]
    rcases given with rfl | ⟨r, given⟩
    · exact joined.last
    · exact joined.each _ given
  have bound : leaf ∈ after.keys := keys ▸ OrderedMap.mem_keys_of_get? found
  obtain ⟨f, after⟩ := OrderedMap.get?_of_mem_keys bound
  refine ⟨f, after, fun assigned => missed (entry_of_get found ▸ ?_)⟩
  obtain ⟨each, last⟩ := picked_assigned (joined.merges leaf f after) assigned
  rcases given with rfl | ⟨r, given⟩
  · exact last
  · exact each _ (List.mem_map_of_mem given)

theorem itemsTrace_length {items : List CaseItem} {arms : List Binding}
    (trace : ItemsTrace g items b arms) : items.length = arms.length := by
  induction items generalizing arms with
  | nil =>
    cases trace
    rfl
  | cons item rest ih =>
    cases trace with
    | cons first later => simp [ih later]

mutual

/-- What is stale behind some way through a statement is not assigned behind the statement. -/
theorem traces_stale {b after : Binding} {leaves : Finset LeafId} (s : Stmt)
    (traces : s.Traces g b after) (stale : b.Stale leaves) :
    ∀ path ∈ s.paths, after.Stale (path.foldl g.stale leaves) := by
  intro path listed
  cases traces with
  | assign shares answers =>
    obtain rfl := List.mem_singleton.mp listed
    exact assign_stale stale shares answers
  | ifElse asks first second joined =>
    rcases List.mem_append.mp listed with inner | inner
    · exact joined_stale joined (.inr ⟨_, List.mem_singleton_self _⟩)
        (body_stale _ first stale path inner)
    · exact joined_stale joined (.inl rfl) (body_stale _ second stale path inner)
  | @case kind selector t width items default found arms _ fallback _ sized spelled each last joined =>
    rcases List.mem_append.mp listed with inner | inner
    · obtain ⟨arm, member, still⟩ := items_stale items each stale path inner
      have lengths : arms.length ≤ found.length :=
        (itemsTrace_length each ▸ spelled.length_eq).le
      have paired : arm ∈ (found.zip arms).map Prod.snd := by
        rwa [List.map_snd_zip lengths]
      obtain ⟨⟨r, _⟩, given, rfl⟩ := List.mem_map.mp paired
      exact joined_stale joined (.inr ⟨r, given⟩) still
    · exact joined_stale joined (.inl rfl) (body_stale _ last stale path inner)

theorem body_stale {b after : Binding} {leaves : Finset LeafId} (body : List Stmt)
    (traces : BodyTraces g body b after) (stale : b.Stale leaves) :
    ∀ path ∈ bodyPaths body, after.Stale (path.foldl g.stale leaves) := by
  intro path listed
  cases traces with
  | nil =>
    obtain rfl := List.mem_singleton.mp listed
    exact stale
  | cons first later =>
    obtain ⟨here, inner, listed⟩ := List.mem_flatMap.mp listed
    obtain ⟨there, inner', rfl⟩ := List.mem_map.mp listed
    rw [List.foldl_append]
    exact body_stale _ later (traces_stale _ first stale here inner) there inner'

theorem items_stale {b : Binding} {arms : List Binding} {leaves : Finset LeafId}
    (items : List CaseItem) (trace : ItemsTrace g items b arms) (stale : b.Stale leaves) :
    ∀ path ∈ itemPaths items, ∃ arm ∈ arms, arm.Stale (path.foldl g.stale leaves) := by
  intro path listed
  cases trace with
  | nil => simp [itemPaths] at listed
  | cons first later =>
    rcases List.mem_append.mp listed with inner | inner
    · exact ⟨_, List.mem_cons_self, body_stale _ first stale path inner⟩
    · obtain ⟨arm, member, still⟩ := items_stale _ later stale path inner
      exact ⟨arm, List.mem_cons_of_mem _ member, still⟩

end

end

end CombLogic
