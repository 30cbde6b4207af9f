import CombLogic.Proofs.Netlist.Commit

/- Drivers put in their places. A driven leaf waits for the next pass from then on, and every leaf that
   its driver reads lists it. -/
namespace CombLogic.Netlist

open Expr

variable {g g' g'' : Netlist} {made : List ConflictCheck} {K : Set Expr}

/-- A leaf after drivers were attached. -/
structure AttachedLeaf (drivers : List (LeafId × Expr)) (id : LeafId) (leaf leaf' : Leaf) :
    Prop where
  same : leaf' = { leaf with drive := leaf'.drive, readers := leaf'.readers }
  drive : (id ∉ drivers.map Prod.fst ∧ leaf'.drive = leaf.drive) ∨
    ∃ e, (id, e) ∈ drivers ∧ leaf'.drive = .driven e
  readers : ∀ r, r ∈ leaf'.readers.toList ↔
    r ∈ leaf.readers.toList ∨ ∃ e, (r, e) ∈ drivers ∧ id ∈ e.reads

structure Attached (drivers : List (LeafId × Expr)) (g g' : Netlist) : Prop where
  same : g' = { g with leaves := g'.leaves, dirty := g'.dirty }
  size : g'.leaves.size = g.leaves.size
  leaf : ∀ id leaf, g.leaves.get? id = some leaf →
    ∃ leaf', g'.leaves.get? id = some leaf' ∧ AttachedLeaf drivers id leaf leaf'
  dirty : ∀ id, id ∈ g'.dirty.keys ↔ id ∈ g.dirty.keys ∨ id ∈ drivers.map Prod.fst

/-- A leaf that has a driver keeps it, since drivers go to free leaves only. -/
theorem attachedLeaf_driven {drivers : List (LeafId × Expr)} {id : LeafId} {leaf leaf' : Leaf}
    (step : AttachedLeaf drivers id leaf leaf') (free : ∀ p ∈ drivers, g.Free p.1)
    (found : g.leaves.get? id = some leaf) {e : Expr} (driven : leaf.drive = .driven e) :
    leaf'.drive = .driven e := by
  rcases step.drive with ⟨-, drive⟩ | ⟨e', listed, -⟩
  · exact drive.trans driven
  · obtain ⟨leaf'', there, undriven, -⟩ := free (id, e') listed
    obtain rfl : leaf = leaf'' := by simpa [found] using there
    simp [undriven] at driven

theorem attached_refl (g : Netlist) : Attached [] g g where
  same := rfl
  size := rfl
  leaf id leaf found := ⟨leaf, found, rfl, .inl ⟨by simp, rfl⟩, by simp⟩
  dirty := by simp

theorem attached_trans {first rest : List (LeafId × Expr)} (one : Attached first g g')
    (other : Attached rest g' g'') : Attached (first ++ rest) g g'' where
  same := by rw [other.same, one.same]
  size := other.size.trans one.size
  leaf id leaf found := by
    obtain ⟨leaf', found', step⟩ := one.leaf id leaf found
    obtain ⟨leaf'', found'', step'⟩ := other.leaf id leaf' found'
    refine ⟨leaf'', found'', by rw [step'.same, step.same], ?_, fun r => ?_⟩
    · rcases step'.drive with ⟨past, drive'⟩ | ⟨e, listed, drive'⟩
      · rcases step.drive with ⟨before, drive⟩ | ⟨e, listed, drive⟩
        · exact .inl ⟨by simp_all, drive'.trans drive⟩
        · exact .inr ⟨e, List.mem_append_left _ listed, drive'.trans drive⟩
      · exact .inr ⟨e, List.mem_append_right _ listed, drive'⟩
    · rw [step'.readers, step.readers, or_assoc]
      simp only [List.mem_append, or_and_right, exists_or]
  dirty id := by rw [other.dirty, one.dirty, List.map_append, List.mem_append, or_assoc]

/-- A leaf that is read takes the reader into its list, however often it is read. -/
theorem foldl_reader (id k : LeafId) (reads : List LeafId) (leaf : Leaf) : ∃ readers,
    reads.foldl (fun leaf d =>
      if d = k then { leaf with readers := leaf.readers.insert id } else leaf) leaf =
      { leaf with readers := readers } ∧
    ∀ r, r ∈ readers.toList ↔ r ∈ leaf.readers.toList ∨ r = id ∧ k ∈ reads := by
  induction reads generalizing leaf with
  | nil => exact ⟨leaf.readers, rfl, by simp⟩
  | cons d rest ih =>
    by_cases here : d = k
    · obtain ⟨readers, folded, listed⟩ := ih { leaf with readers := leaf.readers.insert id }
      refine ⟨readers, by rw [List.foldl_cons, if_pos here, folded], fun r => ?_⟩
      rw [listed, Ascending.mem_insert]
      simp only [here, List.mem_cons, true_or, and_true]
      tauto
    · obtain ⟨readers, folded, listed⟩ := ih leaf
      refine ⟨readers, by rw [List.foldl_cons, if_neg here, folded], fun r => ?_⟩
      rw [listed]
      simp [Ne.symm here]

theorem foldl_addReader (id : LeafId) (reads : List LeafId) (g : Netlist) : ∃ leaves,
    reads.foldl (addReader id) g = { g with leaves := leaves } ∧ leaves.size = g.leaves.size ∧
    ∀ k leaf, g.leaves.get? k = some leaf → ∃ readers,
      leaves.get? k = some { leaf with readers := readers } ∧
      ∀ r, r ∈ readers.toList ↔ r ∈ leaf.readers.toList ∨ r = id ∧ k ∈ reads := by
  obtain ⟨leaves, folded, size, each⟩ := foldl_modifyLeaf (fun d : LeafId => d)
    (fun _ leaf => { leaf with readers := leaf.readers.insert id }) reads g
  refine ⟨leaves, folded, size, fun k leaf found => ?_⟩
  obtain ⟨readers, ended, listed⟩ := foldl_reader id k reads leaf
  exact ⟨readers, by rw [each, found, Option.map_some, ended], listed⟩

theorem attach_attached (id : LeafId) (e : Expr) (g : Netlist) :
    Attached [(id, e)] g (attach id e g).2 := by
  obtain ⟨leaves, folded, size, each⟩ := foldl_addReader id e.reads g
  have result : (attach id e g).2 = { g with
      leaves := leaves.modify id fun leaf => { leaf with drive := .driven e }
      dirty := g.dirty.add id } := by
    simp only [attach, modify, modifyGet, MonadStateOf.modifyGet, StateT.modifyGet, folded]
    rfl
  rw [result]
  refine ⟨rfl, ?_, fun k leaf found => ?_, fun k => ?_⟩
  · exact (Numbered.size_modify _ _ _).trans size
  · obtain ⟨readers, there, listed⟩ := each k leaf found
    have now : (leaves.modify id fun leaf => { leaf with drive := .driven e }).get? k =
        if id = k then some { leaf with readers := readers, drive := .driven e }
        else some { leaf with readers := readers } := by
      rw [Numbered.get?_modify, there]
      rfl
    by_cases here : id = k
    · refine ⟨_, now.trans (if_pos here), rfl, .inr ⟨e, by simp [here], rfl⟩, fun r => ?_⟩
      simpa [and_comm] using listed r
    · refine ⟨_, now.trans (if_neg here), rfl, .inl ⟨by simpa using Ne.symm here, rfl⟩, fun r => ?_⟩
      simpa [and_comm] using listed r
  · simpa using OrderedSet.mem_add g.dirty id k

theorem attachAll_attached (drivers : List (LeafId × Expr)) (g : Netlist) :
    Attached drivers g (attachAll drivers g).2 := by
  induction drivers generalizing g with
  | nil => exact attached_refl g
  | cons driver rest ih =>
    exact attached_trans (attach_attached driver.1 driver.2 g) (ih (attach driver.1 driver.2 g).2)

section

variable {drivers : List (LeafId × Expr)}

namespace Attached

theorem back (attached : Attached drivers g g') {id : LeafId} {leaf' : Leaf}
    (found : g'.leaves.get? id = some leaf') :
    ∃ leaf, g.leaves.get? id = some leaf ∧ AttachedLeaf drivers id leaf leaf' := by
  have bound : id < g.leaves.size := attached.size ▸ g'.leaves.lt_size id found
  obtain ⟨leaf, there⟩ := Option.isSome_iff_exists.mp ((g.leaves.get?_isSome id).mpr bound)
  obtain ⟨leaf'', found', step⟩ := attached.leaf id leaf there
  rw [found] at found'
  cases found'
  exact ⟨leaf, there, step⟩

theorem declared (attached : Attached drivers g g') (id : LeafId) :
    g'.declared (.leaf id) = g.declared (.leaf id) := by
  rw [declared_get, declared_get]
  cases found : g.leaves.get? id with
  | some leaf =>
    obtain ⟨leaf', found', step⟩ := attached.leaf id leaf found
    rw [found', Option.map_some, Option.map_some, step.same]
  | none =>
    cases found' : g'.leaves.get? id with
    | none => rfl
    | some leaf' =>
      obtain ⟨leaf, there, -⟩ := attached.back found'
      simp [found] at there

theorem value (attached : Attached drivers g g') {id : LeafId} {leaf : Leaf}
    (found : g.leaves.get? id = some leaf) : g'.value id = g.value id := by
  obtain ⟨leaf', found', step⟩ := attached.leaf id leaf found
  rw [value_ok found, value_ok found', step.same]

theorem mem_readersOf (attached : Attached drivers g g') {id : LeafId} {leaf : Leaf}
    (found : g.leaves.get? id = some leaf) (r : LeafId) :
    r ∈ g'.readersOf id ↔ r ∈ g.readersOf id ∨ ∃ e, (r, e) ∈ drivers ∧ id ∈ e.reads := by
  obtain ⟨leaf', found', step⟩ := attached.leaf id leaf found
  simp only [readersOf, found, found']
  exact step.readers r

theorem checked (attached : Attached drivers g g') {e : Expr} {width : Nat}
    (checked : Checked g.declared e width) : Checked g'.declared e width :=
  checked_congr checked fun d _ => (attached.declared d).symm

/-- A driver that a leaf has afterwards is its old one or the one that it was given. -/
theorem driven (attached : Attached drivers g g') {id : LeafId} {leaf' : Leaf} {e : Expr}
    (found : g'.leaves.get? id = some leaf') (driven : leaf'.drive = .driven e) :
    ∃ leaf, g.leaves.get? id = some leaf ∧ leaf'.width = leaf.width ∧
      ((leaf.drive = .driven e ∧ id ∉ drivers.map Prod.fst ∧ leaf'.value = leaf.value) ∨
        (id, e) ∈ drivers) := by
  obtain ⟨leaf, there, step⟩ := attached.back found
  refine ⟨leaf, there, by rw [step.same], ?_⟩
  rcases step.drive with ⟨other, drive⟩ | ⟨e', listed, drive⟩
  · exact .inl ⟨drive ▸ driven, other, by rw [step.same]⟩
  · obtain rfl : e' = e := by simpa [drive] using driven
    exact .inr listed

/-- Where all drivers fit, each leaf that a new or an old one reads lists its reader. -/
theorem listed (attached : Attached drivers g g') (kept : Kept g made K)
    (offered : ∀ p ∈ drivers, g.DriverFor K p) {id : LeafId} {leaf' : Leaf} {e : Expr}
    (found : g'.leaves.get? id = some leaf') (driven : leaf'.drive = .driven e) {d : LeafId}
    (read : e.Reads d) : id ∈ g'.readersOf d := by
  obtain ⟨leaf, before, -, ⟨driven', -, -⟩ | listed⟩ := attached.driven found driven
  · obtain ⟨source, here⟩ := kept_read kept before driven' read
    exact (attached.mem_readersOf here id).mpr (.inl (kept.listed id leaf e before driven' d read))
  · obtain ⟨member, leaf'', -, checked⟩ := offered (id, e) listed
    have declared := checked_reads checked read
    rw [declared_get] at declared
    obtain ⟨source, here⟩ := Option.isSome_iff_exists.mp (by simpa using declared)
    exact (attached.mem_readersOf here id).mpr
      (.inr ⟨e, listed, (mem_reads kept.sharing member).mpr read⟩)

/-- A driven leaf that waits for no pass was given nothing, and neither it nor what it reads moved. -/
theorem fresh (attached : Attached drivers g g') (kept : Kept g made K) {id : LeafId} {leaf' : Leaf}
    {e : Expr} (found : g'.leaves.get? id = some leaf') (driven : leaf'.drive = .driven e)
    (settled : id ∉ g'.dirty.keys) : e.value g'.env = .ok leaf'.value := by
  rw [attached.dirty, not_or] at settled
  obtain ⟨leaf, before, -, ⟨driven', -, value⟩ | listed⟩ := attached.driven found driven
  · rw [value, ← kept.fresh id leaf e before driven' settled.1]
    refine value_congr (kept.driver id leaf e before driven').2.resolved fun d read => ?_
    obtain ⟨source, here⟩ := kept_read kept before driven' read
    rw [env_value, env_value, attached.value here]
  · exact (settled.2 (List.mem_map_of_mem listed)).elim

end Attached

theorem free_lt (free : ∀ p ∈ drivers, g.Free p.1) {id : LeafId}
    (listed : id ∈ drivers.map Prod.fst) : id < g.leaves.size := by
  obtain ⟨p, member, rfl⟩ := List.mem_map.mp listed
  obtain ⟨leaf, found, -⟩ := free p member
  exact g.leaves.lt_size p.1 found

/-- Free leaves take their drivers without harm. -/
theorem kept_attach (kept : Kept g made K) (attached : Attached drivers g g')
    (free : ∀ p ∈ drivers, g.Free p.1) (offered : ∀ p ∈ drivers, g.DriverFor K p) :
    Kept g' made K where
  sharing := by rw [attached.same]; exact kept.sharing
  driver id leaf' e found driven := by
    obtain ⟨leaf, before, width, ⟨driven', -, -⟩ | listed⟩ := attached.driven found driven
    · obtain ⟨member, checked⟩ := kept.driver id leaf e before driven'
      exact ⟨member, width ▸ attached.checked checked⟩
    · obtain ⟨member, leaf'', before', checked⟩ := offered (id, e) listed
      obtain rfl : leaf = leaf'' := by simpa [before] using before'
      exact ⟨member, width ▸ attached.checked checked⟩
  listed _ _ _ found driven _ read := attached.listed kept offered found driven read
  readers d r member := by
    rw [attached.size]
    cases found : g'.leaves.get? d with
    | none => simp [readersOf, found] at member
    | some leaf' =>
      obtain ⟨leaf, before, -⟩ := attached.back found
      rcases (attached.mem_readersOf before r).mp member with old | ⟨e, listed, -⟩
      · exact kept.readers d r old
      · exact free_lt free (List.mem_map_of_mem listed)
  staged id value found := by
    have same : g'.staged = g.staged := by rw [attached.same]
    rw [same] at found
    obtain ⟨leaf, before, undriven, width⟩ := kept.staged id value found
    obtain ⟨leaf', found', step⟩ := attached.leaf id leaf before
    refine ⟨leaf', found', ?_, by rw [step.same]; exact width⟩
    rcases step.drive with ⟨-, drive⟩ | ⟨e, listed, -⟩
    · rw [drive]
      exact undriven
    -- a staged leaf is not free, so it was given no driver
    · obtain ⟨_, -, -, unstaged⟩ := free (id, e) listed
      exact (unstaged (OrderedMap.mem_keys_of_get? found)).elim
  dirty id member := by
    rw [attached.size]
    rcases (attached.dirty id).mp member with old | listed
    · exact kept.dirty id old
    · exact free_lt free listed
  checks check member := by
    have same : g'.checks = g.checks := by rw [attached.same]
    have good := kept.checks check (same ▸ member)
    exact ⟨good.inside, attached.checked good.checked, good.reads⟩
  named id leaf' found := by
    have same : g'.names = g.names := by rw [attached.same]
    obtain ⟨leaf, before, step⟩ := attached.back found
    rw [step.same, same]
    exact kept.named id leaf before
  fresh _ _ _ found driven settled := attached.fresh kept found driven settled

end

end CombLogic.Netlist
