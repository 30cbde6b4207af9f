import CombLogic.Proofs.Components
import CombLogic.Proofs.Netlist.Edits
import CombLogic.Proofs.Width.Balanced

/- Widths of values over whole runs. As long as the drivers and checks are balanced, every leaf has a
   value of its width, and a pass fails only where it has no order or affects too many leaves. -/
namespace CombLogic

open Expr Netlist

namespace Netlist

/-- Every leaf has a value of its width. -/
def Fits (g : Netlist) : Prop :=
  ∀ id leaf, g.leaves.get? id = some leaf → leaf.value.width = leaf.width

/-- All drivers and watched conditions are balanced. -/
def Balanced (g : Netlist) : Prop := ∀ e ∈ g.exprs [], e.Balanced g.declared

/-- The values found in a pass have the widths of their leaves, and those kept the widths of their
    nodes. -/
structure Wide (g : Netlist) (K : Set Expr) (ev : Evaluation) : Prop where
  values : ∀ id v, ev.values[id]? = some v → g.declared (.leaf id) = some v.width
  memo : MemoWide K g.declared ev.memo

section

variable {g : Netlist} {made : List ConflictCheck} {K : Set Expr} {ev : Evaluation}

theorem declared_width {id : LeafId} {leaf : Leaf} (fits : g.Fits)
    (found : g.leaves.get? id = some leaf) : g.declared (.leaf id) = some leaf.value.width := by
  rw [declared_get, found, fits id leaf found]
  rfl

theorem env_fits (fits : g.Fits) (wide : g.Wide K ev) {e : Expr} {width : Nat}
    (checked : Checked g.declared e width) : (ev.env g).Fits g.declared e := by
  intro id read
  have declared := checked_reads checked read
  rw [declared_get] at declared
  obtain ⟨leaf, found⟩ := Option.isSome_iff_exists.mp (by simpa using declared)
  cases known : ev.values[id]? with
  | some v => exact ⟨v, env_of_value known, wide.values id v known⟩
  | none => exact ⟨leaf.value, (env_of_none known).trans (value_ok found), declared_width fits found⟩

/-- The same for the values as they stand. -/
theorem fits_env (fits : g.Fits) {e : Expr} {width : Nat} (checked : Checked g.declared e width) :
    g.env.Fits g.declared e := by
  have nothing : g.Wide ∅ .start := by
    refine ⟨fun id v known => ?_, fun a inside => inside.elim⟩
    simp [Evaluation.start] at known
  exact env_fits fits nothing checked

theorem run_wide (kept : g.Kept made K) (fits : g.Fits) (wide : g.Wide K ev) {e : Expr}
    (member : e ∈ K) {width : Nat} (checked : Checked g.declared e width)
    (balanced : e.Balanced g.declared) :
    ∃ v ev', ev.run g e = .ok (v, ev') ∧ v.width = width ∧ g.Wide K ev' := by
  have rule := (balanced_width e balanced).trans checked.width
  obtain ⟨v, memo, found, right, same⟩ :=
    evaluate_wide kept.sharing e member (env_fits fits wide checked) width rule ev.memo wide.memo
  refine ⟨v, { ev with memo := memo }, ?_, same, wide.values, right⟩
  have found : (e.evaluate (ev.env g)).run ev.memo = .ok (v, memo) := found
  simp [Evaluation.run, found, bind, Except.bind, pure, Except.pure]

theorem evaluateDrivers_wide (kept : g.Kept made K) (fits : g.Fits) (balanced : g.Balanced)
    (order : List LeafId) (there : ∀ id ∈ order, id < g.leaves.size) (count : Nat)
    (wide : g.Wide K ev) :
    ∃ ev' n, g.evaluateDrivers ev count order = .ok (ev', n) ∧ g.Wide K ev' := by
  induction order generalizing ev count with
  | nil => exact ⟨ev, count, rfl, wide⟩
  | cons id rest ih =>
    have later := fun other member => there other (List.mem_cons_of_mem _ member)
    obtain ⟨leaf, found⟩ :=
      Option.isSome_iff_exists.mp ((g.leaves.get?_isSome id).mpr (there id (by simp)))
    simp only [evaluateDrivers, leaf_of_get found]
    cases drive : leaf.drive with
    | driven e =>
      obtain ⟨member, checked⟩ := kept.driver id leaf e found drive
      obtain ⟨v, ev₁, run, width, wide₁⟩ :=
        run_wide kept fits wide member checked (balanced e (.inl ⟨id, leaf, found, drive⟩))
      have placed : g.Wide K (ev₁.set id v) := by
        refine ⟨fun other w known => ?_, wide₁.memo⟩
        rw [values_set] at known
        split at known
        · rename_i here
          obtain rfl := Option.some.inj known
          rw [← here, declared_get, found, width]
          rfl
        · exact wide₁.values other w known
      obtain ⟨ev', n, rest, wide'⟩ := ih later (count + 1) placed
      exact ⟨ev', n, by simpa [bind, Except.bind, drive, run] using rest, wide'⟩
    | undriven | root =>
      obtain ⟨ev', n, rest, wide'⟩ := ih later count wide
      exact ⟨ev', n, by simpa [bind, Except.bind, drive] using rest, wide'⟩

theorem evaluateChecks_wide (kept : g.Kept made K) (fits : g.Fits) (balanced : g.Balanced)
    (reached : OrderedSet) (checks : List ConflictCheck) (listed : ∀ check ∈ checks, check ∈ g.checks)
    (index : Nat) (wide : g.Wide K ev) :
    ∃ conflicts, g.evaluateChecks reached ev index checks = .ok conflicts := by
  induction checks generalizing ev index with
  | nil => exact ⟨[], rfl⟩
  | cons check rest ih =>
    have later := fun other member => listed other (List.mem_cons_of_mem _ member)
    have here : check ∈ g.checks.toList := by simpa using listed check (by simp)
    have good := kept.checks check (List.mem_append_left _ here)
    rw [evaluateChecks]
    split
    · obtain ⟨v, ev₁, run, -, wide₁⟩ := run_wide kept fits wide good.inside good.checked
        (balanced _ (.inr ⟨check, by simpa using here, rfl⟩))
      obtain ⟨conflicts, rest⟩ := ih later (index + 1) wide₁
      exact ⟨_, by simp only [bind, Except.bind, run, rest]; rfl⟩
    · exact ih later (index + 1) wide

theorem passStart_wide (kept : g.Kept made K) : g.Wide K g.passStart where
  values id v known := by
    rw [passStart_values] at known
    obtain ⟨leaf, found, -, width⟩ := kept.staged id v known
    rw [declared_get, found, width]
    rfl
  memo e _ v known := by simp [passStart_memo] at known

theorem leafNames_ok (kept : g.Kept made K) {ids : List LeafId}
    (there : ∀ id ∈ ids, id < g.leaves.size) : ∃ names, ids.mapM g.leafName = .ok names := by
  induction ids with
  | nil => exact ⟨[], rfl⟩
  | cons id rest ih =>
    obtain ⟨leaf, found⟩ :=
      Option.isSome_iff_exists.mp ((g.leaves.get?_isSome id).mpr (there id (by simp)))
    obtain ⟨name, named⟩ := leafName_ok found (kept.named id leaf found)
    obtain ⟨names, later⟩ := ih fun other member => there other (List.mem_cons_of_mem _ member)
    exact ⟨name :: names, by rw [List.mapM_cons, named, later]; rfl⟩

theorem affected_bounded (kept : g.Kept made K) : ∀ id ∈ g.affected.keys, id < g.leaves.size :=
  Order.reachable_within (closed_readers kept) (seeds_bounded kept)

theorem loopOf_bounded (kept : g.Kept made K) {start : LeafId}
    (failed : Order.sort g.readersOf g.affected.keys = .error start) :
    ∀ id ∈ g.loopOf g.affected.keys start, id < g.leaves.size := by
  obtain ⟨here, around⟩ := Order.sort_onCycle (affected_closed kept) failed
  intro id member
  have walk := ((mem_loopOf (affected_closed kept) here around id).mp member).1
  exact Order.walk_within (closed_readers kept) walk (affected_bounded kept start here)

/-- The ways in which a pass over well-behaved drivers can fail. -/
inductive PassError : NetlistError → Prop where
  | loop (leaves : List LeafId) (names : List String) : PassError (.combinationalLoop leaves names)
  | large (leaves limit : Nat) : PassError (.passTooLarge leaves limit)

theorem orderOf_cases (kept : g.Kept made K) :
    (∃ order, g.orderOf g.affected.keys = .ok order ∧ ∀ id ∈ order, id < g.leaves.size) ∨
      ∃ x, g.orderOf g.affected.keys = .error x ∧ PassError x := by
  unfold orderOf
  cases sorted : Order.sort g.readersOf g.affected.keys with
  | ok order =>
    refine .inl ⟨order, rfl, ?_⟩
    exact Order.sort_within sorted (closed_readers kept) (affected_bounded kept)
  | error start =>
    obtain ⟨names, found⟩ := leafNames_ok kept (loopOf_bounded kept sorted)
    exact .inr ⟨_, by simp only [found]; rfl, .loop _ names⟩

/-- A pass fails for its order or its size only. -/
theorem runPass_error (kept : g.Kept made K) (fits : g.Fits) (balanced : g.Balanced)
    {x : NetlistError} (failed : g.runPass = .error x) : PassError x := by
  simp only [runPass] at failed
  split at failed
  · obtain rfl := Except.error.inj failed
    exact .large _ _
  · rcases orderOf_cases kept with ⟨order, ordered, there⟩ | ⟨y, ordered, known⟩
    · obtain ⟨ev, n, evaluated, wide⟩ :=
        evaluateDrivers_wide kept fits balanced order there 0 (passStart_wide kept)
      obtain ⟨conflicts, watched⟩ := evaluateChecks_wide kept fits balanced g.affected
        g.checks.toList (fun check member => by simpa using member) 0 wide
      have evaluated : g.evaluateDrivers (g.staged.entries.foldl
        (fun ev entry => ev.set entry.1 entry.2) .start) 0 order = .ok (ev, n) := evaluated
      simp [ordered, evaluated, watched, bind, Except.bind, pure, Except.pure] at failed
    · simp only [ordered, bind, Except.bind, Except.error.injEq] at failed
      exact failed ▸ known

theorem fits_commit (kept : g.Kept made K) (fits : g.Fits) (balanced : g.Balanced)
    {pass : PassResult} (done : g.runPass = .ok pass) : (g.commit (g.changesOf pass)).Fits := by
  obtain ⟨ev, sorted, evaluated, values⟩ := runPass_ok done
  have there := Order.sort_within sorted (closed_readers kept) (affected_bounded kept)
  obtain ⟨ev', n, run, wide⟩ :=
    evaluateDrivers_wide kept fits balanced pass.order there 0 (passStart_wide kept)
  obtain ⟨rfl, rfl⟩ := Prod.mk.inj (Except.ok.inj (evaluated.symm.trans run))
  intro id leaf' found
  obtain ⟨leaf, before, rfl⟩ := commit_back found
  simp only [settledLeaf, valueAt, values]
  split
  · cases known : ev.values[id]? with
    | none => exact fits id leaf before
    | some v =>
      have declared := wide.values id v known
      rw [declared_get, before] at declared
      exact (Option.some.inj declared).symm
  · exact fits id leaf before

end

theorem lasts_declared {g g' : Netlist} (lasts : Lasts g g') {e : Expr} {width : Nat}
    (checked : Checked g.declared e width) {id : LeafId} (read : e.Reads id) :
    g'.declared (.leaf id) = g.declared (.leaf id) := by
  obtain ⟨w, declared⟩ := Option.isSome_iff_exists.mp (checked_reads checked read)
  obtain ⟨leaf, found, rfl⟩ := leaf_width declared
  obtain ⟨leaf', found', width', -⟩ := lasts.leaf id leaf found
  rw [declared_get, declared, found', Option.map_some, width']

/-- Drivers and checks last, so they were balanced from the start if they are in the end. -/
theorem balanced_back {g g' : Netlist} {made : List ConflictCheck} {K : Set Expr}
    (kept : g.Kept made K) (lasts : Lasts g g') (balanced : g'.Balanced) : g.Balanced := by
  rintro e (⟨id, leaf, found, driven⟩ | ⟨check, listed, rfl⟩)
  · obtain ⟨leaf', found', -, drive⟩ := lasts.leaf id leaf found
    have later := balanced e (.inl ⟨id, leaf', found', drive e driven⟩)
    exact balanced_congr later fun _ => lasts_declared lasts (kept.driver id leaf e found driven).2
  · have listed : check ∈ g.checks := by simpa using listed
    have later := balanced check.conflict
      (.inr ⟨check, by simpa using lasts.checks check listed, rfl⟩)
    have good := kept.checks check (List.mem_append_left _ (by simpa using listed))
    exact balanced_congr later fun _ => lasts_declared lasts good.checked

theorem move_fits {s s' : Stage} (move : Move s s') (kept : s.world.Kept s.known)
    (balanced : s.world.netlist.Balanced) (fits : s.world.netlist.Fits) : s'.world.netlist.Fits := by
  cases move with
  | number | stage | drop | make | watch => exact fits
  | @extend g g' _ _ extended next =>
    intro id leaf' found
    rcases extended.back found with ⟨leaf, subscribers, before, rfl⟩ | ⟨-, -, -, width, -⟩
    · exact fits id leaf before
    · exact width
  | attach attached free offered =>
    intro id leaf' found
    obtain ⟨leaf, before, step⟩ := attached.back found
    rw [step.same]
    exact fits id leaf before
  | commit done => exact fits_commit kept fits balanced done

theorem moves_fits {s s' : Stage} (moves : Moves s s') (kept : s.world.Kept s.known)
    (balanced : s'.world.netlist.Balanced) (fits : s.world.netlist.Fits) :
    s'.world.netlist.Fits := by
  induction moves with
  | refl => exact fits
  | tail before move ih =>
    have between := moves_kept before kept
    have earlier := balanced_back between (move_lasts move between) balanced
    exact move_fits move between earlier (ih earlier)

end Netlist

end CombLogic
