import CombLogic.Proofs.Netlist.Settled
import CombLogic.Proofs.Netlist.Widths
import CombLogic.Proofs.Unknown.Expr

/- What the leaves that nothing drives say about all others in a netlist in which no driver waits: they
   have values of their widths, so have the others; and the less is known of them, the less is known of
   the others. -/
namespace CombLogic

open Expr Netlist

namespace Netlist

/-- Every leaf that nothing drives has a value of its width. -/
def InputsFit (g : Netlist) : Prop :=
  ∀ id leaf, g.leaves.get? id = some leaf → leaf.drive.isDriven = false →
    leaf.value.width = leaf.width

/-- No driver has an exact match in it. -/
def Wild (g : Netlist) : Prop :=
  ∀ id leaf, g.leaves.get? id = some leaf → ∀ e, leaf.drive = .driven e → e.Wild

/-- All parts of all drivers have bits. -/
def Solid (g : Netlist) : Prop :=
  ∀ id leaf, g.leaves.get? id = some leaf → ∀ e, leaf.drive = .driven e → e.Solid g.declared

/-- The values of leaves that nothing drives are below other ones. -/
def InputsBelow (g h : Netlist) : Prop :=
  ∀ id leaf, g.leaves.get? id = some leaf → ∀ leaf', h.leaves.get? id = some leaf' →
    leaf.drive.isDriven = false → leaf.value.Below leaf'.value

section

variable {g h : Netlist} {made made' : List ConflictCheck} {K L : Set Expr}

/-- A leaf that nothing drives ends a pass with the value that was staged for it, or with its own. -/
theorem settledLeaf_input {pass : PassResult} (done : g.runPass = .ok pass)
    {id : LeafId} {leaf : Leaf} (found : g.leaves.get? id = some leaf)
    (input : leaf.drive.isDriven = false) :
    (g.settledLeaf pass id leaf).value = leaf.value ∨
      g.staged.get? id = some (g.settledLeaf pass id leaf).value := by
  obtain ⟨ev, sorted, evaluated, values⟩ := runPass_ok done
  by_cases listed : id ∈ pass.order
  · have same : pass.values[id]? = g.staged.get? id := by
      rw [values, evaluateDrivers_frame evaluated fun _ leaf' found' => ?_, passStart_values]
      obtain rfl : leaf = leaf' := by simpa [found] using found'
      exact input
    simp only [settledLeaf, listed, ↓reduceIte, valueAt, same]
    cases staged : g.staged.get? id with
    | none => exact .inl rfl
    | some value => exact .inr rfl
  · exact .inl (by simp [settledLeaf, listed])

theorem inputsFit_commit {pass : PassResult} (kept : g.Kept made K) (done : g.runPass = .ok pass)
    (fit : g.InputsFit) : (g.commit (g.changesOf pass)).InputsFit := by
  intro id leaf' found input
  obtain ⟨leaf, before, rfl⟩ := commit_back found
  have undriven := (settledLeaf_isDriven kept pass before).symm.trans input
  rcases settledLeaf_input done before undriven with same | staged
  · rw [same]
    exact fit id leaf before undriven
  · obtain ⟨leaf', found', -, width⟩ := kept.staged id _ staged
    obtain rfl : leaf = leaf' := by simpa [before] using found'
    exact width

theorem clean_fits (kept : g.Kept made K) (wait : g.LoopsWait) (clean : g.dirty.keys = [])
    (solid : g.Solid) (inputs : g.InputsFit) : g.Fits := by
  intro id
  induction id using clean_induction wait clean with
  | step id sources =>
    intro leaf found
    cases drive : leaf.drive with
    | undriven | root => exact inputs id leaf found (by rw [drive]; rfl)
    | driven e =>
      have fits : g.env.Fits g.declared e := by
        intro d read
        obtain ⟨source, there⟩ := kept_read kept found drive read
        have same := sources d ⟨leaf, e, found, drive, read⟩ source there
        exact ⟨source.value, by rw [env_value, value_ok there], by rw [declared_get, there, same]; rfl⟩
      exact value_width e (kept.driver id leaf e found drive).2.width (solid id leaf found e drive)
        fits (kept.fresh id leaf e found drive (by simp [clean]))

/-- Values below others lead to values below others. -/
theorem clean_below (kept : g.Kept made K) (kept' : h.Kept made' L) (wait : g.LoopsWait)
    (clean : g.dirty.keys = []) (clean' : h.dirty.keys = []) (drivers : g.SameDrivers h)
    (wild : g.Wild) (solid : g.Solid) (fits : g.Fits) (inputs : g.InputsBelow h) (id : LeafId) :
    ∀ leaf, g.leaves.get? id = some leaf → ∀ leaf', h.leaves.get? id = some leaf' →
      leaf.value.Below leaf'.value := by
  induction id using clean_induction wait clean with
  | step id sources =>
    intro leaf found leaf' found'
    cases drive : leaf.drive with
    | undriven | root => exact inputs id leaf found leaf' found' (by rw [drive]; rfl)
    | driven e =>
      obtain ⟨leaf'', e', found'', drive', alike⟩ := driverShape_driver drivers found drive
      obtain rfl : leaf' = leaf'' := by simpa [found'] using found''
      have here := kept.fresh id leaf e found drive (by simp [clean])
      have there := kept'.fresh id leaf' e' found' drive' (by simp [clean'])
      have checked := (kept.driver id leaf e found drive).2
      have below : g.env.Below h.env e := by
        intro d read v held
        obtain ⟨source, listed⟩ := kept_read kept found drive read
        obtain ⟨source', listed', -⟩ := driverShape_leaf drivers listed
        rw [env_value, value_ok listed] at held
        cases held
        refine ⟨source'.value, by rw [env_value, value_ok listed'], ?_⟩
        exact sources d ⟨leaf, e, found, drive, read⟩ source listed source' listed'
      exact value_below e checked.width (solid id leaf found e drive) (wild id leaf found e drive)
        (fits_env fits checked) below here (value_alike alike ▸ there)

end

end Netlist

theorem move_inputsFit {s s' : Stage} (move : Move s s') (kept : s.world.Kept s.known)
    (fit : s.world.netlist.InputsFit) : s'.world.netlist.InputsFit := by
  cases move with
  | number | stage | drop | make | watch => exact fit
  | @extend g g' _ _ extended next =>
    intro id leaf' found input
    rcases extended.back found with ⟨leaf, subscribers, before, rfl⟩ | ⟨-, -, -, width, -⟩
    · exact fit id leaf before input
    · exact width
  | attach attached free offered =>
    intro id leaf' found input
    obtain ⟨leaf, before, step⟩ := attached.back found
    rcases step.drive with ⟨-, drive⟩ | ⟨e, -, drive⟩
    · rw [step.same]
      exact fit id leaf before (drive ▸ input)
    · simp [drive, Drive.isDriven] at input
  | commit done => exact inputsFit_commit kept done fit

end CombLogic
