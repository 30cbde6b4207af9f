import CombLogic.Proofs.Block.Overlap
import CombLogic.Proofs.Block.Visits

/- Errors of a block. Nothing but the checks at its end rejects a signal as read before it is assigned,
   and those let pass what is assigned. -/
namespace CombLogic

open Expr Stmt

/-- From some state, a computation rejects no signal as read before it is assigned. -/
def SparesFrom {σ α : Type} (s : σ) (m : ExceptT BlockError (StateM σ) α) : Prop :=
  ∀ s' signal read, m s ≠ (.error (.unassignedRead signal read), s')

def Spares {σ α : Type} (m : ExceptT BlockError (StateM σ) α) : Prop := ∀ s, SparesFrom s m

section

variable {σ α β : Type} {m : ExceptT BlockError (StateM σ) α}
  {f : α → ExceptT BlockError (StateM σ) β}

theorem spares_pure (a : α) : Spares (pure a : ExceptT BlockError (StateM σ) α) := by
  intro s s' signal read run
  cases run

theorem spares_inv {s s'' : σ} (first : SparesFrom s m) {signal read : String}
    (run : (m >>= f) s = (.error (.unassignedRead signal read), s'')) :
    ∃ a s', m s = (.ok a, s') ∧ f a s' = (.error (.unassignedRead signal read), s'') :=
  error_inv (fun s' => first s' signal read) run

theorem spares_bind (first : Spares m) (rest : ∀ s a s', m s = (.ok a, s') → Spares (f a)) :
    Spares (m >>= f) := by
  intro s s'' signal read run
  obtain ⟨a, s', before, after⟩ := spares_inv (first s) run
  exact rest s a s' before s' s'' signal read after

theorem spares_then (first : Spares m) (rest : ∀ a, Spares (f a)) : Spares (m >>= f) :=
  spares_bind first fun _ a _ _ => rest a

theorem spares_mapM {g : β → ExceptT BlockError (StateM σ) α} (bs : List β)
    (each : ∀ b ∈ bs, Spares (g b)) : Spares (bs.mapM g) := by
  induction bs with
  | nil => exact spares_pure []
  | cons b rest ih =>
    rw [List.mapM_cons]
    refine spares_then (each b (by simp)) fun _ => ?_
    exact spares_then (ih fun b' later => each b' (by simp [later])) fun _ => spares_pure _

theorem spares_plain (plain : Raises BlockError.Plain m) : Spares m :=
  fun s s' _ _ => raises_not plain id s s'

end

/-- Statements never fail so, whatever the block assigns. -/
theorem tells_spares {α : Type} {settings : BlockSettings} {shapes : List Coverage.Shape}
    {m : Executing α} {s : ExecState} (tells : TellsFrom settings BlockError.Plain shapes m s) :
    SparesFrom s m := by
  intro s' signal read run
  obtain ⟨ds, -, visits⟩ := tells
  rw [run] at visits
  rcases Coverage.visits_error visits with plain | ⟨shape, -, failed⟩
  · cases plain
  · obtain ⟨-, -, i, j, -, other⟩ := Coverage.check_error failed
    cases other

namespace Block

variable {g : Netlist} {b : Binding}

theorem ensureAssigned_spares {e : Expr} (done : e.Assigned) (signal : Except NetlistError String) :
    Spares (ensureAssigned g signal e) := by
  unfold ensureAssigned
  cases missed : e.firstUnassigned? with
  | none => exact spares_pure ()
  | some read =>
    obtain ⟨n, inside, here⟩ := find_some missed
    cases (done n inside).symm.trans here

theorem get_assigned {leaf : LeafId} (done : ∀ e, b.get? leaf = some e → e.Assigned)
    {s s' : ExecState} {e : Expr} (run : Executing.build (b.get leaf) s = (.ok e, s')) : e.Assigned := by
  unfold Binding.get at run
  cases found : b.get? leaf with
  | some f =>
    rw [found] at run
    cases run
    exact done e found
  | none =>
    rw [found] at run
    cases run
    exact all_iff.mpr ⟨rfl, by simp [children]⟩

theorem checkOutput_spares {leaf : LeafId} (done : ∀ e, b.get? leaf = some e → e.Assigned) :
    Spares (checkOutput g b leaf) := by
  refine spares_bind (spares_plain (raises_build _)) fun s e s' run => ?_
  refine spares_then (ensureAssigned_spares (get_assigned done run) _) fun _ => ?_
  exact spares_then (spares_plain (raises_build _)) fun sized => spares_pure _

theorem checkConflict_spares {conflict : Expr} (done : conflict.Assigned) (selector : String) :
    Spares (checkConflict g selector conflict) :=
  spares_then (ensureAssigned_spares done _) fun _ => spares_plain (raises_build _)

end Block

end CombLogic
