import CombLogic.Block.Execute
import CombLogic.Proofs.Numbering

/- Executions of statements. Whatever a successful one builds or sets aside to be watched lies in a
   larger well-shared set. -/
namespace CombLogic

open Expr

/-- All node numbers are given out, and what is to be watched is among the nodes. -/
structure ExecState.Ready (s : ExecState) (K : Set Expr) : Prop where
  sharing : Sharing K s.nextNode
  watched : ∀ c ∈ s.conflicts.toList, c.2 ∈ K

def Yields {α : Type} (K : Set Expr) (m : Executing α) (post : Set Expr → α → Prop) : Prop :=
  ∀ L, K ⊆ L → ∀ s a s', s.Ready L → m s = (.ok a, s') → ∃ L', L ⊆ L' ∧ s'.Ready L' ∧ post L' a

section

variable {α β γ : Type} {K L : Set Expr} {m : Executing α} {f : α → Executing β}
  {post : Set Expr → α → Prop} {final : Set Expr → β → Prop}

theorem yields_pure {a : α} (holds : ∀ L, K ⊆ L → post L a) : Yields K (pure a) post := by
  intro L sub s b s' ready run
  cases run
  exact ⟨L, subset_rfl, ready, holds L sub⟩

theorem yields_bind (first : Yields K m post)
    (rest : ∀ L next a, K ⊆ L → Sharing L next → post L a → Yields L (f a) final) :
    Yields K (m >>= f) final := by
  intro L sub s c s'' ready run
  obtain ⟨r, s', before⟩ : ∃ r s', m s = (r, s') := ⟨_, _, rfl⟩
  simp only [bind, ExceptT.bind, ExceptT.mk, StateT.bind, before] at run
  cases r with
  | error x => cases run
  | ok a =>
    obtain ⟨L', grown, still, here⟩ := first L sub s a s' ready before
    obtain ⟨L'', more, done, there⟩ :=
      rest L' s'.nextNode a (sub.trans grown) still.sharing here L' subset_rfl s' c s'' still run
    exact ⟨L'', grown.trans more, done, there⟩

theorem yields_mono (run : Yields K m post) (sub : K ⊆ L) : Yields L m post :=
  fun L' larger => run L' (sub.trans larger)

theorem yields_weaken {later : Set Expr → α → Prop} (run : Yields K m post)
    (weaker : ∀ L a, K ⊆ L → post L a → later L a) : Yields K m later := by
  intro L sub s a s' ready done
  obtain ⟨L', grown, still, here⟩ := run L sub s a s' ready done
  exact ⟨L', grown, still, weaker L' a (sub.trans grown) here⟩

/-- Two facts about an answer, one of them about the answer alone. -/
theorem yields_both {also : α → Prop} (run : Yields K m post) (other : Yields K m fun _ a => also a) :
    Yields K m fun L a => post L a ∧ also a := by
  intro L sub s a s' ready done
  obtain ⟨L', grown, still, here⟩ := run L sub s a s' ready done
  obtain ⟨-, -, -, there⟩ := other L sub s a s' ready done
  exact ⟨L', grown, still, here, there⟩

theorem yields_ask {r : Except NetlistError α} (holds : ∀ a, r = .ok a → ∀ L, K ⊆ L → post L a) :
    Yields K (Executing.ask r) post := by
  intro L sub s a s' ready run
  cases r with
  | error x => cases run
  | ok b =>
    cases run
    exact ⟨L, subset_rfl, ready, holds _ rfl L sub⟩

theorem yields_lift {r : Except BlockError α} (holds : ∀ a, r = .ok a → ∀ L, K ⊆ L → post L a) :
    Yields K (liftM r : Executing α) post := by
  intro L sub s a s' ready run
  cases r with
  | error x => cases run
  | ok b =>
    cases run
    exact ⟨L, subset_rfl, ready, holds _ rfl L sub⟩

theorem yields_build {b : Numbering (Except NetlistError) α} (made : Makes K b post) :
    Yields K (Executing.build b) post := by
  intro L sub s a s' ready run
  unfold Executing.build at run
  split at run
  · rename_i a' next done
    cases run
    obtain ⟨L', grown, shared, here⟩ := made L sub s.nextNode a next ready.sharing done
    exact ⟨L', grown, ⟨shared, fun c listed => grown (ready.watched c listed)⟩, here⟩
  · cases run

/-- A call that looks something up for its error. -/
theorem yields_reject {r : Except NetlistError α} {error : α → BlockError}
    {k : γ → Executing β} :
    Yields K (Executing.ask r >>= fun a => throw (error a) >>= k) final := by
  intro L sub s b s' ready run
  cases r <;> cases run

theorem yields_throw (fails : ∀ s, ∃ x s', m s = (.error x, s')) : Yields K m post := by
  intro L sub s a s' ready run
  obtain ⟨x, t, failed⟩ := fails s
  rw [failed] at run
  cases run

theorem yields_report (d : Diagnostic) : Yields K (Executing.report d) fun _ _ => True := by
  intro L sub s a s' ready run
  cases run
  exact ⟨L, subset_rfl, ⟨ready.sharing, ready.watched⟩, trivial⟩

theorem yields_watch (selector : String) {conflict : Expr} (inside : conflict ∈ K) :
    Yields K (Executing.watch selector conflict) fun _ _ => True := by
  intro L sub s a s' ready run
  cases run
  refine ⟨L, subset_rfl, ⟨ready.sharing, fun c listed => ?_⟩, trivial⟩
  rcases (by simpa using listed : c ∈ s.conflicts ∨ c = (selector, conflict)) with old | rfl
  · exact ready.watched c (by simpa using old)
  · exact sub inside

theorem yields_mapM {g : β → Executing γ} {post : Set Expr → β → γ → Prop}
    (mono : ∀ L L' b c, L ⊆ L' → post L b c → post L' b c) (bs : List β)
    (each : ∀ b ∈ bs, Yields K (g b) fun L c => post L b c) :
    Yields K (bs.mapM g) fun L cs => List.Forall₂ (post L) bs cs := by
  induction bs with
  | nil => exact yields_pure fun L _ => .nil
  | cons b rest ih =>
    rw [List.mapM_cons]
    refine yields_bind (each b (by simp)) fun L _ c sub _ here => ?_
    refine yields_bind (yields_mono (ih fun b' later => each b' (by simp [later])) sub) ?_
    intro L' _ cs sub' _ there
    exact yields_pure fun L'' sub'' =>
      .cons (mono L L'' b c (sub'.trans sub'') here) (there.imp fun b c => mono L' L'' b c sub'')

/-- A loop whose answers are not looked at. -/
theorem yields_each {g : β → Executing PUnit} (bs : List β)
    (each : ∀ b ∈ bs, Yields K (g b) fun _ _ => True) :
    Yields K (forIn bs PUnit.unit fun b _ => do g b; pure (ForInStep.yield PUnit.unit))
      fun _ _ => True := by
  induction bs with
  | nil => exact yields_pure fun _ _ => trivial
  | cons b rest ih =>
    rw [List.forIn_cons]
    refine yields_bind (?_ : Yields K _ fun _ step => step = .yield PUnit.unit) ?_
    · exact yields_bind (each b (by simp)) fun L _ _ _ _ _ => yields_pure fun _ _ => rfl
    · rintro L _ _ sub _ rfl
      exact yields_mono (ih fun b' later => each b' (by simp [later])) sub

end

end CombLogic
