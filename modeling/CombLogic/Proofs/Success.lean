import CombLogic.Proofs.Numbering

/- Computations that number nodes and cannot fail, whatever well-shared set they start from. -/
namespace CombLogic

open Expr

variable {ε α β γ : Type} {K L : Set Expr}

def Succeeds (K : Set Expr) (m : Numbering (Except ε) α) : Prop :=
  ∀ L, K ⊆ L → ∀ n, Sharing L n → ∃ r, m n = .ok r

variable {m : Numbering (Except ε) α} {f : α → Numbering (Except ε) γ}

theorem succeeds_pure (a : α) : Succeeds K (pure a : Numbering (Except ε) α) :=
  fun _ _ n _ => ⟨(a, n), rfl⟩

theorem succeeds_bind {post : Set Expr → α → Prop} (first : Succeeds K m) (made : Makes K m post)
    (rest : ∀ L a, K ⊆ L → post L a → Succeeds L (f a)) : Succeeds K (m >>= f) := by
  intro L sub n sharing
  obtain ⟨⟨a, n'⟩, run⟩ := first L sub n sharing
  obtain ⟨L', grown, shared, here⟩ := made L sub n a n' sharing run
  obtain ⟨r, run'⟩ := rest L' a (sub.trans grown) here L' subset_rfl n' shared
  exact ⟨r, by simp only [bind, StateT.bind, Except.bind, run, run']⟩

theorem succeeds_mono (run : Succeeds K m) (sub : K ⊆ L) : Succeeds L m :=
  fun M larger => run M (sub.trans larger)

theorem succeeds_ask {r : Except ε α} {a : α} (found : r = .ok a) :
    Succeeds K (liftM r : Numbering (Except ε) α) := by
  subst found
  exact fun _ _ n _ => ⟨(a, n), rfl⟩

theorem succeeds_node {form : Nat → α} :
    Succeeds K (do return form (← Build.number) : Numbering (Except ε) α) :=
  fun _ _ n _ => ⟨(form n, n + 1), rfl⟩

theorem succeeds_of_builds {p : Option β} {b : β} {post : Set Expr → α → β → Prop}
    (run : Builds K m p post) (found : p = some b) : Succeeds K m := by
  intro L sub n sharing
  have here := run L sub n sharing
  rw [found] at here
  obtain ⟨a, n', L', done, -⟩ := here
  exact ⟨(a, n'), done⟩

theorem succeeds_mapM {f : β → Numbering (Except ε) γ} {post : Set Expr → β → γ → Prop}
    (bs : List β) (each : ∀ b ∈ bs, Succeeds K (f b))
    (made : ∀ b ∈ bs, Makes K (f b) fun L c => post L b c) : Succeeds K (bs.mapM f) := by
  induction bs generalizing K with
  | nil => exact succeeds_pure []
  | cons b rest ih =>
    rw [List.mapM_cons]
    refine succeeds_bind (each b (by simp)) (made b (by simp)) fun L c sub _ => ?_
    intro L' sub' n sharing
    obtain ⟨⟨cs, n'⟩, run⟩ := ih (fun b' later => each b' (by simp [later]))
      (fun b' later => made b' (by simp [later])) L' (sub.trans sub') n sharing
    exact ⟨(c :: cs, n'), by simp only [bind, StateT.bind, Except.bind, run]; rfl⟩

/-- A computation that cannot fail, whatever number it starts from. -/
def Goes (m : Numbering (Except ε) α) : Prop := ∀ n, ∃ r, m n = .ok r

theorem Goes.succeeds (goes : Goes m) : Succeeds K m := fun _ _ n _ => goes n

theorem goes_pure (a : α) : Goes (pure a : Numbering (Except ε) α) := fun n => ⟨(a, n), rfl⟩

theorem goes_bind (first : Goes m) (rest : ∀ a, Goes (f a)) : Goes (m >>= f) := by
  intro n
  obtain ⟨⟨a, n'⟩, run⟩ := first n
  obtain ⟨r, run'⟩ := rest a n'
  exact ⟨r, by simp only [bind, StateT.bind, Except.bind, run, run']⟩

theorem goes_ask {r : Except ε α} {a : α} (found : r = .ok a) :
    Goes (liftM r : Numbering (Except ε) α) := by
  subst found
  exact fun n => ⟨(a, n), rfl⟩

theorem goes_node {form : Nat → α} :
    Goes (do return form (← Build.number) : Numbering (Except ε) α) :=
  fun n => ⟨(form n, n + 1), rfl⟩

theorem goes_mapM {f : β → Numbering (Except ε) γ} (bs : List β) (each : ∀ b ∈ bs, Goes (f b)) :
    Goes (bs.mapM f) := by
  induction bs with
  | nil => exact goes_pure []
  | cons b rest ih =>
    rw [List.mapM_cons]
    refine goes_bind (each b (by simp)) fun c => goes_bind ?_ fun cs => goes_pure _
    exact ih fun b' later => each b' (by simp [later])

end CombLogic
