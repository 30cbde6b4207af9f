import CombLogic.Proofs.Block.Emits
import CombLogic.Proofs.Block.Logs
import CombLogic.Proofs.Twins.Resolving

/- Executions in two runs, the first one under a rule that rejects and watches no more than that of the
   other. Where the other run goes through, so does the first, and both come to twins. -/
namespace CombLogic

open Expr

variable {α α' β β' γ γ' : Type} {rule : OverlapRule} {base next next' : Nat}
  {P Q : Set (Expr × Expr)}

/-- A watched condition in two runs. -/
abbrev OneWatch (P : Set (Expr × Expr)) (w w' : String × Expr) : Prop :=
  w.1 = w'.1 ∧ (w.2, w'.2) ∈ P

/-- States of two runs that watch the same, unless the first one watches nothing. The logs may
    differ. -/
structure ExecState.Beside (rule : OverlapRule) (base : Nat) (P : Set (Expr × Expr))
    (s s' : ExecState) : Prop where
  twins : Twins base P s.nextNode s'.nextNode
  watched : List.Forall₂ (OneWatch P) s.conflicts.toList
    (if rule = .allow then [] else s'.conflicts.toList)

def Tracks (rule : OverlapRule) (base : Nat) (P : Set (Expr × Expr)) (m : Executing α)
    (m' : Executing α') (post : Set (Expr × Expr) → α → α' → Prop) : Prop :=
  ∀ Q, P ⊆ Q → ∀ s s', s.Beside rule base Q s' → ∀ a' t', m' s' = (.ok a', t') →
    ∃ a t R, m s = (.ok a, t) ∧ Q ⊆ R ∧ t.Beside rule base R t' ∧ post R a a'

theorem watched_mono (sub : P ⊆ Q) {ws ws' : List (String × Expr)}
    (watched : List.Forall₂ (OneWatch P) ws ws') : List.Forall₂ (OneWatch Q) ws ws' :=
  watched.imp fun _ _ one => ⟨one.1, sub one.2⟩

section

variable {m : Executing α} {m' : Executing α'} {f : α → Executing β} {f' : α' → Executing β'}
  {post : Set (Expr × Expr) → α → α' → Prop} {final : Set (Expr × Expr) → β → β' → Prop}

theorem tracks_pure {a : α} {a' : α'} (holds : ∀ Q, P ⊆ Q → post Q a a') :
    Tracks rule base P (pure a) (pure a') post := by
  intro Q sub s s' beside b' t' run
  cases run
  exact ⟨a, s, Q, rfl, subset_rfl, beside, holds Q sub⟩

theorem tracks_bind (first : Tracks rule base P m m' post)
    (rest : ∀ Q n n' a a', P ⊆ Q → Twins base Q n n' → post Q a a' →
      Tracks rule base Q (f a) (f' a') final) : Tracks rule base P (m >>= f) (m' >>= f') final := by
  intro Q sub s s' beside c' u' run
  obtain ⟨a', t', before, after⟩ := executing_bind run
  obtain ⟨a, t, R, done, grown, still, here⟩ := first Q sub s s' beside a' t' before
  obtain ⟨c, u, S, done', more, last, there⟩ :=
    rest R _ _ a a' (sub.trans grown) still.twins here R subset_rfl t t' still c' u' after
  exact ⟨c, u, S, (step_ok done).trans done', grown.trans more, last, there⟩

theorem tracks_mono (run : Tracks rule base P m m' post) (sub : P ⊆ Q) :
    Tracks rule base Q m m' post :=
  fun R larger => run R (sub.trans larger)

theorem tracks_weaken {later : Set (Expr × Expr) → α → α' → Prop}
    (run : Tracks rule base P m m' post) (weaker : ∀ Q a a', P ⊆ Q → post Q a a' → later Q a a') :
    Tracks rule base P m m' later := by
  intro Q sub s s' beside a' t' done
  obtain ⟨a, t, R, here, grown, still, holds⟩ := run Q sub s s' beside a' t' done
  exact ⟨a, t, R, here, grown, still, weaker R a a' (sub.trans grown) holds⟩

theorem tracks_ask (r : Except NetlistError α) :
    Tracks rule base P (Executing.ask r) (Executing.ask r) fun _ a a' => a = a' := by
  intro Q sub s s' beside a' t' run
  cases r with
  | error x => cases run
  | ok a =>
    cases run
    exact ⟨_, s, Q, rfl, subset_rfl, beside, rfl⟩

theorem tracks_lift {r : Except BlockError α} {r' : Except BlockError α'}
    (passes : ∀ a', r' = .ok a' → ∃ a, r = .ok a) :
    Tracks rule base P (liftM r : Executing α) (liftM r' : Executing α') fun _ _ _ => True := by
  intro Q sub s s' beside a' t' run
  cases r' with
  | error x => cases run
  | ok b' =>
    cases run
    obtain ⟨a, rfl⟩ := passes a' rfl
    exact ⟨a, s, Q, rfl, subset_rfl, beside, trivial⟩

theorem tracks_build {b : Numbering (Except NetlistError) α} {b' : Numbering (Except NetlistError) α'}
    (run : Mirrors base P b b' post) :
    Tracks rule base P (Executing.build b) (Executing.build b') post := by
  intro Q sub s s' beside a' t' done
  unfold Executing.build at done ⊢
  split at done
  · rename_i b' next ran
    cases done
    obtain ⟨a, k, R, here, grown, twins, holds⟩ := run Q sub _ _ beside.twins _ _ ran
    exact ⟨a, { s with nextNode := k }, R, by rw [here], grown,
      ⟨twins, watched_mono grown beside.watched⟩, holds⟩
  · cases done

/-- Where the other run fails there is nothing to follow. -/
theorem tracks_fails (fails : ∀ s, ∃ x t, m' s = (.error x, t)) :
    Tracks rule base P m m' post := by
  intro Q sub s s' beside a' t' run
  obtain ⟨x, t, failed⟩ := fails s'
  cases failed.symm.trans run

theorem tracks_reject {r : Except NetlistError γ} {error : γ → BlockError} {k : γ' → Executing α'} :
    Tracks rule base P m (Executing.ask r >>= fun b => throw (error b) >>= k) post := by
  refine tracks_fails fun s => ?_
  cases r with
  | error x => exact ⟨_, _, rfl⟩
  | ok b => exact ⟨_, _, rfl⟩

theorem tracks_mapM {g : γ → Executing β} {g' : γ' → Executing β'}
    {post : Set (Expr × Expr) → β → β' → Prop}
    (mono : ∀ Q R b b', Q ⊆ R → post Q b b' → post R b b') {cs : List γ} {cs' : List γ'}
    (each : List.Forall₂ (fun c c' => Tracks rule base P (g c) (g' c') post) cs cs') :
    Tracks rule base P (cs.mapM g) (cs'.mapM g') fun Q => List.Forall₂ (post Q) := by
  induction each with
  | nil => exact tracks_pure fun _ _ => .nil
  | cons head _ ih =>
    rw [List.mapM_cons, List.mapM_cons]
    refine tracks_bind head fun Q _ _ b b' sub _ here => ?_
    refine tracks_bind (tracks_mono ih sub) fun R _ _ bs bs' sub' _ there => ?_
    exact tracks_pure fun S sub'' =>
      .cons (mono Q S b b' (sub'.trans sub'') here) (there.imp fun b b' => mono R S b b' sub'')

/-- What is reported makes no difference. -/
theorem tracks_reports (ds ds' : List Diagnostic) :
    Tracks rule base P (forIn ds PUnit.unit fun d _ => do
      Executing.report d
      pure (ForInStep.yield PUnit.unit)) (forIn ds' PUnit.unit fun d _ => do
      Executing.report d
      pure (ForInStep.yield PUnit.unit)) fun _ _ _ => True := by
  intro Q sub s s' beside a' t' run
  have here := reports_run ds s
  cases (reports_run ds' s').symm.trans run
  exact ⟨_, _, Q, here, subset_rfl, ⟨beside.twins, beside.watched⟩, trivial⟩

end

end CombLogic
