import CombLogic.Proofs.Block.Guards
import CombLogic.Proofs.Block.Steps

/- What an execution sets aside to be watched. Only a case sets something aside; all other steps leave
   the list as it is. -/
namespace CombLogic

open Expr

/-- An execution that sets nothing aside. -/
def Quiet {α : Type} (m : Executing α) : Prop :=
  ∀ s a s', m s = (.ok a, s') → s'.conflicts = s.conflicts

/-- What a successful execution sets aside, behind what was set aside before. -/
def Logs {α : Type} (K : Set Expr) (m : Executing α) (post : α → List (String × Expr) → Prop) :
    Prop :=
  ∀ L, K ⊆ L → ∀ s a s', s.Ready L → m s = (.ok a, s') →
    ∃ new, s'.conflicts.toList = s.conflicts.toList ++ new ∧ post a new

section

variable {α β γ : Type} {K : Set Expr} {m : Executing α} {f : α → Executing β}

theorem executing_bind {s s'' : ExecState} {b : β} (run : (m >>= f) s = (.ok b, s'')) :
    ∃ a s', m s = (.ok a, s') ∧ f a s' = (.ok b, s'') := by
  obtain ⟨result, s', before⟩ : ∃ result s', m s = (result, s') := ⟨_, _, rfl⟩
  cases result with
  | error x => cases (step_error before).symm.trans run
  | ok a => exact ⟨a, s', before, (step_ok before).symm.trans run⟩

section Quiet

theorem quiet_pure (a : α) : Quiet (pure a) := by
  intro s b s' run
  cases run
  rfl

theorem quiet_bind (first : Quiet m) (rest : ∀ a, Quiet (f a)) : Quiet (m >>= f) := by
  intro s b s'' run
  obtain ⟨a, s', before, after⟩ := executing_bind run
  exact (rest a s' b s'' after).trans (first s a s' before)

theorem quiet_build (b : Numbering (Except NetlistError) α) : Quiet (Executing.build b) := by
  intro s a s' run
  unfold Executing.build at run
  split at run <;> cases run
  rfl

theorem quiet_ask (r : Except NetlistError α) : Quiet (Executing.ask r) := by
  intro s a s' run
  cases r <;> cases run
  rfl

theorem quiet_lift (r : Except BlockError α) : Quiet (liftM r : Executing α) := by
  intro s a s' run
  cases r <;> cases run
  rfl

theorem quiet_throw (x : BlockError) : Quiet (throw x : Executing α) := by
  intro s a s' run
  cases run

theorem quiet_report (d : Diagnostic) : Quiet (Executing.report d) := by
  intro s a s' run
  cases run
  rfl

theorem quiet_steps {kind : BlockError → Prop} : Stepwise kind fun _ m => Quiet m where
  answers := quiet_pure
  follows := quiet_bind
  rejects _ := quiet_throw _
  asks := quiet_ask
  builds := quiet_build

end Quiet

section

variable {post : α → List (String × Expr) → Prop} {final : β → List (String × Expr) → Prop}
  {kept : Set Expr → α → Prop}

theorem logs_quiet (quiet : Quiet m) : Logs K m fun _ new => new = [] := by
  intro L sub s a s' ready run
  exact ⟨[], by simp [quiet s a s' run], rfl⟩

/-- What an execution that sets nothing aside answers. -/
theorem logs_yields (run : Yields K m kept) (quiet : Quiet m) :
    Logs K m fun a new => new = [] ∧ ∃ L, kept L a := by
  intro L sub s a s' ready done
  obtain ⟨L', -, -, here⟩ := run L sub s a s' ready done
  exact ⟨[], by simp [quiet s a s' done], rfl, L', here⟩

theorem logs_pure {a : α} (holds : post a []) : Logs K (pure a) post := by
  intro L sub s b s' ready run
  cases run
  exact ⟨[], by simp, holds⟩

theorem logs_weaken {later : α → List (String × Expr) → Prop} (run : Logs K m post)
    (weaker : ∀ a new, post a new → later a new) : Logs K m later := by
  intro L sub s a s' ready done
  obtain ⟨new, added, here⟩ := run L sub s a s' ready done
  exact ⟨new, added, weaker a new here⟩

theorem logs_bind (first : Yields K m kept) (logged : Logs K m post)
    (rest : ∀ L next a new, K ⊆ L → Sharing L next → kept L a → post a new →
      Logs L (f a) fun b later => final b (new ++ later)) : Logs K (m >>= f) final := by
  intro L sub s b s'' ready run
  obtain ⟨a, s', before, after⟩ := executing_bind run
  obtain ⟨new, added, here⟩ := logged L sub s a s' ready before
  obtain ⟨L', grown, still, holds⟩ := first L sub s a s' ready before
  obtain ⟨more, added', there⟩ := rest L' s'.nextNode a new (sub.trans grown) still.sharing holds here
    L' subset_rfl s' b s'' still after
  exact ⟨new ++ more, by rw [added', added, List.append_assoc], there⟩

/-- The same behind a step that sets nothing aside. -/
theorem logs_step (first : Yields K m kept) (quiet : Quiet m)
    (rest : ∀ L next a, K ⊆ L → Sharing L next → kept L a → Logs L (f a) final) :
    Logs K (m >>= f) final := by
  refine logs_bind first (logs_quiet quiet) ?_
  rintro L next a _ sub sharing holds rfl
  exact rest L next a sub sharing holds

theorem logs_watch (selector : String) (conflict : Expr) :
    Logs K (Executing.watch selector conflict) fun _ new => new = [(selector, conflict)] := by
  intro L sub s a s' ready run
  cases run
  exact ⟨_, by simp, rfl⟩

end

end

namespace Executing

variable (c : ExecContext)

theorem itemMatches_quiet (kind : CaseKind) (selector : Expr) (items : List CaseItem)
    (b : Binding) : Quiet (itemMatches c kind selector items b) := by
  have steps : Stepwise BlockError.Plain fun _ m => Quiet m := quiet_steps
  refine quiet_bind (quiet_build _) fun r => quiet_bind ?_ fun found => ?_
  · exact steps.mapM items fun item => steps.mapM item.patterns fun pattern => quiet_build _
  · refine quiet_bind (quiet_ask _) fun name => quiet_bind (quiet_lift _) fun warnings => ?_
    refine quiet_bind (steps.each warnings fun d _ => quiet_report d) fun _ => ?_
    refine quiet_bind (quiet_build _) fun resolved => ?_
    exact quiet_bind (quiet_build _) fun joints => quiet_pure _

/-- A unique case of several items sets its condition aside, and any other case nothing. -/
theorem watchCase_logs {K : Set Expr} {path found : List Expr} {kind : CaseKind} {name : String}
    (watching : c.settings.overlapRule ≠ .allow) (above : ∀ e ∈ path, Fit K e)
    (fits : ∀ e ∈ found, Fit K e) : Logs K (watchCase c path kind name found) fun _ new =>
      if kind.unique ∧ 1 < found.length then
        ∃ e, new = [(name, e)] ∧ e.Integerless ∧ Watched path found e
      else new = [] := by
  rw [watchCase_eq]
  by_cases several : kind.unique ∧ 1 < found.length
  · rw [if_pos ⟨several.1, watching, several.2⟩]
    simp only [if_pos several]
    refine logs_step (yields_build (conflictOf_makes above fits)) (quiet_build _) ?_
    rintro L next e sub sharing ⟨fit, watched⟩
    exact logs_weaken (logs_watch name e) fun _ new same => ⟨e, same, fit.2, watched⟩
  · rw [if_neg fun both => several ⟨both.1, both.2.2⟩]
    simp only [if_neg several]
    exact logs_quiet (quiet_pure ())

end Executing

end CombLogic
