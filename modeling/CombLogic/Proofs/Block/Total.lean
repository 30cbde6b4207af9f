import CombLogic.Proofs.Block.Resolve
import CombLogic.Proofs.Success

/- Resolution fails for no other reason than a target whose leaves cannot be found. -/
namespace CombLogic

open Expr

/-- A resolution that cannot fail, whatever was resolved before. -/
def Completes {α : Type} (m : Resolving α) : Prop := ∀ memo, Goes (m memo)

section

variable {α β : Type} {m : Resolving α} {f : α → Resolving β} {g : Netlist} {b : Binding}

theorem completes_pure (a : α) : Completes (pure a) := fun memo => goes_pure (a, memo)

theorem completes_bind (first : Completes m) (rest : ∀ a, Completes (f a)) : Completes (m >>= f) :=
  fun memo => goes_bind (first memo) fun r => rest r.1 r.2

theorem completes_build {r : Numbering (Except NetlistError) α} (goes : Goes r) :
    Completes (Resolving.build r) := by
  intro memo n
  obtain ⟨⟨a, n'⟩, run⟩ := goes n
  exact ⟨((a, memo), n'), by simp [Resolving.build, liftM, monadLift, MonadLift.monadLift, StateT.lift,
    bind, StateT.bind, Except.bind, run, pure, stateT_pure, Except.pure]⟩

theorem completes_remember {find : Resolving Expr} (found : Completes find) (node : Nat) :
    Completes (Resolving.remember node find) := by
  intro memo n
  rw [remember_run]
  cases memo[node]? with
  | some e => exact ⟨_, rfl⟩
  | none =>
    obtain ⟨r, run⟩ := found memo n
    exact ⟨_, by rw [run]; rfl⟩

theorem completes_keep (e : Expr) (operands : List Expr) : Completes (Resolving.keep e operands) := by
  refine completes_build ?_
  unfold Expr.rebuild
  split
  · exact goes_pure _
  · exact goes_node

theorem completes_all {es : List Expr} (each : ∀ e ∈ es, Completes (e.resolve g b)) :
    Completes (resolveAll g b es) := by
  induction es with
  | nil => exact completes_pure []
  | cons e rest ih =>
    refine completes_bind (each e (by simp)) fun r => completes_bind ?_ fun rs => completes_pure _
    exact ih fun e' later => each e' (by simp [later])

theorem get_goes (b : Binding) (leaf : LeafId) : Goes (ε := NetlistError) (b.get leaf) := by
  unfold Binding.get
  split
  · exact goes_pure _
  · exact goes_node

theorem readBinding_goes {target : Ref} {leaves : List LeafId}
    (found : g.leavesOf target = .ok leaves) : Goes (g.readBinding b target) := by
  cases target with
  | leaf leaf => exact get_goes b leaf
  | bundle id =>
    exact goes_bind (goes_ask found) fun leaves =>
      goes_bind (goes_mapM leaves fun leaf _ => get_goes b leaf) fun es => goes_node

/-- Every target that an expression reads has leaves. -/
def Expr.Readable (g : Netlist) (e : Expr) : Prop :=
  ∀ node target, e.Contains (.read node target) → ∃ leaves, g.leavesOf target = .ok leaves

theorem resolve_completes (e : Expr) (readable : e.Readable g) : Completes (e.resolve g b) := by
  induction e using operand_induction with
  | step e ih =>
    cases stays : e.stays with
    | true =>
      rw [resolve_stays stays]
      exact completes_pure e
    | false =>
      by_cases unread : ∀ node target, e ≠ .read node target
      · rw [resolve_parent stays unread]
        refine completes_remember (completes_bind (completes_all fun a operand => ?_)
          (completes_keep e)) e.node
        exact ih a operand fun node target inside => readable node target (.within operand inside)
      · push Not at unread
        obtain ⟨node, target, rfl⟩ := unread
        obtain ⟨leaves, found⟩ := readable node target (.root _)
        exact completes_remember (completes_build (readBinding_goes found)) node

/-- Whatever was imaged could be read. -/
theorem imaged_readable {image : Expr → Expr} {e : Expr} (imaged : e.Imaged g b image) :
    e.Readable g := by
  intro node target inside
  have becomes : Becomes g b image _ _ := imaged _ inside
  generalize image (.read node target) = r at becomes
  cases becomes with
  | leaf => exact ⟨_, Netlist.leavesOf_leaf⟩
  | bundle found => exact ⟨_, found⟩
  | same unread => exact (unread node target rfl).elim
  | new operand => simp [children] at operand

end

end CombLogic
