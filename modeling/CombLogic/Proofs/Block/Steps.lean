import CombLogic.Block.Compile

/- Executions step by step. Most parts of an execution look something up, build something or reject the
   block. What each of these steps has, and two executions in a row have if both of them do, all such
   parts have. -/
namespace CombLogic

/-- An error that says nothing about items that overlap or signals that are not assigned. -/
def BlockError.Plain : BlockError → Prop
  | unassignedRead .. | overlap .. => False
  | _ => True

/-- No check at the end of a block is about items. -/
def Block.Elsewhere (x : BlockError) : Prop := ∀ name i j, x ≠ .overlap name i j

theorem Block.plain_elsewhere {x : BlockError} (plain : x.Plain) : Elsewhere x := by
  intro name i j same
  subst same
  exact plain

/-- A property of computations that two of them in a row have if both do. Those that answer or fail at
    once have it, the latter for errors of some kind. -/
structure Sequential {σ : Type} (kind : BlockError → Prop)
    (P : ∀ α : Type, ExceptT BlockError (StateM σ) α → Prop) : Prop where
  answers : ∀ {α : Type} (a : α), P α (pure a)
  follows : ∀ {α β : Type} {m : ExceptT BlockError (StateM σ) α}
    {f : α → ExceptT BlockError (StateM σ) β}, P α m → (∀ a, P β (f a)) → P β (m >>= f)
  rejects : ∀ {α : Type} {x : BlockError}, kind x → P α (throw x)

/-- Such a property of executions that lookups and constructions have as well. -/
structure Stepwise (kind : BlockError → Prop) (P : ∀ α : Type, Executing α → Prop) : Prop
    extends Sequential kind P where
  asks : ∀ {α : Type} (r : Except NetlistError α), P α (Executing.ask r)
  builds : ∀ {α : Type} (b : Numbering (Except NetlistError) α), P α (Executing.build b)

namespace Sequential

variable {σ α β : Type} {kind : BlockError → Prop}
  {P : ∀ α : Type, ExceptT BlockError (StateM σ) α → Prop}

theorem branch {c : Prop} [Decidable c] {m n : ExceptT BlockError (StateM σ) α} (first : P α m)
    (second : P α n) : P α (if c then m else n) := by
  split
  · exact first
  · exact second

theorem mapM (steps : Sequential kind P) {f : β → ExceptT BlockError (StateM σ) α} (bs : List β)
    (each : ∀ b, P α (f b)) : P (List α) (bs.mapM f) := by
  induction bs with
  | nil => exact steps.answers []
  | cons b rest ih =>
    rw [List.mapM_cons]
    exact steps.follows (each b) fun _ => steps.follows ih fun _ => steps.answers _

/-- A loop whose answers are not looked at. -/
theorem each (steps : Sequential kind P) {f : β → ExceptT BlockError (StateM σ) PUnit} (bs : List β)
    (each : ∀ b ∈ bs, P PUnit (f b)) :
    P PUnit (forIn bs PUnit.unit fun b _ => do f b; pure (ForInStep.yield PUnit.unit)) := by
  induction bs with
  | nil => exact steps.answers PUnit.unit
  | cons b rest ih =>
    rw [List.forIn_cons]
    refine steps.follows (steps.follows (each b (by simp)) fun _ => steps.answers _) fun step => ?_
    cases step with
    | done => exact steps.answers _
    | yield => exact ih fun b' later => each b' (by simp [later])

end Sequential

namespace Stepwise

open Sequential (branch)

variable {kind fewer : BlockError → Prop} {P : ∀ α : Type, Executing α → Prop}

theorem restrict (steps : Stepwise kind P) (within : ∀ x, fewer x → kind x) : Stepwise fewer P :=
  ⟨⟨steps.answers, steps.follows, fun holds => steps.rejects (within _ holds)⟩, steps.asks, steps.builds⟩

section

variable (steps : Stepwise BlockError.Plain P) (c : ExecContext)

include steps

theorem assign (target : Ref) (value : Expr) (b : Binding) :
    P Binding (Executing.assign c target value b) := by
  unfold Executing.assign
  refine steps.follows (steps.asks _) fun width => steps.follows (steps.builds _) fun r => ?_
  have rejects : ∀ name, P PUnit (throw (.widthMismatch name width r.2)) :=
    fun name => steps.rejects trivial
  -- the rest stands behind a width that fits, and behind the error as well
  cases target with
  | leaf leaf =>
    have installs : P Binding (Executing.build (c.netlist.resolve b r.1) >>= fun resolved =>
        pure (b.insert leaf resolved)) :=
      steps.follows (steps.builds _) fun resolved => steps.answers _
    refine branch ?_ installs
    exact steps.follows (steps.asks _) fun name => steps.follows (rejects name) fun _ => installs
  | bundle id =>
    have installs : P Binding (Executing.build (c.netlist.resolve b r.1) >>= fun resolved =>
        Executing.build (c.netlist.distribute (.bundle id) resolved) >>= fun parts =>
          pure (Executing.bindAll b parts)) :=
      steps.follows (steps.builds _) fun resolved =>
        steps.follows (steps.builds _) fun parts => steps.answers _
    refine branch ?_ installs
    exact steps.follows (steps.asks _) fun name => steps.follows (rejects name) fun _ => installs

theorem condition (e : Expr) (b : Binding) : P Expr (Executing.condition c e b) := by
  unfold Executing.condition
  refine steps.follows (steps.builds _) fun r => ?_
  have rejects : P PUnit (throw (.notOneBit "if condition" r.2)) := steps.rejects trivial
  exact branch (steps.follows rejects fun _ => steps.builds _) (steps.builds _)

theorem joinBranches (condition : Expr) (thenArm elseArm : Binding) (leaves : List LeafId)
    (b : Binding) : P Binding (Executing.joinBranches condition thenArm elseArm leaves b) := by
  induction leaves generalizing b with
  | nil => exact steps.answers b
  | cons leaf rest ih =>
    unfold Executing.joinBranches
    refine steps.follows (steps.builds _) fun t => steps.follows (steps.builds _) fun f => ?_
    exact branch (ih _) (steps.follows (steps.builds _) fun joined => ih _)

theorem joinItems (found : List Expr) (arms : List Binding) (fallback : Binding)
    (leaves : List LeafId) (b : Binding) :
    P Binding (Executing.joinItems found arms fallback leaves b) := by
  induction leaves generalizing b with
  | nil => exact steps.answers b
  | cons leaf rest ih =>
    unfold Executing.joinItems
    refine steps.follows (steps.builds _) fun base => steps.follows (steps.builds _) fun last => ?_
    refine steps.follows (steps.builds _) fun values => branch (ih b) ?_
    exact steps.follows (steps.builds _) fun chain => ih _

theorem watchCase (watches : ∀ name e, P Unit (Executing.watch name e)) (path found : List Expr)
    (kind : CaseKind) (name : String) : P Unit (Executing.watchCase c path kind name found) := by
  unfold Executing.watchCase
  split
  · exact steps.follows (steps.builds _) fun conflict => watches name conflict
  · exact steps.answers ()

theorem unassigned (leaves : List LeafId) (b : Binding) : P Binding (Block.unassigned leaves b) := by
  induction leaves generalizing b with
  | nil => exact steps.answers b
  | cons leaf rest ih => exact steps.follows (steps.builds _) fun e => ih _

end

section

variable (steps : Stepwise Block.Elsewhere P)

include steps

theorem ensureAssigned (g : Netlist) (signal : Except NetlistError String) (e : Expr) :
    P Unit (Block.ensureAssigned g signal e) := by
  unfold Block.ensureAssigned
  split
  · refine steps.follows (steps.asks _) fun name => steps.follows (steps.asks _) fun read => ?_
    exact steps.rejects fun _ _ _ other => nomatch other
  · exact steps.answers _

theorem checkOutput (g : Netlist) (b : Binding) (leaf : LeafId) :
    P (LeafId × Expr) (Block.checkOutput g b leaf) := by
  unfold Block.checkOutput
  refine steps.follows (steps.builds _) fun e => ?_
  refine steps.follows (steps.ensureAssigned g _ e) fun _ => ?_
  exact steps.follows (steps.builds _) fun sized => steps.answers _

theorem checkConflict (g : Netlist) (selector : String) (conflict : Expr) :
    P ConflictCheck (Block.checkConflict g selector conflict) :=
  steps.follows (steps.ensureAssigned g _ conflict) fun _ => steps.builds _

end

end Stepwise

end CombLogic
