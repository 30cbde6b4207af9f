import CombLogic.Proofs.Block.Replay
import CombLogic.Proofs.Block.Total
import CombLogic.Proofs.Latches
import CombLogic.Proofs.Netlist.Pieces

/- Blocks of assignments and choices whose expressions have the widths of their places. Nothing in them
   is watched, and their execution does not fail; they are rejected as latches or not at all. -/
namespace CombLogic

open Expr Stmt
open Netlist hiding exprs

section Resolving

variable {g : Netlist} {b : Binding}

/-- Every target that an expression reads has a width. -/
def Netlist.Knows (g : Netlist) (e : Expr) : Prop :=
  e.All fun n => ∀ target ∈ n.target?, (g.declared target).isSome

theorem knows_readable {e : Expr} (knows : g.Knows e) : e.Readable g := by
  intro node target inside
  cases target with
  | leaf leaf => exact ⟨_, leavesOf_leaf⟩
  | bundle id =>
    obtain ⟨width, declared⟩ := Option.isSome_iff_exists.mp (knows _ inside _ rfl)
    obtain ⟨parts, found, -⟩ := declared_parts declared
    exact ⟨_, (leafWidths_ok found).1⟩

theorem resolve_goes {e : Expr} (knows : g.Knows e) : Goes (g.resolve b e) := by
  intro n
  obtain ⟨⟨⟨r, memo⟩, n'⟩, run⟩ := resolve_completes (b := b) e (knows_readable knows) {} n
  exact ⟨(r, n'), by simp [Netlist.resolve, StateT.run, run, Functor.map, StateT.map, bind, Except.bind,
    pure, Except.pure]⟩

/-- Sizing knows the targets of what it sizes. -/
theorem sized_knows {e t : Expr} {context : Option Nat} {width : Nat}
    (sized : e.sized g.declared context = some (t, width)) : g.Knows t := by
  obtain ⟨w, fits⟩ := sized_fitted sized
  obtain ⟨own, natural, -⟩ := Option.bind_eq_some_iff.mp sized
  have known := fitted_known e fits (by simp [natural])
  refine all_fitted (by simp [target?]) (fun n parent => ?_) e fits fun n inside _ => ?_
  · cases n <;> simp_all [isAtom, target?]
  · intro target read
    cases n with
    | read node other =>
      obtain rfl : other = target := by simpa [target?] using read
      obtain ⟨own, natural⟩ := Option.isSome_iff_exists.mp (known _ inside)
      obtain ⟨width, declared, -⟩ := Option.bind_eq_some_iff.mp natural
      exact Option.isSome_of_eq_some declared
    | _ => simp [target?] at read

end Resolving

/-- An execution that does not fail. -/
abbrev Unfailing {α : Type} (K : Set Expr) (m : Executing α) : Prop := FailsAs (fun _ => False) K m

section

variable {K : Set Expr} {next : Nat} {c : ExecContext} {b : Binding} {e : Expr}

theorem knows_alike {g : Netlist} {a e : Expr} (alike : a.shape = e.shape) (knows : g.Knows e) :
    g.Knows a :=
  all_alike (fun n => by cases n <;> simp [shape, target?]) alike knows

theorem resolve_unfailing {g : Netlist} {t : Expr} {context : Option Nat} {width : Nat}
    (sized : e.sized g.declared context = some (t, width)) {s : Expr} (alike : s.shape = t.shape) :
    Unfailing K (Executing.build (g.resolve b s)) :=
  failsAs_build (resolve_goes (knows_alike alike (sized_knows sized))).succeeds

theorem assign_unfailing (sharing : Sharing K next) (good : b.Good K) (member : e ∈ K) {target : Ref}
    (shares : (c.netlist.shares target e).isSome) : Unfailing K (Executing.assign c target e b) := by
  obtain ⟨ps, shares⟩ := Option.isSome_iff_exists.mp shares
  obtain ⟨width, declared, t, sized⟩ : ∃ width, c.netlist.declared target = some width ∧
      ∃ t, e.sized c.netlist.declared (some width) = some (t, width) := by
    cases target with
    | leaf leaf =>
      obtain ⟨t, width, declared, sized, -⟩ := shares_leaf.mp shares
      exact ⟨width, declared, t, sized⟩
    | bundle id =>
      obtain ⟨t, parts, -, declared, sized, -⟩ := shares_bundle.mp shares
      exact ⟨_, declared, t, sized⟩
  refine failsAs_bind (failsAs_ask (of_toOption declared)) (yields_ask fun width' found L _ => found) ?_
  intro L₁ _ width' sub₁ _ found
  obtain rfl := Except.ok.inj ((of_toOption declared).symm.trans found)
  have builds := succeeds_of_builds (sizeFor_builds (g := c.netlist) sharing member (some width)) sized
  refine failsAs_bind (failsAs_build (succeeds_mono builds sub₁))
    (yields_mono (yields_build (makes_sized sharing member _)) sub₁) ?_
  rintro L₂ _ ⟨s, actual⟩ sub₂ sharing₂ ⟨inside, ⟨t', sized', alike⟩, -⟩
  obtain ⟨rfl, rfl⟩ := Prod.mk.inj (Option.some.inj (sized.symm.trans sized'))
  simp only [ne_eq, not_true_eq_false, ↓reduceIte]
  refine failsAs_bind (resolve_unfailing sized alike) (yields_build (resolve_makes sharing₂
    (within_mono (sub₁.trans sub₂) good.within) inside)) ?_
  rintro L₃ _ r _ _ ⟨replaced, -⟩
  cases target with
  | leaf leaf => exact failsAs_pure _
  | bundle id =>
    obtain ⟨parts, widths, -⟩ := declared_parts declared
    have cut : Goes (distribute c.netlist (.bundle id) r) :=
      goes_bind (goes_ask widths) fun parts n => slices_done r parts 0 n
    exact failsAs_bind (failsAs_build cut.succeeds) (yields_build (distribute_pieces replaced _))
      fun _ _ _ _ _ _ => failsAs_pure _

theorem condition_unfailing (sharing : Sharing K next) (member : e ∈ K)
    (single : ∃ t, e.sized c.netlist.declared (some 1) = some (t, 1)) :
    Unfailing K (Executing.condition c e b) := by
  obtain ⟨t, sized⟩ := single
  have builds := succeeds_of_builds (sizeFor_builds (g := c.netlist) sharing member (some 1)) sized
  refine failsAs_bind (failsAs_build builds) (yields_build (makes_sized sharing member _)) ?_
  rintro L _ ⟨s, width⟩ sub sharing' ⟨inside, ⟨t', sized', alike⟩, -⟩
  obtain ⟨rfl, rfl⟩ := Prod.mk.inj (Option.some.inj (sized.symm.trans sized'))
  exact resolve_unfailing sized alike

theorem build_ok {α : Type} {m : Numbering (Except NetlistError) α} (goes : Goes m) (s : ExecState) :
    ∃ a s', Executing.build m s = (.ok a, s') := by
  obtain ⟨⟨a, n⟩, run⟩ := goes s.nextNode
  exact ⟨a, { s with nextNode := n }, by simp only [Executing.build, run]⟩

theorem unassigned_ok (leaves : List LeafId) (b : Binding) (s : ExecState) : ∃ start s',
    Block.unassigned leaves b s = (.ok start, s') := by
  induction leaves generalizing b s with
  | nil => exact ⟨b, s, rfl⟩
  | cons leaf rest ih =>
    obtain ⟨e, s₁, first⟩ := build_ok (m := Build.unassigned leaf) goes_node s
    obtain ⟨start, s', later⟩ := ih (b.insert leaf e) s₁
    exact ⟨start, s', (step_ok first).trans later⟩

theorem joinBranches_ok (condition : Expr) (thenArm elseArm : Binding) (leaves : List LeafId)
    (b : Binding) (s : ExecState) : ∃ after s',
      Executing.joinBranches condition thenArm elseArm leaves b s = (.ok after, s') := by
  induction leaves generalizing b s with
  | nil => exact ⟨b, s, rfl⟩
  | cons leaf rest ih =>
    obtain ⟨t, s₁, first⟩ := build_ok (get_goes thenArm leaf) s
    obtain ⟨f, s₂, second⟩ := build_ok (get_goes elseArm leaf) s₁
    simp only [Executing.joinBranches]
    rw [step_ok first, step_ok second]
    split
    · exact ih _ s₂
    · obtain ⟨e, s₃, third⟩ := build_ok (m := Build.mux condition t f) goes_node s₂
      rw [step_ok third]
      exact ih _ s₃

end

namespace Stmt

section

variable (g : Netlist)

mutual

/-- Assignments and choices in which the expressions have the widths of their places. -/
def Plain : Stmt → Prop
  | .assign target e => (g.shares target e).isSome
  | .ifElse condition thenBody elseBody =>
    (∃ t, condition.sized g.declared (some 1) = some (t, 1)) ∧ BodyPlain thenBody ∧ BodyPlain elseBody
  | .case .. => False

def BodyPlain : List Stmt → Prop
  | [] => True
  | s :: rest => Plain s ∧ BodyPlain rest

end

end

end Stmt

section

variable {c : ExecContext}

mutual

theorem statement_unfailing {K : Set Expr} {next : Nat} {b : Binding} {path : List Expr}
    (sharing : Sharing K next) (s : Stmt) (runs : Runs c K b path s.exprs s.targets)
    (plain : s.Plain c.netlist) : Unfailing K (Executing.statement c path s b) := by
  cases s with
  | assign target value =>
    simp only [Executing.statement]
    exact assign_unfailing sharing runs.good (runs.inside value (by simp [exprs])) plain
  | ifElse e thenBody elseBody =>
    obtain ⟨single, one, two⟩ := plain
    simp only [Executing.statement]
    have member := runs.inside e (by simp [exprs])
    refine failsAs_bind (condition_unfailing sharing member single)
      (condition_yields sharing runs.good member c) ?_
    rintro L₁ _ holds sub₁ sharing₁ decides
    have first := runs_then runs sub₁ decides.fit
    refine failsAs_bind (body_unfailing sharing₁ thenBody first one)
      (body_yields sharing₁ thenBody first) ?_
    rintro L₂ _ thenArm sub₂ _ -
    have negated := fit_mono sub₂ decides.fit
    refine failsAs_bind (failsAs_build goes_node.succeeds) (yields_build (unary_fits negated)) ?_
    rintro L₃ _ fails sub₃ sharing₃ ⟨fit, -⟩
    have second := runs_else runs ((sub₁.trans sub₂).trans sub₃) fit
    refine failsAs_bind (body_unfailing sharing₃ elseBody second two)
      (body_yields sharing₃ elseBody second) ?_
    intro L₄ _ elseArm _ _ _ L' _ s x s' _ run
    obtain ⟨after, t, done⟩ := joinBranches_ok holds thenArm elseArm b.keys b s
    cases done.symm.trans run
  | case => exact plain.elim

theorem body_unfailing {K : Set Expr} {next : Nat} {b : Binding} {path : List Expr}
    (sharing : Sharing K next) (body : List Stmt)
    (runs : Runs c K b path (bodyExprs body) (bodyTargets body)) (plain : BodyPlain c.netlist body) :
    Unfailing K (Executing.body c path body b) := by
  cases body with
  | nil =>
    simp only [Executing.body]
    exact failsAs_pure b
  | cons s rest =>
    simp only [Executing.body]
    have first := runs_first runs
    refine failsAs_bind (statement_unfailing sharing s first plain.1)
      (statement_yields sharing s first) ?_
    rintro L _ b' sub sharing' follows
    have later := runs_next runs sub follows
    exact body_unfailing sharing' rest later plain.2

end

mutual

theorem statement_quiet (path : List Expr) (s : Stmt) (plain : s.Plain c.netlist) (b : Binding) :
    Quiet (Executing.statement c path s b) := by
  cases s with
  | assign target value =>
    simp only [Executing.statement]
    exact quiet_steps.assign c target value b
  | ifElse e thenBody elseBody =>
    simp only [Executing.statement]
    refine quiet_bind (quiet_steps.condition c e b) fun holds => ?_
    refine quiet_bind (body_quiet _ thenBody plain.2.1 b) fun thenArm => ?_
    refine quiet_bind (quiet_build _) fun fails => ?_
    refine quiet_bind (body_quiet _ elseBody plain.2.2 b) fun elseArm => ?_
    exact quiet_steps.joinBranches holds thenArm elseArm b.keys b
  | case => exact plain.elim

theorem body_quiet (path : List Expr) (body : List Stmt) (plain : BodyPlain c.netlist body)
    (b : Binding) : Quiet (Executing.body c path body b) := by
  cases body with
  | nil =>
    simp only [Executing.body]
    exact quiet_pure b
  | cons s rest =>
    simp only [Executing.body]
    exact quiet_bind (statement_quiet path s plain.1 b) fun b' => body_quiet path rest plain.2 b'

end

end

section

variable {g : Netlist}

mutual

theorem statement_known (s : Stmt) (plain : s.Plain g) :
    ∀ target ∈ s.targets, ∃ leaves, g.leavesOf target = .ok leaves := by
  cases s with
  | assign target value =>
    obtain ⟨ps, shares⟩ := Option.isSome_iff_exists.mp plain
    refine List.forall_mem_singleton.mpr ?_
    cases target with
    | leaf leaf => exact ⟨[leaf], leavesOf_leaf⟩
    | bundle id =>
      obtain ⟨t, parts, widths, -⟩ := shares_bundle.mp shares
      exact ⟨_, (leafWidths_ok widths).1⟩
  | ifElse e thenBody elseBody =>
    exact List.forall_mem_append.mpr ⟨body_known thenBody plain.2.1, body_known elseBody plain.2.2⟩
  | case => exact plain.elim

theorem body_known (body : List Stmt) (plain : BodyPlain g body) :
    ∀ target ∈ bodyTargets body, ∃ leaves, g.leavesOf target = .ok leaves := by
  cases body with
  | nil => simp [bodyTargets]
  | cons s rest =>
    exact List.forall_mem_append.mpr ⟨statement_known s plain.1, body_known rest plain.2⟩

end

theorem plain_outputs {statements : List Stmt} (plain : BodyPlain g statements) :
    ∃ outputs, Block.outputs g statements = .ok outputs := by
  obtain ⟨lists, each⟩ := forall₂_found (body_known statements plain)
  exact ⟨_, by rw [Block.outputs, ok_mapM each]; rfl⟩

end

section

variable {K : Set Expr} {g : Netlist} (settings : BlockSettings) (log : Option DiagnosticLog)
  {statements : List Stmt} {outputs : List LeafId} (sharing : Sharing K g.nextNode)
  (inside : ∀ e ∈ bodyExprs statements, e ∈ K) (found : Block.outputs g statements = .ok outputs)
  (plain : BodyPlain g statements)

include sharing inside found plain

theorem plain_replays : ∃ final t,
    Block.replay ⟨g, settings⟩ statements outputs ⟨g.nextNode, log, #[]⟩ = (.ok final, t) ∧
      t.conflicts = #[] := by
  obtain ⟨start, s₁, begun⟩ := unassigned_ok outputs .empty ⟨g.nextNode, log, #[]⟩
  obtain ⟨L, sub, ready, -, -, runs⟩ := start_yields (c := ⟨g, settings⟩) inside (outputs_nodup found)
    (outputs_cover found) K subset_rfl _ start s₁ ⟨sharing, by simp⟩ begun
  obtain ⟨result, t, run⟩ : ∃ result t,
      Executing.body ⟨g, settings⟩ [] statements start s₁ = (result, t) := ⟨_, _, rfl⟩
  cases result with
  | error x =>
    exact (body_unfailing ready.sharing statements runs plain L subset_rfl s₁ x t ready run).elim
  | ok final =>
    have none := quiet_steps.unassigned outputs .empty _ start s₁ begun
    exact ⟨final, t, (step_ok begun).trans run,
      (body_quiet [] statements plain start s₁ final t run).trans none⟩

/-- What is assigned on all paths, and only read behind that, makes a plan. -/
theorem plain_planned (named : g.Named) (there : ∀ leaf ∈ outputs, ∃ width, g.HasWidth (leaf, width))
    (stable : BodyStable g statements) (written : ∀ e ∈ bodyExprs statements, e.Assigned)
    (flow : Block.DefinitelyAssigned g statements) : ∃ plan t,
      Block.plan ⟨g, settings⟩ statements outputs ⟨g.nextNode, log, #[]⟩ = (.ok plan, t) := by
  obtain ⟨final, t, ran, nothing⟩ := plain_replays settings log sharing inside found plain
  obtain ⟨L, start, replayed, ready, latches⟩ :=
    replay_checked sharing inside found named there stable ran
  obtain ⟨result, t', checked⟩ : ∃ result t',
      outputs.mapM (Block.checkOutput g final) t = (result, t') := ⟨_, _, rfl⟩
  cases result with
  | error x =>
    obtain ⟨signal, read, rfl⟩ := latches L subset_rfl t x t' ready checked
    have failed : Block.plan ⟨g, settings⟩ statements outputs ⟨g.nextNode, log, #[]⟩ =
        (.error (.unassignedRead signal read), t') := by
      rw [Block.plan_replay, step_ok ran]
      exact step_error checked
    exact (plan_spares sharing inside written found flow t' signal read failed).elim
  | ok drivers =>
    have steps : Stepwise Block.Elsewhere fun _ m => Quiet m := quiet_steps
    have same : t'.conflicts = t.conflicts :=
      steps.mapM outputs (steps.checkOutput g final) t drivers t' checked
    refine ⟨(drivers, []), t', ?_⟩
    rw [Block.plan_replay, step_ok ran]
    have got : (get : Executing ExecState) t' = (.ok t', t') := rfl
    refine (step_ok checked).trans ((step_ok got).trans ?_)
    rw [same, nothing]
    rfl

end

end CombLogic
