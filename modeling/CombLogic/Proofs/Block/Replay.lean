import CombLogic.Proofs.Block.Atomic
import CombLogic.Proofs.Block.Latching
import CombLogic.Proofs.Block.Logs

/- The statements of a block executed from a binding in which no output is assigned, and what the
   outcome says about the compilation of the block. -/
namespace CombLogic

open Expr Netlist Stmt

namespace Block

def replay (c : ExecContext) (statements : List Stmt) (outputs : List LeafId) : Executing Binding := do
  Executing.body c [] statements (← unassigned outputs .empty)

/-- What the check phase does with the final binding. -/
def review (c : ExecContext) (outputs : List LeafId) (final : Binding) :
    Executing (List (LeafId × Expr) × List ConflictCheck) := do
  let drivers ← outputs.mapM (checkOutput c.netlist final)
  let conflicts := (← get).conflicts.toList
  let checks ← conflicts.mapM fun (selector, conflict) => checkConflict c.netlist selector conflict
  return (drivers, checks)

theorem plan_replay (c : ExecContext) (statements : List Stmt) (outputs : List LeafId) :
    plan c statements outputs = replay c statements outputs >>= review c outputs := by
  simp only [plan, replay, bind_assoc]
  rfl

end Block

/-- The outcome of a replay, with the binding that it started from. -/
structure Replayed (g : Netlist) (statements : List Stmt) (outputs : List LeafId) (L : Set Expr)
    (start final : Binding) : Prop where
  seeds : ∀ leaf e, start.get? leaf = some e → ∃ n, e = .unassigned n leaf
  keys : start.keys = outputs
  follows : Follows g start (fun scene => scene.runAll statements) L final
  traces : BodyTraces g statements start final

section

variable {K L : Set Expr} {next : Nat} {c : ExecContext} {g : Netlist} {settings : BlockSettings}
  {statements : List Stmt} {outputs : List LeafId} {b start final : Binding}

theorem unassigned_seeds (leaves : List LeafId) : Yields K (Block.unassigned leaves b) fun _ start =>
    ∀ leaf e, start.get? leaf = some e → b.get? leaf = some e ∨ ∃ n, e = .unassigned n leaf := by
  induction leaves generalizing b K with
  | nil => exact yields_pure fun _ _ leaf e found => .inl found
  | cons leaf rest ih =>
    simp only [Block.unassigned]
    refine yields_bind (yields_build (makes_node (fun _ => rfl) (by simp [children]))) ?_
    rintro L _ _ sub _ ⟨-, n, rfl⟩
    refine yields_weaken ih fun L' start _ seeds other e found => ?_
    rcases seeds other e found with here | seed
    · rw [OrderedMap.get?_insert] at here
      split at here
      · rename_i same
        exact .inr ⟨n, same ▸ (Option.some.inj here).symm⟩
      · exact .inl here
    · exact .inr seed

theorem replay_yields (inside : ∀ e ∈ bodyExprs statements, e ∈ K)
    (found : Block.outputs c.netlist statements = .ok outputs) :
    Yields K (Block.replay c statements outputs) fun L final =>
      ∃ start, Replayed c.netlist statements outputs L start final := by
  refine yields_bind (yields_both (start_yields inside (outputs_nodup found) (outputs_cover found))
    (unassigned_seeds outputs)) ?_
  rintro L₁ _ start sub₁ sharing₁ ⟨⟨-, keys, runs⟩, seeds⟩
  refine yields_weaken (body_executes sharing₁ statements runs) ?_
  intro L₂ final sub₂ both
  obtain ⟨follows, traces⟩ := both
  exact ⟨start, fun leaf e here => (seeds leaf e here).resolve_left (by simp), keys, follows, traces⟩

theorem Replayed.blank (replayed : Replayed g statements outputs L start final) : Blank start := by
  intro leaf e found assigned
  obtain ⟨n, rfl⟩ := replayed.seeds leaf e found
  cases assigned _ (.root _)

/-- Two runs from different stores agree on an output that is assigned. -/
theorem Replayed.agree (replayed : Replayed g statements outputs L start final) {leaf : LeafId}
    (output : leaf ∈ outputs) (assigned : (final.entry leaf).Assigned) {env : Env} {σ σ' : Store}
    (run : Scene.runAll ⟨g, env, outputs⟩ statements σ = some σ') :
    (final.entry leaf).value env = .ok (σ' leaf) := by
  have holds := replayed.follows.holds env σ σ' (blank_holds replayed.blank env σ)
    (by rw [sceneOf, replayed.keys]; exact run)
  have known : leaf ∈ final.keys := by rw [replayed.follows.keys, replayed.keys]; exact output
  obtain ⟨e, found⟩ := OrderedMap.get?_of_mem_keys known
  rw [entry_of_get found] at assigned ⊢
  exact holds leaf e found assigned

theorem Replayed.finished (replayed : Replayed g statements outputs L start final)
    (there : ∀ leaf ∈ outputs, ∃ width, g.HasWidth (leaf, width)) (stable : BodyStable g statements) :
    final.Finished g := by
  refine body_finished statements stable (fun leaf e found => ?_) replayed.traces
  obtain ⟨n, rfl⟩ := replayed.seeds leaf e found
  have listed : leaf ∈ outputs := replayed.keys ▸ OrderedMap.mem_keys_of_get? found
  obtain ⟨width, entry, known, own⟩ := there leaf listed
  have declared : g.declared (.leaf leaf) = some width := by simpa [declared_get, known] using own
  exact ⟨width, ⟨entry, known, own⟩,
    finished_atom rfl ⟨by simp [natural, declared], rfl⟩ rfl⟩

variable (sharing : Sharing K g.nextNode) (inside : ∀ e ∈ bodyExprs statements, e ∈ K)
  (found : Block.outputs g statements = .ok outputs)

include sharing inside found

/-- The drivers of a plan are what the replay behind it leaves in the outputs. -/
theorem passes_replayed {plan : List (LeafId × Expr) × List ConflictCheck}
    (passes : Passes settings g statements outputs plan) : ∃ L start final,
      Replayed g statements outputs L start final ∧
        ∃ L', List.Forall₂ (fun leaf p => Output g final leaf L' p) outputs plan.1 := by
  obtain ⟨log, t, ran⟩ := passes
  rw [Block.plan_replay] at ran
  obtain ⟨final, s₁, first, rest⟩ := executing_bind ran
  obtain ⟨L, sub, ready, start, replayed⟩ :=
    replay_yields (c := ⟨g, settings⟩) inside found K subset_rfl _ final s₁ ⟨sharing, by simp⟩ first
  obtain ⟨drivers, s₂, checked, rest⟩ := executing_bind rest
  obtain ⟨L', -, -, each⟩ := checkOutputs_yields replayed.follows.good outputs L subset_rfl s₁
    drivers s₂ ready checked
  obtain ⟨_, _, -, rest⟩ := executing_bind rest
  obtain ⟨_, _, -, rest⟩ := executing_bind rest
  cases rest
  exact ⟨L, start, final, replayed, L', each⟩

/-- The check phase over a replay that went through: outputs that are not all assigned latch, and
    nothing else is the matter with them. -/
theorem replay_checked {log : Option DiagnosticLog} {t : ExecState} (named : g.Named)
    (there : ∀ leaf ∈ outputs, ∃ width, g.HasWidth (leaf, width)) (stable : BodyStable g statements)
    (ran : Block.replay ⟨g, settings⟩ statements outputs ⟨g.nextNode, log, #[]⟩ = (.ok final, t)) :
    ∃ L start, Replayed g statements outputs L start final ∧ t.Ready L ∧
      Latches L (outputs.mapM (Block.checkOutput g final)) := by
  obtain ⟨L, sub, ready, start, replayed⟩ :=
    replay_yields (c := ⟨g, settings⟩) inside found K subset_rfl _ final t ⟨sharing, by simp⟩ ran
  exact ⟨L, start, replayed, ready, checkOutputs_latch replayed.follows.good named
    (replayed.finished there stable) outputs there⟩

theorem plan_latches {log : Option DiagnosticLog} {t : ExecState} (named : g.Named)
    (there : ∀ leaf ∈ outputs, ∃ width, g.HasWidth (leaf, width)) (stable : BodyStable g statements)
    (ran : Block.replay ⟨g, settings⟩ statements outputs ⟨g.nextNode, log, #[]⟩ = (.ok final, t))
    (lacking : ∃ leaf ∈ outputs, ¬(final.entry leaf).Assigned) : ∃ signal read t',
      Block.plan ⟨g, settings⟩ statements outputs ⟨g.nextNode, log, #[]⟩ =
        (.error (.unassignedRead signal read), t') := by
  obtain ⟨L, start, replayed, ready, latches⟩ :=
    replay_checked sharing inside found named there stable ran
  obtain ⟨result, t', checked⟩ : ∃ result t',
      outputs.mapM (Block.checkOutput g final) t = (result, t') := ⟨_, _, rfl⟩
  rw [Block.plan_replay, step_ok ran]
  cases result with
  | ok drivers =>
    obtain ⟨L', -, -, each⟩ := checkOutputs_yields replayed.follows.good outputs L subset_rfl t
      drivers t' ready checked
    obtain ⟨leaf, output, missed⟩ := lacking
    exact (missed (outputs_assigned each leaf output)).elim
  | error x =>
    obtain ⟨signal, read, rfl⟩ := latches L subset_rfl t x t' ready checked
    exact ⟨signal, read, t', step_error checked⟩

omit sharing inside in
/-- The error of the check phase is the error of the compilation. -/
theorem compile_rejects {log : Option DiagnosticLog} {x : BlockError} {t : ExecState}
    (free : ∀ id ∈ outputs, g.Free id)
    (failed : Block.plan ⟨g, settings⟩ statements outputs ⟨g.nextNode, log, #[]⟩ = (.error x, t)) :
    ∃ s, Block.compile settings statements ⟨g, log⟩ = (.error x, s) := by
  have executed : Compiling.execute (Block.plan ⟨g, settings⟩ statements outputs) ⟨g, log⟩ =
      (.error x, ⟨g, t.log⟩) := by
    simp [Compiling.execute, failed]
  obtain done : _ ∧ _ := (ensureAll_cases outputs ⟨g, log⟩).resolve_right (by
    rintro ⟨x, -, taken⟩
    exact taken free)
  have state : (get : Compiling Session) ⟨g, log⟩ = (.ok ⟨g, log⟩, ⟨g, log⟩) := rfl
  have quietly : Block.compileQuietly settings statements ⟨g, log⟩ = (.error x, ⟨g, t.log⟩) := by
    unfold Block.compileQuietly
    rw [step_ok (ask_ok found), step_ok done.1, step_ok state]
    exact step_error executed
  simp only [Block.compile, quietly]
  split
  · exact ⟨_, rfl⟩
  · exact ⟨_, rfl⟩

end

end CombLogic
