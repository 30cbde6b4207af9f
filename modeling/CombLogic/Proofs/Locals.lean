import CombLogic.Proofs.Block.Paths
import CombLogic.Proofs.Block.Replay
import CombLogic.Proofs.Block.Sources
import CombLogic.Proofs.Block.Meaning

/- Scratch signals. No driver of a block depends on what the leaves that the block assigns had before
   it, and a block that would let such a value through is rejected. A scratch signal that the block
   never assigns is read as any other signal is. -/
namespace CombLogic

open Expr Netlist Stmt

/-- Ways to find that a value from before a block gets into one of its outputs. -/
inductive Block.ReadsEarly (g : Netlist) (statements : List Stmt) (outputs : List LeafId) : Prop where
  /-- A way through the text leaves bits of such a value in an output, whatever the conditions are. -/
  | path (path : List (Ref × Expr)) (listed : path ∈ bodyPaths statements)
      (left : (path.foldl g.stale outputs.toFinset).Nonempty)
  /-- Two runs that differ only in what the outputs had at the start end with different values. -/
  | runs (env : Env) (σ₁ σ₂ σ₁' σ₂' : Store) (leaf : LeafId)
      (first : Scene.runAll ⟨g, env, outputs⟩ statements σ₁ = some σ₁')
      (second : Scene.runAll ⟨g, env, outputs⟩ statements σ₂ = some σ₂')
      (output : leaf ∈ outputs) (differ : σ₁' leaf ≠ σ₂' leaf)

section

variable {K L : Set Expr} {g : Netlist} {settings : BlockSettings} {log : Option DiagnosticLog}
  {statements : List Stmt} {outputs : List LeafId} {start final : Binding}

theorem Replayed.stale (replayed : Replayed g statements outputs L start final) :
    start.Stale outputs.toFinset := by
  intro leaf listed
  have bound : leaf ∈ start.keys := replayed.keys ▸ List.mem_toFinset.mp listed
  obtain ⟨e, found⟩ := OrderedMap.get?_of_mem_keys bound
  exact ⟨e, found, replayed.blank leaf e found⟩

/-- What is read early is not assigned in the end. -/
theorem early_unassigned (replayed : Replayed g statements outputs L start final)
    (early : Block.ReadsEarly g statements outputs) :
    ∃ leaf ∈ outputs, ¬(final.entry leaf).Assigned := by
  cases early with
  | path path listed left =>
    obtain ⟨leaf, member⟩ := left
    obtain ⟨e, found, missed⟩ :=
      body_stale statements replayed.traces replayed.stale path listed leaf member
    have keys : final.keys = outputs := replayed.follows.keys.trans replayed.keys
    exact ⟨leaf, keys ▸ OrderedMap.mem_keys_of_get? found, entry_of_get found ▸ missed⟩
  | runs env σ₁ σ₂ σ₁' σ₂' leaf first second output differ =>
    refine ⟨leaf, output, fun assigned => differ ?_⟩
    have one := replayed.agree output assigned first
    exact Except.ok.inj (one.symm.trans (replayed.agree output assigned second))

variable (sharing : Sharing K g.nextNode) (inside : ∀ e ∈ bodyExprs statements, e ∈ K)

include sharing inside

/-- A plan has no driver for what is read early. -/
theorem early_unplanned {plan : List (LeafId × Expr) × List ConflictCheck}
    (found : Block.outputs g statements = .ok outputs)
    (early : Block.ReadsEarly g statements outputs) : ¬Passes settings g statements outputs plan := by
  intro passes
  obtain ⟨L, start, final, replayed, L', each⟩ := passes_replayed sharing inside found passes
  obtain ⟨leaf, output, missed⟩ := early_unassigned replayed early
  exact missed (outputs_assigned each leaf output)

theorem early_rejected {s : Session} (same : s.netlist = g)
    (found : Block.outputs g statements = .ok outputs)
    (early : Block.ReadsEarly g statements outputs) :
    ∃ x s', Block.compile settings statements s = (.error x, s') := by
  subst same
  rcases compile_cases settings s sharing inside with ⟨x, s', failed, -⟩ |
    ⟨outputs', drivers, checks, L, s', done, compiled⟩
  · exact ⟨x, s', failed⟩
  · cases Except.ok.inj (found.symm.trans compiled.found)
    exact (early_unplanned sharing inside found early compiled.passes).elim

/-- Where nothing else is the matter with the block, it is rejected as a latch. -/
theorem early_latches {t : ExecState} (named : g.Named)
    (found : Block.outputs g statements = .ok outputs) (free : ∀ leaf ∈ outputs, g.Free leaf)
    (stable : BodyStable g statements)
    (ran : Block.replay ⟨g, settings⟩ statements outputs ⟨g.nextNode, log, #[]⟩ = (.ok final, t))
    (early : Block.ReadsEarly g statements outputs) : ∃ signal read s,
      Block.compile settings statements ⟨g, log⟩ = (.error (.unassignedRead signal read), s) := by
  have there : ∀ leaf ∈ outputs, ∃ width, g.HasWidth (leaf, width) :=
    fun leaf output => free_width (free leaf output)
  obtain ⟨L, start, replayed, -⟩ := replay_checked sharing inside found named there stable ran
  obtain ⟨signal, read, t', planned⟩ := plan_latches sharing inside found named there stable ran
    (early_unassigned replayed early)
  obtain ⟨s, rejected⟩ := compile_rejects found free planned
  exact ⟨signal, read, s, rejected⟩

/-- The drivers of a compiled block do not depend on what its outputs had before. -/
theorem compiled_independent {h : Netlist} {drivers : List (LeafId × Expr)} {checks : List ConflictCheck}
    (compiled : Compiled settings g K statements outputs drivers checks L h) {leaf : LeafId}
    (output : leaf ∈ outputs) : ∃ entry e, h.leaves.get? leaf = some entry ∧ entry.drive = .driven e ∧
      e.Resolved ∧ (∀ d ∈ outputs, e.Reads d → ∃ f ∈ bodyExprs statements, f.Reads d) ∧
        ∀ env σ σ', Scene.runAll ⟨g, env, outputs⟩ statements σ = some σ' →
          e.value env = .ok (σ' leaf) := by
  obtain ⟨entry, e, known, driven, offered⟩ := compiled_driver compiled output
  obtain ⟨-, width, drives⟩ := compiled.planned.drivers _ offered
  refine ⟨entry, e, known, driven, drives.resolved, fun d bound read => ?_, fun env σ σ' run =>
    compiled.planned.right env σ σ' run (leaf, e) offered⟩
  obtain ⟨L', start, final, replayed, L'', each⟩ :=
    passes_replayed sharing inside compiled.found compiled.passes
  obtain ⟨leaf', -, made⟩ := forall₂_right each (leaf, e) offered
  have seeds : ∀ leaf e, start.get? leaf = some e → ¬e.Reads d := by
    intro other e found reads
    obtain ⟨n, rfl⟩ := replayed.seeds other e found
    exact reads_iff_all.mp reads (all_iff.mpr ⟨by simp [signal?], by simp [children]⟩)
  exact body_signals (replayed.keys ▸ bound) seeds replayed.traces
    ((reads_alike made.entry d).mp read)

end

theorem run_named {w : World} (reachable : w.Reachable) (builder : Builder) :
    (builder.run w.netlist).2.Named := by
  obtain ⟨K, kept⟩ := reachable_kept reachable
  intro id leaf' found
  rcases (run_extends builder w.netlist).back found with ⟨leaf, _, before, rfl⟩ | ⟨-, -, -, -, named⟩
  · obtain ⟨name, text⟩ := Option.isSome_iff_exists.mp (kept.named id leaf before)
    exact Option.isSome_iff_exists.mpr ⟨name, (run_extends builder w.netlist).names _ _ text⟩
  · exact named

theorem compile_written {g h : Netlist} {settings : BlockSettings} {log : Option DiagnosticLog}
    {builder : Builder} {statements : List Stmt} (written : builder.run g = (.ok statements, h)) :
    builder.compile settings ⟨g, log⟩ = Block.compile settings statements ⟨h, log⟩ := by
  rw [Builder.compile, step_ok (edit_ok written)]

/-- No driver of a block depends on what was there before in a leaf that the block assigns, and a block
    that reads such a value into an output does not compile. If its outputs are free, and there is
    nothing wrong with its statements and the widths in them, it is rejected as a latch. -/
theorem early_reads_rejected {w : World} {settings : BlockSettings} {log : Option DiagnosticLog}
    {builder : Builder} {statements : List Stmt} {g : Netlist} (reachable : w.Reachable)
    (allowed : w.Allows (.compile settings log builder))
    (written : builder.run w.netlist = (.ok statements, g)) :
    (∀ block s, builder.compile settings ⟨w.netlist, log⟩ = (.ok block, s) →
      ∀ leaf ∈ block.outputs, ∃ entry e,
        s.netlist.leaves.get? leaf = some entry ∧ entry.drive = .driven e ∧ e.Resolved ∧
          (∀ d ∈ block.outputs, e.Reads d → ∃ f ∈ bodyExprs statements, f.Reads d) ∧
            ∀ env σ σ', Scene.runAll ⟨g, env, block.outputs⟩ statements σ = some σ' →
              e.value env = .ok (σ' leaf)) ∧
      ∀ outputs, Block.outputs g statements = .ok outputs → Block.ReadsEarly g statements outputs →
        (∃ x s, builder.compile settings ⟨w.netlist, log⟩ = (.error x, s)) ∧
          ((∀ leaf ∈ outputs, g.Free leaf) → BodyStable g statements → ∀ final t,
            Block.replay ⟨g, settings⟩ statements outputs ⟨g.nextNode, log, #[]⟩ = (.ok final, t) →
              ∃ signal read s, builder.compile settings ⟨w.netlist, log⟩ =
                (.error (.unassignedRead signal read), s)) := by
  obtain ⟨K, sharing, -, inside⟩ := allowed statements g written
  rw [compile_written written]
  refine ⟨fun block s accepted leaf output => ?_, fun outputs found early => ⟨?_, ?_⟩⟩
  · obtain ⟨drivers, checks, L, -, installed⟩ := accepted_compiled sharing inside accepted
    exact compiled_independent sharing inside installed output
  · exact early_rejected sharing inside rfl found early
  · intro free stable final t ran
    have named : g.Named := by simpa [written] using run_named reachable builder
    exact early_latches sharing inside named found free stable ran early

/-- A block that reads its scratch signal into a leaf, and assigns it behind that. -/
theorem scratch_latches : ∃ (w : World) (builder : Builder) (signal read : String) (s : Session),
    w.Reachable ∧ builder.compile {} ⟨w.netlist, none⟩ = (.error (.unassignedRead signal read), s) := by
  let builder : Builder := .declare (.leaf "tmp" 1) fun tmp => .number fun n => .number fun m =>
    .block [.assign (.leaf 0) (.read n tmp), .assign tmp (.literal m (.ofBool true))]
  let declared : List Call := [.leaf "y" (.unknown 1)]
  let w := (World.empty 10).after declared
  let statements : List Stmt :=
    [.assign (.leaf 0) (.read 0 (.leaf 1)), .assign (.leaf 1) (.literal 1 (.ofBool true))]
  let g := (builder.run w.netlist).2
  have reachable : w.Reachable := ⟨10, World.leads_after _ declared (by decide +kernel)⟩
  have written : builder.run w.netlist = (.ok statements, g) := rfl
  have found : Block.outputs g statements = .ok [0, 1] := of_toOption (by decide +kernel)
  have early : Block.ReadsEarly g statements [0, 1] :=
    .path [(.leaf 0, .read 0 (.leaf 1)), (.leaf 1, .literal 1 (.ofBool true))] (by decide +kernel)
      (by decide +kernel)
  have free : ∀ leaf ∈ ([0, 1] : List LeafId), g.Free leaf := by decide +kernel
  have stable : BodyStable g statements := by decide +kernel
  have passes : (Block.replay ⟨g, {}⟩ statements [0, 1] ⟨g.nextNode, none, #[]⟩).1.toOption.isSome := by
    decide +kernel
  obtain ⟨final, ran⟩ := Option.isSome_iff_exists.mp passes
  have allowed : w.Allows (.compile {} none builder) := by decide +kernel
  obtain ⟨-, latches⟩ := (early_reads_rejected reachable allowed written).2 _ found early
  obtain ⟨signal, read, s, rejected⟩ := latches free stable final _ (run_of_toOption ran)
  exact ⟨w, builder, signal, read, s, reachable, rejected⟩

/-- A block that reads its scratch signal into a leaf and never assigns it. It compiles, and the driver
    of the leaf is the scratch signal as it stands. -/
theorem unassigned_scratch_read : ∃ (w : World) (builder : Builder) (s : Session) (leaf : Leaf) (n : Nat),
    w.Reachable ∧ w.Allows (.compile {} none builder) ∧ w.netlist.leaves.get? 1 = none ∧
      (builder.run w.netlist).1.toOption = some [.assign (.leaf 0) (.read 0 (.leaf 1))] ∧
        builder.compile {} ⟨w.netlist, none⟩ = (.ok ⟨[0], 1⟩, s) ∧
          s.netlist.leaves.get? 0 = some leaf ∧ leaf.drive = .driven (.signal n 1) := by
  let builder : Builder := .declare (.leaf "tmp" 1) fun tmp => .number fun n =>
    .block [.assign (.leaf 0) (.read n tmp)]
  let declared : List Call := [.leaf "y" (.unknown 1)]
  let w := (World.empty 10).after declared
  have reachable : w.Reachable := ⟨10, World.leads_after _ declared (by decide +kernel)⟩
  have accepted := run_of_toOption (r := builder.compile {} ⟨w.netlist, none⟩) (a := ⟨[0], 1⟩)
    (by decide +kernel)
  have driver : ((builder.compile {} ⟨w.netlist, none⟩).2.netlist.leaves.get? 0).bind (·.drive.driver?) =
      some (.signal 2 1) := by decide +kernel
  obtain ⟨leaf, found, driven⟩ := Option.bind_eq_some_iff.mp driver
  exact ⟨w, builder, _, leaf, 2, reachable, by decide +kernel, by decide +kernel, rfl, accepted, found,
    driver?_eq_some.mp driven⟩

end CombLogic
