import CombLogic.Proofs.Block.Attach

/- Compilation as a whole. It fails before its first change, or does all that it planned. -/
namespace CombLogic

open Expr Netlist Stmt

variable {settings : BlockSettings} {g : Netlist} {K L : Set Expr} {statements : List Stmt}

theorem outputs_ok {outputs : List LeafId} (found : Block.outputs g statements = .ok outputs) :
    ∃ lists, (bodyTargets statements).mapM g.leavesOf = .ok lists ∧
      outputs = lists.flatten.eraseDups := by
  obtain ⟨lists, each, done⟩ := bind_ok found
  refine ⟨lists, each, ?_⟩
  rw [← OrderedSet.keys_ofList]
  exact (Except.ok.inj done).symm

theorem outputs_nodup {outputs : List LeafId} (found : Block.outputs g statements = .ok outputs) :
    outputs.Nodup := by
  obtain ⟨lists, each, done⟩ := bind_ok found
  exact Except.ok.inj done ▸ OrderedMap.nodup_keys _

/-- The outputs are the leaves of the targets. -/
theorem mem_outputs {outputs : List LeafId} (found : Block.outputs g statements = .ok outputs)
    (leaf : LeafId) : leaf ∈ outputs ↔
      ∃ target ∈ bodyTargets statements, ∃ leaves,
        g.leavesOf target = .ok leaves ∧ leaf ∈ leaves := by
  obtain ⟨lists, each, rfl⟩ := outputs_ok found
  rw [List.mem_eraseDups, List.mem_flatten]
  have paired := mapM_ok each
  constructor
  · rintro ⟨leaves, member, inside⟩
    obtain ⟨target, listed, here⟩ := forall₂_right paired leaves member
    exact ⟨target, listed, leaves, here, inside⟩
  · rintro ⟨target, listed, leaves, here, inside⟩
    obtain ⟨leaves', member, here'⟩ := forall₂_left paired target listed
    exact ⟨leaves', member, Except.ok.inj (here.symm.trans here') ▸ inside⟩

theorem outputs_cover {outputs : List LeafId} (found : Block.outputs g statements = .ok outputs) :
    ∀ target ∈ bodyTargets statements, Covers g outputs target :=
  fun target listed leaves here leaf member =>
    (mem_outputs found leaf).mpr ⟨target, listed, leaves, here, member⟩

theorem ask_ok {α : Type} {f : Netlist → Except NetlistError α} {s : Session} {a : α}
    (found : f s.netlist = .ok a) : Compiling.ask f s = (.ok a, s) := by
  simp [Compiling.ask, found, Except.mapError]

theorem ask_error {α : Type} {f : Netlist → Except NetlistError α} {s : Session} {e : NetlistError}
    (failed : f s.netlist = .error e) : Compiling.ask f s = (.error (.netlist e), s) := by
  simp [Compiling.ask, failed, Except.mapError]

theorem ensureFree_cases (leaf : LeafId) (s : Session) :
    (Block.ensureFree leaf s = (.ok (), s) ∧ s.netlist.Free leaf) ∨
      ∃ e, Block.ensureFree leaf s = (.error e, s) ∧ ¬s.netlist.Free leaf := by
  unfold Block.ensureFree
  rw [← isTaken_false]
  cases taken : s.netlist.isTaken leaf with
  | error e => exact .inr ⟨_, step_error (ask_error taken), by simp⟩
  | ok yes =>
    rw [step_ok (ask_ok taken)]
    cases yes with
    | false => exact .inl ⟨rfl, rfl⟩
    | true =>
      cases named : s.netlist.leafName leaf with
      | error e => exact .inr ⟨_, step_error (ask_error named), by simp⟩
      | ok name => exact .inr ⟨_, step_ok (ask_ok named), by simp⟩

theorem ensureAll_cases (leaves : List LeafId) (s : Session) :
    ((forIn leaves PUnit.unit fun leaf _ => do
      Block.ensureFree leaf
      pure (ForInStep.yield PUnit.unit) : Compiling PUnit) s = (.ok (), s) ∧
        ∀ leaf ∈ leaves, s.netlist.Free leaf) ∨
      ∃ e, (forIn leaves PUnit.unit fun leaf _ => do
        Block.ensureFree leaf
        pure (ForInStep.yield PUnit.unit) : Compiling PUnit) s = (.error e, s) ∧
          ¬∀ leaf ∈ leaves, s.netlist.Free leaf := by
  induction leaves with
  | nil => exact .inl ⟨rfl, by simp⟩
  | cons leaf rest ih =>
    rw [List.forIn_cons, List.forall_mem_cons]
    rcases ensureFree_cases leaf s with ⟨done, free⟩ | ⟨e, failed, taken⟩
    · have first : (do
          Block.ensureFree leaf
          pure (ForInStep.yield PUnit.unit) : Compiling (ForInStep PUnit)) s =
            (.ok (.yield PUnit.unit), s) := step_ok done
      rw [step_ok first]
      rcases ih with ⟨later, others⟩ | ⟨e, later, taken⟩
      · exact .inl ⟨later, free, others⟩
      · exact .inr ⟨e, later, fun free => taken free.2⟩
    · exact .inr ⟨e, step_error (step_error failed), fun free => taken free.1⟩

/-- The check phase comes to a plan. -/
def Passes (settings : BlockSettings) (g : Netlist) (statements : List Stmt) (outputs : List LeafId)
    (plan : List (LeafId × Expr) × List ConflictCheck) : Prop :=
  ∃ log t, Block.plan ⟨g, settings⟩ statements outputs ⟨g.nextNode, log, #[]⟩ = (.ok plan, t)

/-- A block that was accepted, and the netlist it leaves: all planned drivers are attached, and all
    planned checks are added. -/
structure Compiled (settings : BlockSettings) (g : Netlist) (K : Set Expr) (statements : List Stmt)
    (outputs : List LeafId) (drivers : List (LeafId × Expr)) (checks : List ConflictCheck)
    (L : Set Expr) (h : Netlist) : Prop where
  found : Block.outputs g statements = .ok outputs
  passes : Passes settings g statements outputs (drivers, checks)
  free : ∀ leaf ∈ outputs, g.Free leaf
  sub : K ⊆ L
  sharing : Sharing L h.nextNode
  planned : Planned g statements outputs L (drivers, checks)
  attached : Attached drivers g { h with nextNode := g.nextNode, checks := g.checks }
  checks : h.checks = g.checks ++ checks.toArray

/-- With the check phase passed, everything is attached. -/
theorem attach_compiled {outputs : List LeafId} {drivers : List (LeafId × Expr)}
    {checks : List ConflictCheck} {m : Nat} (found : Block.outputs g statements = .ok outputs)
    (passes : Passes settings g statements outputs (drivers, checks))
    (free : ∀ leaf ∈ outputs, g.Free leaf) (sub : K ⊆ L) (sharing : Sharing L m)
    (planned : Planned g statements outputs L (drivers, checks)) : ∃ M h,
    Block.attach drivers checks { g with nextNode := m } = (.ok (), h) ∧
      Compiled settings g K statements outputs drivers checks M h := by
  have installs : Installs { g with nextNode := m } L drivers := by
    refine ⟨?_, fun p listed => ?_, fun p listed => (planned.drivers p listed).1.2,
      fun p listed => (planned.drivers p listed).1.1, fun p listed => ?_⟩
    · exact planned.leaves ▸ outputs_nodup found
    · exact free p.1 (planned.leaves ▸ List.mem_map_of_mem listed)
    · obtain ⟨width, drives⟩ := (planned.drivers p listed).2
      have same : declared { g with nextNode := m } = g.declared := declared_congr rfl fun _ => rfl
      exact ⟨width, drives_congr same drives⟩
  obtain ⟨n, M, h, run, attached, grown, shared⟩ := attach_again sharing installs checks
  refine ⟨M, _, run, found, passes, free, sub.trans grown, shared, ?_, ?_, rfl⟩
  · refine ⟨planned.leaves, fun p listed => ?_, fun check listed => ?_, planned.right⟩
    · exact ⟨fit_mono grown (planned.drivers p listed).1, (planned.drivers p listed).2⟩
    · obtain ⟨inside, checked, reads⟩ := planned.checks check listed
      exact ⟨grown inside, checked, reads⟩
  · have same : h.checks = g.checks := by rw [attached.same]
    have again := attached_renumber attached g.nextNode
    rw [← same]
    exact again

/-- The check phase leaves the netlist alone, and numbers nodes if it passes. -/
theorem execute_cases {α : Type} (r : Executing α) (s : Session)
    (sharing : Sharing K s.netlist.nextNode) {post : Set Expr → α → Prop} (yields : Yields K r post) :
    (∃ e s', Compiling.execute r s = (.error e, s') ∧ s'.netlist = s.netlist) ∨
      ∃ a t L, r ⟨s.netlist.nextNode, s.log, #[]⟩ = (.ok a, t) ∧
        Compiling.execute r s = (.ok a, ⟨{ s.netlist with nextNode := t.nextNode }, t.log⟩) ∧
          K ⊆ L ∧ Sharing L t.nextNode ∧ post L a := by
  unfold Compiling.execute
  obtain ⟨result, t, run⟩ : ∃ result t, r ⟨s.netlist.nextNode, s.log, #[]⟩ = (result, t) :=
    ⟨_, _, rfl⟩
  rw [run]
  cases result with
  | error e => exact .inl ⟨e, _, rfl, rfl⟩
  | ok a =>
    obtain ⟨L, sub, ready, here⟩ := yields K subset_rfl _ a t ⟨sharing, by simp⟩ run
    exact .inr ⟨a, t, L, rfl, rfl, sub, ready.sharing, here⟩

theorem edit_ok {α : Type} {e : Edit α} {s : Session} {a : α} {h : Netlist}
    (run : e s.netlist = (.ok a, h)) : Compiling.edit e s = (.ok a, { s with netlist := h }) := by
  simp [Compiling.edit, run, Except.mapError]

theorem compileQuietly_cases (settings : BlockSettings) (s : Session)
    (sharing : Sharing K s.netlist.nextNode) (inside : ∀ e ∈ bodyExprs statements, e ∈ K) :
    (∃ e s', Block.compileQuietly settings statements s = (.error e, s') ∧
      s'.netlist = s.netlist) ∨ ∃ outputs drivers checks L s',
        Block.compileQuietly settings statements s = (.ok ⟨outputs, bodyCount statements⟩, s') ∧
          Compiled settings s.netlist K statements outputs drivers checks L s'.netlist := by
  unfold Block.compileQuietly
  cases found : Block.outputs s.netlist statements with
  | error e => exact .inl ⟨_, s, step_error (ask_error found), rfl⟩
  | ok outputs =>
    rw [step_ok (ask_ok found)]
    rcases ensureAll_cases outputs s with ⟨done, free⟩ | ⟨e, failed, -⟩
    · have state : (get : Compiling Session) s = (.ok s, s) := rfl
      rw [step_ok done, step_ok state]
      have yields : Yields K (Block.plan ⟨s.netlist, settings⟩ statements outputs) _ :=
        plan_yields inside (outputs_nodup found) (outputs_cover found)
      rcases execute_cases _ s sharing yields with ⟨e, s', failed, same⟩ |
        ⟨⟨drivers, checks⟩, t, L, ran, planned, sub, shared, here⟩
      · exact .inl ⟨e, s', step_error failed, same⟩
      · obtain ⟨M, h, attached, compiled⟩ := attach_compiled found ⟨s.log, t, ran⟩ free sub shared here
        refine .inr ⟨outputs, drivers, checks, M, ⟨h, t.log⟩, ?_, compiled⟩
        exact (step_ok planned).trans (step_ok (edit_ok attached))
    · exact .inl ⟨e, s, step_error failed, rfl⟩

theorem compile_cases (settings : BlockSettings) (s : Session)
    (sharing : Sharing K s.netlist.nextNode) (inside : ∀ e ∈ bodyExprs statements, e ∈ K) :
    (∃ e s', Block.compile settings statements s = (.error e, s') ∧ s'.netlist = s.netlist) ∨
      ∃ outputs drivers checks L s',
        Block.compile settings statements s = (.ok ⟨outputs, bodyCount statements⟩, s') ∧
          Compiled settings s.netlist K statements outputs drivers checks L s'.netlist := by
  unfold Block.compile
  rcases compileQuietly_cases settings s sharing inside with ⟨e, s', run, same⟩ |
    ⟨outputs, drivers, checks, L, s', run, compiled⟩
  · simp only [run]
    refine .inl ?_
    split
    · exact ⟨e, s', rfl, same⟩
    · exact ⟨e, _, rfl, same⟩
  · simp only [run]
    exact .inr ⟨outputs, drivers, checks, L, s', rfl, compiled⟩

theorem accepted_compiled {s s' : Session} {block : BlockSummary}
    (sharing : Sharing K s.netlist.nextNode) (inside : ∀ e ∈ bodyExprs statements, e ∈ K)
    (accepted : Block.compile settings statements s = (.ok block, s')) :
    ∃ drivers checks L, block.statements = bodyCount statements ∧
      Compiled settings s.netlist K statements block.outputs drivers checks L s'.netlist := by
  rcases compile_cases settings s sharing inside with ⟨e, t, failed, -⟩ |
    ⟨outputs, drivers, checks, L, t, done, compiled⟩
  · cases failed.symm.trans accepted
  · cases done.symm.trans accepted
    exact ⟨drivers, checks, L, rfl, compiled⟩

section

variable {outputs : List LeafId} {plan : List (LeafId × Expr) × List ConflictCheck}
  {log : Option DiagnosticLog} {t : ExecState} (found : Block.outputs g statements = .ok outputs)
  (free : ∀ id ∈ outputs, g.Free id) (sharing : Sharing K g.nextNode)
  (inside : ∀ e ∈ bodyExprs statements, e ∈ K)
  (planned : Block.plan ⟨g, settings⟩ statements outputs ⟨g.nextNode, log, #[]⟩ = (.ok plan, t))

include found free sharing inside planned

/-- With the check phase passed, every attachment succeeds. -/
theorem attach_passes :
    (Block.attach plan.1 plan.2 { g with nextNode := t.nextNode }).1 = .ok () := by
  have yields : Yields K (Block.plan ⟨g, settings⟩ statements outputs) _ :=
    plan_yields inside (outputs_nodup found) (outputs_cover found)
  obtain ⟨L, sub, ready, here⟩ := yields K subset_rfl _ _ _ ⟨sharing, by simp⟩ planned
  obtain ⟨M, h, attached, -⟩ := attach_compiled found ⟨log, t, planned⟩ free sub ready.sharing here
  rw [attached]

/-- Nothing but the check phase can reject a block whose outputs are free. -/
theorem compile_accepts :
    ∃ s, Block.compile settings statements ⟨g, log⟩ = (.ok ⟨outputs, bodyCount statements⟩, s) := by
  have attached := attach_passes found free sharing inside planned
  obtain ⟨result, h, run⟩ : ∃ result h, Block.attach plan.1 plan.2 { g with nextNode := t.nextNode } =
    (result, h) := ⟨_, _, rfl⟩
  obtain rfl : result = .ok () := by rwa [run] at attached
  have executed : Compiling.execute (Block.plan ⟨g, settings⟩ statements outputs) ⟨g, log⟩ =
      (.ok plan, ⟨{ g with nextNode := t.nextNode }, t.log⟩) := by
    simp [Compiling.execute, planned]
  have done := (ensureAll_cases outputs ⟨g, log⟩).resolve_right fun ⟨_, _, taken⟩ => taken free
  have state : (get : Compiling Session) ⟨g, log⟩ = (.ok ⟨g, log⟩, ⟨g, log⟩) := rfl
  have quietly : Block.compileQuietly settings statements ⟨g, log⟩ =
      (.ok ⟨outputs, bodyCount statements⟩, ⟨h, t.log⟩) := by
    unfold Block.compileQuietly
    rw [step_ok (ask_ok found), step_ok done.1, step_ok state]
    exact (step_ok executed).trans (step_ok (edit_ok run))
  exact ⟨⟨h, t.log⟩, by simp only [Block.compile, quietly]⟩

end

end CombLogic
