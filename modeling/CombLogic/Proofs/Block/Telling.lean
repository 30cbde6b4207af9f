import CombLogic.Proofs.Block.Plan
import CombLogic.Proofs.Block.Visits
import CombLogic.Proofs.Shared

/- The order of warnings. An execution of well numbered nodes comes to the cases of its block in the
   order of the text, and so does the compilation of the block. -/
namespace CombLogic

open Expr Logging Stmt

/-- The same from every state in which the nodes of an execution are well numbered. -/
def Tells {α : Type} (settings : BlockSettings) (K : Set Expr) (shapes : List Coverage.Shape)
    (m : Executing α) : Prop :=
  ∀ L, K ⊆ L → ∀ s, s.Ready L → TellsFrom settings BlockError.Plain shapes m s

section

variable {α β : Type} {settings : BlockSettings} {K : Set Expr} {m : Executing α}
  {f : α → Executing β} {post : Set Expr → α → Prop} {shapes shapes' : List Coverage.Shape}

theorem tells_idle (idle : Idle BlockError.Plain m) : Tells settings K [] m :=
  fun _ _ s _ => tellsFrom_idle idle s

theorem tells_bind (first : Tells settings K shapes m) (made : Yields K m post)
    (rest : ∀ L next a, K ⊆ L → Sharing L next → post L a → Tells settings L shapes' (f a)) :
    Tells settings K (shapes ++ shapes') (m >>= f) := by
  intro L sub s ready
  refine tellsFrom_then (first L sub s ready) fun a s' run => ?_
  obtain ⟨L', grown, still, here⟩ := made L sub s a s' ready run
  exact rest L' s'.nextNode a (sub.trans grown) still.sharing here L' subset_rfl s' still

theorem tells_step (idle : Idle BlockError.Plain m) (made : Yields K m post)
    (rest : ∀ L next a, K ⊆ L → Sharing L next → post L a → Tells settings L shapes (f a)) :
    Tells settings K shapes (m >>= f) :=
  tells_bind (tells_idle idle) made rest

theorem tells_last (first : Tells settings K shapes m) (idle : ∀ a, Idle BlockError.Plain (f a)) :
    Tells settings K shapes (m >>= f) :=
  fun L sub s ready => tellsFrom_last (first L sub s ready) idle

end

/-- The steps that tell nothing. -/
theorem idle_plain : Stepwise BlockError.Plain fun _ m => Idle BlockError.Plain m :=
  idle_steps fun _ => id

theorem itemMatches_tells {c : ExecContext} {K : Set Expr} {next : Nat} {b : Binding}
    (sharing : Sharing K next) {kind : CaseKind} {selector : Expr} {items : List CaseItem}
    (member : selector ∈ K) (members : ∀ item ∈ items, ∀ pattern ∈ item.patterns, pattern ∈ K) :
    Tells c.settings K [caseShape c.netlist kind selector items]
      (Executing.itemMatches c kind selector items b) := by
  refine tells_step (idle_plain.builds _) (yields_build (Netlist.makes_sized sharing member none)) ?_
  rintro L₁ _ ⟨s, width⟩ sub₁ _ ⟨inside, ⟨t, sized, alike⟩, -⟩
  refine tells_step (idle_plain.mapM items fun item => idle_plain.mapM item.patterns fun pattern =>
    idle_plain.builds _) (sizeItems_yields inside
      (fun item listed pattern given => sub₁ (members item listed pattern given)) alike) ?_
  intro L₂ _ found sub₂ _ matched
  refine tells_step (idle_plain.asks _) (yields_ask fun name named _ _ => named) ?_
  intro L₃ _ name _ _ named
  have shape : caseShape c.netlist kind selector items =
      ⟨name, kind, found.map (·.map Prod.snd)⟩ := by
    rw [matched_constants matched]
    simp [caseShape, named, sized, Except.toOption]
  rw [shape]
  have behind : ∀ b' : Binding, Idle BlockError.Plain (do
      let resolved ← Executing.build (c.netlist.resolveLists b' (found.map (·.map Prod.fst)))
      return (name, ← Executing.build (resolved.mapM Executing.anyOf)) :
        Executing (String × List Expr)) := by
    intro b'
    refine idle_plain.follows (idle_plain.builds _) fun resolved => ?_
    exact idle_plain.follows (idle_plain.builds _) fun joints => idle_plain.answers _
  exact fun L _ s _ => tellsFrom_check (behind b) s

variable {c : ExecContext}

mutual

theorem statement_tells {K : Set Expr} {next : Nat} {b : Binding} {path : List Expr}
    (sharing : Sharing K next) (s : Stmt) (runs : Runs c K b path s.exprs s.targets) :
    Tells c.settings K (s.shapes c.netlist) (Executing.statement c path s b) := by
  cases s with
  | assign target value =>
    simp only [Executing.statement, Stmt.shapes]
    exact tells_idle (idle_plain.assign c target value b)
  | ifElse e thenBody elseBody =>
    simp only [Executing.statement, Stmt.shapes]
    refine tells_step (idle_plain.condition c e b)
      (condition_yields sharing runs.good (runs.inside e (by simp [exprs])) c)
      fun L₁ _ holds sub₁ sharing₁ decides => ?_
    have first := runs_then runs sub₁ decides.fit
    refine tells_bind (body_tells sharing₁ thenBody first) (body_yields sharing₁ thenBody first)
      fun L₂ _ thenArm sub₂ _ _ => ?_
    refine tells_step (idle_plain.builds _)
      (yields_build (unary_fits (fit_mono sub₂ decides.fit))) ?_
    rintro L₃ _ fails sub₃ sharing₃ ⟨fit, -⟩
    have second := runs_else runs ((sub₁.trans sub₂).trans sub₃) fit
    refine tells_last (body_tells sharing₃ elseBody second) fun elseArm => ?_
    exact idle_plain.joinBranches holds thenArm elseArm b.keys b
  | case kind selector items default =>
    simp only [Executing.statement, Stmt.shapes]
    have given := runs_patterns runs
    have member : selector ∈ K := runs.inside selector (by simp [exprs])
    change Tells c.settings K ([_] ++ _) _
    refine tells_bind (itemMatches_tells sharing member given)
      (itemMatches_yields sharing runs.good member given) ?_
    rintro L₁ _ ⟨name, found⟩ sub₁ _ ⟨t, width, sized, joints, -⟩
    have guards := joints_guard joints
    have above := fun e listed => fit_mono sub₁ (runs.above e listed)
    refine tells_step (idle_plain.watchCase c idle_watch path found kind name)
      (watchCase_yields above (guards_fit guards)) fun L₂ _ _ sub₂ _ _ => ?_
    have sub := sub₁.trans sub₂
    have inner := runs_items runs sub
    have nothing : Earlier L₂ [] none := rfl
    have fits := fun e listed => fit_mono sub₂ (guards_fit guards e listed)
    refine tells_bind (items_tell items inner guards.length_eq fits nothing)
      (items_yield items inner guards.length_eq fits nothing) ?_
    rintro L₃ _ ⟨arms, earlier⟩ sub₃ _ ⟨-, past⟩
    refine tells_step (idle_plain.builds _) (yields_build (defaultGuard_makes past)) ?_
    rintro L₄ _ guard sub₄ sharing₄ ⟨fit, -⟩
    have last := runs_default runs ((sub.trans sub₃).trans sub₄) fit
    refine tells_last (body_tells sharing₄ default last) fun fallback => ?_
    exact idle_plain.joinItems found arms fallback b.keys b

theorem body_tells {K : Set Expr} {next : Nat} {b : Binding} {path : List Expr}
    (sharing : Sharing K next) (body : List Stmt)
    (runs : Runs c K b path (bodyExprs body) (bodyTargets body)) :
    Tells c.settings K (bodyShapes c.netlist body) (Executing.body c path body b) := by
  cases body with
  | nil =>
    simp only [Executing.body, bodyShapes]
    exact tells_idle (idle_plain.answers b)
  | cons s rest =>
    simp only [Executing.body, bodyShapes]
    have first := runs_first runs
    refine tells_bind (statement_tells sharing s first) (statement_yields sharing s first)
      fun L _ b' sub sharing' follows => ?_
    have later := runs_next runs sub follows
    exact body_tells sharing' rest later

theorem items_tell {K : Set Expr} {b : Binding} {path before found : List Expr}
    {earlier : Option Expr} (items : List CaseItem)
    (runs : Runs c K b path (itemExprs items) (itemTargets items))
    (length : items.length = found.length) (fits : ∀ e ∈ found, Fit K e)
    (holds : Earlier K before earlier) :
    Tells c.settings K (itemShapes c.netlist items)
      (Executing.itemArms c path items found earlier b) := by
  cases items with
  | nil =>
    simp only [Executing.itemArms, itemShapes]
    exact tells_idle (idle_plain.answers _)
  | cons item rest =>
    obtain ⟨patterns, body⟩ := item
    cases found with
    | nil => cases length
    | cons e found =>
      simp only [Executing.itemArms, itemShapes]
      have fit := fits e List.mem_cons_self
      refine tells_step (idle_plain.builds _) (yields_build (itemGuard_makes fit holds)) ?_
      rintro L₁ _ guard sub₁ sharing₁ ⟨fit₁, -⟩
      have first := runs_item runs sub₁ fit₁
      refine tells_bind (body_tells sharing₁ body first) (body_yields sharing₁ body first)
        fun L₂ _ arm sub₂ _ _ => ?_
      have sub := sub₁.trans sub₂
      refine tells_step (idle_plain.builds _)
        (yields_build (orEarlier_makes (fit_mono sub fit) (earlier_mono sub holds)))
        fun L₃ _ joint sub₃ _ holds' => ?_
      have larger := sub.trans sub₃
      have later := runs_rest runs larger
      have length' : rest.length = found.length := by simpa using length
      have others := fun e' listed => fit_mono larger (fits e' (List.mem_cons_of_mem e listed))
      refine tells_last (items_tell rest later length' others holds') fun r => ?_
      exact idle_plain.answers _

end

/-- The check phase tells of the cases, and nothing afterwards. -/
theorem plan_tells {K : Set Expr} {statements : List Stmt} {outputs : List LeafId} {next : Nat}
    {log : Option DiagnosticLog} (sharing : Sharing K next)
    (inside : ∀ e ∈ bodyExprs statements, e ∈ K)
    (found : Block.outputs c.netlist statements = .ok outputs) :
    TellsFrom c.settings Block.Elsewhere (bodyShapes c.netlist statements)
      (Block.plan c statements outputs) ⟨next, log, #[]⟩ := by
  have steps : Stepwise Block.Elsewhere fun _ m => Idle Block.Elsewhere m :=
    idle_steps fun _ => Block.plain_elsewhere
  have ready : ExecState.Ready ⟨next, log, #[]⟩ K := ⟨sharing, by simp⟩
  refine tellsFrom_step ((steps.restrict fun _ => Block.plain_elsewhere).unassigned outputs .empty) ?_
  intro start s₁ begun
  obtain ⟨L, -, ready₁, -, -, runs⟩ := start_yields (c := c) inside (outputs_nodup found)
    (outputs_cover found) K subset_rfl _ start s₁ ready begun
  have told := body_tells ready₁.sharing statements runs L subset_rfl s₁ ready₁
  refine tellsFrom_last (tellsFrom_weaken told fun _ => Block.plain_elsewhere) fun final => ?_
  refine steps.follows (steps.mapM outputs (steps.checkOutput c.netlist final)) fun drivers => ?_
  refine idle_get (fun _ _ => rfl) fun s => ?_
  refine steps.follows (steps.mapM s.conflicts.toList fun w =>
    steps.checkConflict c.netlist w.1 w.2) fun checks => ?_
  exact steps.answers _

section

variable {α : Type} {s : Session} {settings : BlockSettings} {statements : List Stmt}

theorem tellsFrom_execute {r : Executing α} {other : BlockError → Prop}
    {shapes : List Coverage.Shape}
    (tells : TellsFrom settings other shapes r ⟨s.netlist.nextNode, s.log, #[]⟩) :
    TellsFrom settings other shapes (Compiling.execute r) s := by
  obtain ⟨ds, appends, visits⟩ := tells
  refine ⟨ds, appends_execute appends, ?_⟩
  have same : (Compiling.execute r s).1 = (r ⟨s.netlist.nextNode, s.log, #[]⟩).1 := by
    unfold Compiling.execute
    split
    · rename_i run
      rw [run]
    · rename_i run
      rw [run]
  rwa [same]

theorem idle_question (f : Netlist → Except NetlistError α) :
    Idle Block.Elsewhere (Compiling.ask f) :=
  ⟨emits_question f, raises_weaken (raises_question f) fun _ => Block.plain_elsewhere⟩

theorem idle_free (leaf : LeafId) : Idle Block.Elsewhere (Block.ensureFree leaf) :=
  ⟨ensureFree_emits leaf, raises_weaken (Block.ensureFree_plain leaf) fun _ => Block.plain_elsewhere⟩

/-- A compilation tells of the cases of its block when it executes it. -/
theorem compileQuietly_tells (log : Option DiagnosticLog) {g : Netlist}
    (numbered : WellNumbered (bodyExprs statements) g.nextNode) :
    TellsFrom settings Block.Elsewhere (bodyShapes g statements)
      (Block.compileQuietly settings statements) ⟨g, log⟩ := by
  obtain ⟨K, sharing, inside⟩ := (wellNumbered_iff _ _).mp numbered
  have steps : Sequential Block.Elsewhere fun α (m : Compiling α) => Idle Block.Elsewhere m :=
    idle_sequence
  refine tellsFrom_step (idle_question _) fun outputs s asked => ?_
  obtain ⟨found, rfl⟩ : Block.outputs g statements = .ok outputs ∧ s = ⟨g, log⟩ := by
    cases found : Block.outputs g statements with
    | error e => cases (ask_error found).symm.trans asked
    | ok outputs' =>
      cases (ask_ok found).symm.trans asked
      exact ⟨rfl, rfl⟩
  refine tellsFrom_step (steps.each outputs fun leaf _ => idle_free leaf) fun _ s freed => ?_
  obtain rfl : s = ⟨g, log⟩ := by
    rcases ensureAll_cases outputs ⟨g, log⟩ with ⟨done, -⟩ | ⟨x, failed, -⟩
    · cases done.symm.trans freed
      rfl
    · cases failed.symm.trans freed
  refine tellsFrom_get (fun _ => rfl) ?_
  have planned : TellsFrom settings Block.Elsewhere (bodyShapes g statements)
      (Block.plan ⟨g, settings⟩ statements outputs) ⟨g.nextNode, log, #[]⟩ :=
    plan_tells (c := ⟨g, settings⟩) sharing inside found
  refine tellsFrom_last (tellsFrom_execute planned) fun plan => ?_
  refine steps.follows ⟨emits_edit _, raises_weaken (raises_edit _) fun _ => ?_⟩ fun _ => steps.answers _
  exact Block.plain_elsewhere

end

end CombLogic
