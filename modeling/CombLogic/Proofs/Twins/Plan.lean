import CombLogic.Block.Compile
import CombLogic.Proofs.Twins.Statements

/- The check phase in two runs. Where it goes through under one rule it goes through under every milder
   one, and it comes to the same drivers. -/
namespace CombLogic

open Expr Netlist Stmt

variable {rule : OverlapRule} {base next next' : Nat} {P Q : Set (Expr × Expr)} {g : Netlist}
  {settings settings' : BlockSettings} {b b' : Binding}

theorem unassigned_tracks (leaves : List LeafId) (twin : Binding.Twin P b b') :
    Tracks rule base P (Block.unassigned leaves b) (Block.unassigned leaves b') Binding.Twin := by
  induction leaves generalizing P b b' with
  | nil => exact tracks_pure fun Q sub => twin_mono sub twin
  | cons leaf rest ih =>
    simp only [Block.unassigned]
    refine tracks_bind (tracks_build (mirrors_node (fun _ => rfl) (fun _ => rfl) fun n n' =>
      .unassigned n n' leaf)) fun Q _ _ e e' sub _ pair => ?_
    exact ih (twin_insert (twin_mono sub twin) leaf pair)

theorem ensureAssigned_tracks (twins : Twins base P next next') {e e' : Expr} (member : (e, e') ∈ P)
    (signal : Except NetlistError String) :
    Tracks rule base P (Block.ensureAssigned g signal e) (Block.ensureAssigned g signal e')
      fun _ _ _ => True := by
  have missed : e.firstUnassigned? = e'.firstUnassigned? :=
    twins.find_eq (fun alike => by cases alike <;> rfl) member
  unfold Block.ensureAssigned
  rw [missed]
  cases e'.firstUnassigned? with
  | none => exact tracks_pure fun _ _ => trivial
  | some read =>
    refine tracks_fails fun s => ?_
    cases signal with
    | error x => exact ⟨_, _, rfl⟩
    | ok name => cases named : g.leafName read <;> exact ⟨_, _, by simp [named]; rfl⟩

theorem checkOutput_tracks (twin : Binding.Twin P b b') (leaf : LeafId) :
    Tracks rule base P (Block.checkOutput g b leaf) (Block.checkOutput g b' leaf) fun Q d d' =>
      d.1 = d'.1 ∧ (d.2, d'.2) ∈ Q := by
  refine tracks_bind (tracks_build (get_mirrors twin leaf)) fun Q₁ _ _ e e' _ twins₁ pair => ?_
  refine tracks_bind (ensureAssigned_tracks twins₁ pair _) fun Q₂ _ _ _ _ sub₂ twins₂ _ => ?_
  refine tracks_bind (tracks_build (sizedDriver_mirrors twins₂ (sub₂ pair) _)) ?_
  exact fun Q₃ _ _ d d' _ _ driver => tracks_pure fun R sub => ⟨rfl, sub driver⟩

theorem checkOutputs_tracks (twin : Binding.Twin P b b') (leaves : List LeafId) :
    Tracks rule base P (leaves.mapM (Block.checkOutput g b)) (leaves.mapM (Block.checkOutput g b'))
      OneEach :=
  tracks_mapM (fun _ _ _ _ sub driver => ⟨driver.1, sub driver.2⟩)
    (List.forall₂_same.mpr fun leaf _ => checkOutput_tracks twin leaf)

theorem checkConflict_tracks (twins : Twins base P next next') (name : String) {e e' : Expr}
    (member : (e, e') ∈ P) : Tracks rule base P (Block.checkConflict g name e)
      (Block.checkConflict g name e') fun _ _ _ => True := by
  refine tracks_bind (ensureAssigned_tracks twins member _) fun Q _ _ _ _ sub twins' _ => ?_
  exact tracks_weaken (tracks_build (conflictCheck_mirrors twins' (sub member) name))
    fun _ _ _ _ _ => trivial

/-- Drivers of the same leaves that are twins of each other. -/
def TwinDrivers (base : Nat) (drivers drivers' : List (LeafId × Expr)) : Prop :=
  ∃ P n n', Twins base P n n' ∧ OneEach P drivers drivers'

theorem twinDrivers_join {ds ds' ds'' : List (LeafId × Expr)} (left : TwinDrivers base ds ds')
    (right : TwinDrivers base ds ds'') : TwinDrivers base ds' ds'' := by
  obtain ⟨P, n, n', twins, each⟩ := left
  obtain ⟨Q, k, k', twins', each'⟩ := right
  refine ⟨Joined P Q, n', k', twins.join twins', (forall₂_join each each').imp ?_⟩
  rintro d' d'' ⟨d, -, ⟨own, pair⟩, own', pair'⟩
  exact ⟨own.symm.trans own', joined pair pair'⟩

theorem checkConflicts_tracks {s s' : ExecState}
    (beside : s.Beside rule base P s') {checks' : List ConflictCheck} {t' : ExecState}
    (run : (s'.conflicts.toList.mapM fun w => Block.checkConflict g w.1 w.2) s' = (.ok checks', t')) :
    ∃ checks t, (s.conflicts.toList.mapM fun w => Block.checkConflict g w.1 w.2) s =
      (.ok checks, t) := by
  have watched := beside.watched
  -- where nothing was watched there is nothing to check, whatever the other run watched
  by_cases allowed : rule = .allow
  · rw [if_pos allowed, List.forall₂_nil_right_iff] at watched
    rw [watched]
    exact ⟨[], s, rfl⟩
  · rw [if_neg allowed] at watched
    have each : List.Forall₂ (fun w w' => Tracks rule base P (Block.checkConflict g w.1 w.2)
        (Block.checkConflict g w'.1 w'.2) fun _ _ _ => True) s.conflicts.toList s'.conflicts.toList := by
      refine watched.imp fun w w' one => ?_
      rw [one.1]
      exact checkConflict_tracks beside.twins _ one.2
    obtain ⟨checks, t, -, done, -⟩ := tracks_mapM (fun _ _ _ _ _ _ => trivial) each P subset_rfl s s'
      beside checks' t' run
    exact ⟨checks, t, done⟩

theorem plan_tracks {f : CaseKind → CaseKind} {K : Set Expr}
    (eases : ∀ kind, (f kind).Eases settings.overlapRule settings'.overlapRule kind)
    {statements : List Stmt} {outputs : List LeafId} (sharing : Sharing K next)
    (inside : ∀ e ∈ bodyExprs statements, e ∈ K) {log' : Option DiagnosticLog}
    {drivers' : List (LeafId × Expr)} {checks' : List ConflictCheck} {t' : ExecState}
    (run : Block.plan ⟨g, settings'⟩ statements outputs ⟨next, log', #[]⟩ =
      (.ok (drivers', checks'), t')) (log : Option DiagnosticLog) :
    ∃ drivers checks t, Block.plan ⟨g, settings⟩ (bodyMapKinds f statements) outputs ⟨next, log, #[]⟩ =
      (.ok (drivers, checks), t) ∧ TwinDrivers next drivers drivers' := by
  obtain ⟨start', s₁', begun', run⟩ := executing_bind run
  obtain ⟨final', s₂', executed', run⟩ := executing_bind run
  obtain ⟨_, s₃', checked', run⟩ := executing_bind run
  obtain ⟨_, _, got, run⟩ := executing_bind run
  cases got
  obtain ⟨_, s₄', made', run⟩ := executing_bind run
  cases run
  have twins := Twins.start sharing
  have beside : ExecState.Beside settings.overlapRule next _ ⟨next, log, #[]⟩ ⟨next, log', #[]⟩ :=
    ⟨twins, by simp⟩
  have empty : Binding.Twin ((fun e => (e, e)) '' K) .empty .empty :=
    ⟨rfl, fun _ _ _ found => by simp at found⟩
  obtain ⟨start, s₁, P₁, begun, sub₁, beside₁, twin⟩ :=
    unassigned_tracks outputs empty _ subset_rfl _ _ beside start' s₁' begun'
  obtain ⟨final, s₂, P₂, executed, sub₂, beside₂, twin'⟩ :=
    body_tracks eases beside₁.twins statements (fun e listed => sub₁ ⟨e, inside e listed, rfl⟩) .nil
      twin P₁ subset_rfl s₁ s₁' beside₁ final' s₂' executed'
  obtain ⟨drivers, s₃, P₃, checked, sub₃, beside₃, each⟩ :=
    checkOutputs_tracks twin' outputs P₂ subset_rfl s₂ s₂' beside₂ drivers' s₃' checked'
  obtain ⟨checks, s₄, made⟩ := checkConflicts_tracks beside₃ made'
  refine ⟨drivers, checks, s₄, ?_, P₃, _, _, beside₃.twins, each⟩
  have state : (get : Executing ExecState) s₃ = (.ok s₃, s₃) := rfl
  unfold Block.plan
  rw [step_ok begun, step_ok executed, step_ok checked, step_ok state, step_ok made]
  rfl

end CombLogic
