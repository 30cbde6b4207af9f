import CombLogic.Block.Compile
import CombLogic.Proofs.Block.Execute

/- What the check phase of a block finds: a sized driver for each output, which a run bears out, and
   the conditions to be watched. -/
namespace CombLogic

open Expr Stmt

section

variable {K L : Set Expr} {next : Nat} {g : Netlist} {b : Binding}

theorem yields_state : Yields K (get : Executing ExecState) fun L s =>
    ∀ watched ∈ s.conflicts.toList, watched.2 ∈ L := by
  intro L sub s a s' ready run
  cases run
  exact ⟨L, subset_rfl, ready, ready.watched⟩

/-- No leaf of a binding is assigned. -/
def Blank (b : Binding) : Prop := ∀ leaf e, b.get? leaf = some e → ¬e.Assigned

theorem blank_holds (blank : Blank b) (env : Env) (σ : Store) : Holds env b σ :=
  fun leaf e found assigned => (blank leaf e found assigned).elim

theorem blank_empty : Blank .empty := fun _ _ found => by simp at found

theorem good_empty : Binding.Good .empty K :=
  ⟨fun _ _ found => by simp at found, fun _ _ found => by simp at found⟩

theorem unassigned_yields (leaves : List LeafId) (good : b.Good K) (blank : Blank b)
    (nodup : (b.keys ++ leaves).Nodup) : Yields K (Block.unassigned leaves b) fun L start =>
      start.Good L ∧ Blank start ∧ start.keys = b.keys ++ leaves := by
  induction leaves generalizing b K with
  | nil => exact yields_pure fun L sub => ⟨good_mono sub good, blank, by simp⟩
  | cons leaf rest ih =>
    simp only [Block.unassigned]
    refine yields_bind (yields_build (makes_node (fun _ => rfl) (by simp [children]))) ?_
    rintro L _ e sub _ ⟨inside, n, rfl⟩
    have fresh : leaf ∉ b.keys := fun listed =>
      (List.nodup_append.mp nodup).2.2 leaf listed leaf (by simp) rfl
    have keys : (OrderedMap.insert b leaf (.unassigned n leaf)).keys = b.keys ++ [leaf] := by
      rw [OrderedMap.keys_insert, if_neg fresh]
    have good' : Binding.Good (b.insert leaf (.unassigned n leaf)) L := good_insert (good_mono sub good)
      inside
      (all_iff.mpr ⟨rfl, by simp [children]⟩)
    have blank' : Blank (b.insert leaf (.unassigned n leaf)) := by
      intro other f found assigned
      rw [OrderedMap.get?_insert] at found
      split at found
      · obtain rfl := Option.some.inj found
        cases assigned _ (.root _)
      · exact blank other f found assigned
    refine yields_weaken (ih good' blank' (by simpa [keys] using nodup)) ?_
    rintro L' start _ ⟨started, blanked, listed⟩
    exact ⟨started, blanked, by simp [listed, keys]⟩

/-- The binding before the first statement of a block, with all that its execution asks for. -/
theorem start_yields {c : ExecContext} {statements : List Stmt} {outputs : List LeafId}
    (inside : ∀ e ∈ bodyExprs statements, e ∈ K) (nodup : outputs.Nodup)
    (covered : ∀ target ∈ bodyTargets statements, Covers c.netlist outputs target) :
    Yields K (Block.unassigned outputs .empty) fun L start => Blank start ∧ start.keys = outputs ∧
      Runs c L start [] (bodyExprs statements) (bodyTargets statements) := by
  refine yields_weaken (unassigned_yields outputs good_empty blank_empty (by simpa using nodup)) ?_
  rintro L start sub ⟨good, blank, keys⟩
  have keys : start.keys = outputs := by simpa using keys
  exact ⟨blank, keys, good, by simp, fun e listed => sub (inside e listed),
    fun t listed => keys ▸ covered t listed⟩

theorem ensureAssigned_yields (sharing : Sharing K next) {e : Expr} (member : e ∈ K)
    (signal : Except NetlistError String) :
    Yields K (Block.ensureAssigned g signal e) fun _ _ => e.Assigned := by
  unfold Block.ensureAssigned
  cases missed : e.firstUnassigned? with
  | none => exact yields_pure fun _ _ => find_none sharing member missed
  | some read =>
    refine yields_bind (yields_ask fun _ _ _ _ => trivial) fun L _ name sub _ _ => ?_
    refine yields_bind (yields_ask fun _ _ _ _ => trivial) fun L' _ name' sub' _ _ => ?_
    exact yields_throw fun s => ⟨_, _, rfl⟩

/-- A checked output: the entry of its leaf, which can drive the leaf as it is. -/
structure Output (g : Netlist) (b : Binding) (leaf : LeafId) (L : Set Expr) (p : LeafId × Expr) :
    Prop where
  own : p.1 = leaf
  fit : Fit L p.2
  entry : p.2.shape = (b.entry leaf).shape
  drives : ∃ width, g.Drives (.leaf leaf) p.2 p.2 width

theorem checkOutput_yields (good : b.Good K) (leaf : LeafId) :
    Yields K (Block.checkOutput g b leaf) (Output g b leaf) := by
  refine yields_bind (yields_build (get_fits good leaf)) ?_
  rintro L _ e sub sharing ⟨fit, alike⟩
  refine yields_bind (ensureAssigned_yields sharing fit.1 _) fun L₁ _ _ sub₁ sharing₁ _ => ?_
  refine yields_bind (yields_build (Netlist.sizedDriver_makes sharing₁ (sub₁ fit.1) (.leaf leaf))) ?_
  rintro L₂ _ s sub₂ _ ⟨inside, width, drives⟩
  obtain rfl := drives.same fit.2
  exact yields_pure fun L₃ sub₃ =>
    ⟨rfl, ⟨sub₃ inside, fit.2⟩, alike, width, drives⟩

theorem checkOutputs_yields (good : b.Good K) (leaves : List LeafId) :
    Yields K (leaves.mapM (Block.checkOutput g b)) fun L ds =>
      List.Forall₂ (fun leaf p => Output g b leaf L p) leaves ds := by
  refine yields_mapM ?_ leaves fun leaf _ => checkOutput_yields good leaf
  exact fun L L' leaf p sub o => ⟨o.own, fit_mono sub o.fit, o.entry, o.drives⟩

/-- A condition without integers becomes a check as it is. -/
def Checks (g : Netlist) (L : Set Expr) (conflict : Expr) (check : ConflictCheck) : Prop :=
  g.GoodCheck L check ∧ (conflict.Integerless → check.conflict = conflict)

theorem checks_mono (sub : K ⊆ L) {conflict : Expr} {check : ConflictCheck}
    (checks : Checks g K conflict check) : Checks g L conflict check :=
  ⟨⟨sub checks.1.inside, checks.1.checked, checks.1.reads⟩, checks.2⟩

theorem checkConflict_yields (sharing : Sharing K next) (selector : String) {conflict : Expr}
    (member : conflict ∈ K) : Yields K (Block.checkConflict g selector conflict)
      fun L check => Checks g L conflict check := by
  refine yields_bind (ensureAssigned_yields sharing member _) fun L _ _ sub sharing' _ => ?_
  exact yields_build (Netlist.conflictCheck_makes sharing' (sub member) selector)

theorem checkConflicts_yields (sharing : Sharing K next) (conflicts : List (String × Expr))
    (members : ∀ w ∈ conflicts, w.2 ∈ K) :
    Yields K (conflicts.mapM fun w => Block.checkConflict g w.1 w.2) fun L checks =>
      List.Forall₂ (fun w check => Checks g L w.2 check) conflicts checks := by
  refine yields_mapM ?_ conflicts fun w listed => checkConflict_yields sharing w.1 (members w listed)
  exact fun _ _ _ _ sub checks => checks_mono sub checks

/-- What a block is going to attach. -/
structure Planned (g : Netlist) (statements : List Stmt) (outputs : List LeafId) (L : Set Expr)
    (r : List (LeafId × Expr) × List ConflictCheck) : Prop where
  leaves : r.1.map Prod.fst = outputs
  drivers : ∀ p ∈ r.1, Fit L p.2 ∧ ∃ width, g.Drives (.leaf p.1) p.2 p.2 width
  checks : ∀ check ∈ r.2, g.GoodCheck L check
  /-- A driver has the value that a run leaves in its leaf. -/
  right : ∀ env σ σ', Scene.runAll ⟨g, env, outputs⟩ statements σ = some σ' →
    ∀ p ∈ r.1, p.2.value env = .ok (σ' p.1)

theorem outputs_right {start final : Binding} {statements : List Stmt} {outputs : List LeafId}
    {drivers : List (LeafId × Expr)} (blank : Blank start) (keys : start.keys = outputs)
    (follows : Follows g start (fun scene => scene.runAll statements) K final)
    (each : List.Forall₂ (fun leaf p => Output g final leaf L p) outputs drivers) (env : Env)
    (σ σ' : Store) (done : Scene.runAll ⟨g, env, outputs⟩ statements σ = some σ') :
    ∀ p ∈ drivers, p.2.value env = .ok (σ' p.1) := by
  intro p listed
  obtain ⟨leaf, member, output⟩ := forall₂_right each p listed
  have holds := follows.holds env σ σ' (blank_holds blank env σ) (by rw [sceneOf, keys]; exact done)
  have known : leaf ∈ final.keys := by rw [follows.keys, keys]; exact member
  obtain ⟨e, found⟩ := OrderedMap.get?_of_mem_keys known
  obtain ⟨width, drives⟩ := output.drives
  have leads : Leads env p.2 (σ' leaf) :=
    leads_alike (by rw [output.entry, entry_of_get found]) (holds leaf e found)
  rw [output.own]
  exact leads (assigned_of_resolved drives.resolved)

theorem plan_yields {c : ExecContext} {statements : List Stmt} {outputs : List LeafId}
    (inside : ∀ e ∈ bodyExprs statements, e ∈ K) (nodup : outputs.Nodup)
    (covered : ∀ target ∈ bodyTargets statements, Covers c.netlist outputs target) :
    Yields K (Block.plan c statements outputs) (Planned c.netlist statements outputs) := by
  refine yields_bind (start_yields inside nodup covered) ?_
  rintro L₁ _ start sub₁ sharing₁ ⟨blank, keys, runs⟩
  refine yields_bind (body_yields sharing₁ statements runs) fun L₂ _ final sub₂ _ follows => ?_
  refine yields_bind (checkOutputs_yields follows.good outputs) fun L₃ _ drivers sub₃ _ each => ?_
  refine yields_bind yields_state fun L₄ _ s sub₄ sharing₄ watched => ?_
  refine yields_bind (checkConflicts_yields sharing₄ _ watched) fun L₅ _ checks sub₅ _ goods =>
    yields_pure fun L₆ sub₆ => ?_
  refine ⟨?_, fun p listed => ?_, fun check listed => ?_,
    fun env σ σ' done => outputs_right blank keys follows each env σ σ' done⟩
  · have same := map_of_forall₂ (f := Prod.fst) (h := id) each fun leaf p output => output.own
    simpa using same
  · obtain ⟨leaf, -, output⟩ := forall₂_right each p listed
    exact ⟨fit_mono ((sub₄.trans sub₅).trans sub₆) output.fit, output.own ▸ output.drives⟩
  · obtain ⟨w, -, checks⟩ := forall₂_right goods check listed
    exact (checks_mono sub₆ checks).1

end

end CombLogic
