import CombLogic.Proofs.Block.Plan
import CombLogic.Proofs.Netlist.Attach

/- The attach phase of a block. Every driver is checked a second time there, and passes unchanged. -/
namespace CombLogic.Netlist

open Expr

variable {g g' : Netlist} {drivers : List (LeafId × Expr)} {K : Set Expr}

/-- Widths depend on the leaves' widths and on the bundles alone. -/
theorem widthWithin_congr (bundles : g'.bundles = g.bundles)
    (widths : ∀ id, (g'.leaves.get? id).map (·.width) = (g.leaves.get? id).map (·.width))
    (depth : Nat) (target : Ref) : g'.widthWithin depth target = g.widthWithin depth target := by
  have leaf : ∀ depth id, g'.widthWithin depth (.leaf id) = g.widthWithin depth (.leaf id) := by
    intro depth id
    have same := widths id
    simp only [widthWithin, Netlist.leaf]
    cases found : g.leaves.get? id <;> cases found' : g'.leaves.get? id <;>
      simp_all [bind, Except.bind, pure, Except.pure]
  induction depth generalizing target with
  | zero =>
    cases target with
    | leaf id => exact leaf 0 id
    | bundle id => rfl
  | succ depth ih =>
    cases target with
    | leaf id => exact leaf _ id
    | bundle id =>
      have each : g'.widthWithin depth = g.widthWithin depth := funext ih
      simp only [widthWithin, Netlist.bundle, bundles, each]

theorem declared_congr (bundles : g'.bundles = g.bundles)
    (widths : ∀ id, (g'.leaves.get? id).map (·.width) = (g.leaves.get? id).map (·.width)) :
    g'.declared = g.declared := by
  funext target
  simp only [declared, widthOf, bundles, widthWithin_congr bundles widths]

theorem declared_attached (attached : Attached drivers g g') : g'.declared = g.declared := by
  refine declared_congr (by rw [attached.same]) fun id => ?_
  rw [← declared_get, ← declared_get, attached.declared]

theorem attached_renumber (attached : Attached drivers g g') (next : Nat) :
    Attached drivers { g with nextNode := next } { g' with nextNode := next } where
  same := by rw [attached.same]
  size := attached.size
  leaf := attached.leaf
  dirty := attached.dirty

/-- A driver that was sized for a target is sized for it again, and stays as it is. -/
theorem sizeFor_again {n : Nat} (sharing : Sharing K n) {e : Expr} (member : e ∈ K) {target : Ref}
    {width : Nat} (integerless : e.Integerless) (drives : g.Drives target e e width) :
    ∃ n' L, g.sizeFor e (some width) n = .ok ((e, width), n') ∧ K ⊆ L ∧ Sharing L n' := by
  obtain ⟨t, sized, -⟩ := drives.sized
  have builds : Builds K (g.sizeFor e (some width)) (e.sized g.declared (some width)) (Fits e) :=
    sizeFor_builds sharing member (some width)
  have built := builds K subset_rfl n sharing
  rw [sized] at built
  obtain ⟨⟨s, actual⟩, n', L, run, grown, shared, -, -, same, old⟩ := built
  obtain rfl : actual = width := same
  obtain rfl : s = e := old integerless
  exact ⟨n', L, run, grown, shared⟩

theorem sizedDriver_again (sharing : Sharing K g.nextNode) {e : Expr} (member : e ∈ K) {id : LeafId}
    {width : Nat} (integerless : e.Integerless) (drives : g.Drives (.leaf id) e e width) :
    ∃ n L, g.sizedDriver (.leaf id) e g.nextNode = .ok (e, n) ∧ K ⊆ L ∧ Sharing L n := by
  have missed : e.firstPlaceholder? = none := by
    cases hit : e.firstPlaceholder? with
    | none => rfl
    | some target =>
      obtain ⟨n, inside, found⟩ := find_some hit
      simp [drives.resolved n inside] at found
  have found : g.widthOf (.leaf id) = .ok width := of_toOption drives.declared
  obtain ⟨n, L, run, grown, shared⟩ := sizeFor_again sharing member integerless drives
  refine ⟨n, L, ?_, grown, shared⟩
  simp [sizedDriver, missed, found, bind, StateT.bind, Except.bind, liftM, monadLift,
    MonadLift.monadLift, StateT.lift, pure, stateT_pure, Except.pure, run]

theorem drives_congr {target : Ref} {e s : Expr} {width : Nat} (same : g'.declared = g.declared)
    (drives : g.Drives target e s width) : g'.Drives target e s width :=
  ⟨drives.resolved, same ▸ drives.declared, same ▸ drives.sized, drives.same⟩

theorem free_attached (attached : Attached drivers g g') {id : LeafId}
    (other : id ∉ drivers.map Prod.fst) (free : g.Free id) : g'.Free id := by
  obtain ⟨leaf, found, undriven, unstaged⟩ := free
  obtain ⟨leaf', found', step⟩ := attached.leaf id leaf found
  have staged : g'.staged = g.staged := by rw [attached.same]
  refine ⟨leaf', found', ?_, staged ▸ unstaged⟩
  rcases step.drive with ⟨-, same⟩ | ⟨e, listed, -⟩
  · exact same.trans undriven
  · exact (other (List.mem_map_of_mem listed)).elim

theorem renumber_self {n : Nat} (same : g.nextNode = n) : { g with nextNode := n } = g := by
  subst same
  rfl

/-- Connecting such a driver to a free leaf attaches it. -/
theorem connect_again (sharing : Sharing K g.nextNode) {e : Expr} (member : e ∈ K) {id : LeafId}
    {width : Nat} (free : g.Free id) (integerless : e.Integerless)
    (drives : g.Drives (.leaf id) e e width) :
    ∃ n L g', connect (.leaf id) e g = (.ok (), { g' with nextNode := n }) ∧
      Attached [(id, e)] g g' ∧ K ⊆ L ∧ Sharing L n := by
  obtain ⟨n, L, run, grown, shared⟩ := sizedDriver_again sharing member integerless drives
  have offered : g.driversFor (.leaf id) e g.nextNode = .ok ([(id, e)], n) := by
    simp [driversFor, leavesOf_leaf, requireFree_free free, bind, StateT.bind, Except.bind, liftM,
      monadLift, MonadLift.monadLift, StateT.lift, pure, stateT_pure, Except.pure, run]
  have attached := attach_attached id e { g with nextNode := n }
  refine ⟨n, L, _, ?_, attached_renumber attached g.nextNode, grown, shared⟩
  have next : ((attach id e { g with nextNode := n }).2).nextNode = n := by rw [attached.same]
  have connected : connect (.leaf id) e g = (.ok (), (attach id e { g with nextNode := n }).2) := by
    simp only [connect, Edit.build, bind, ExceptT.bind, ExceptT.mk, StateT.bind, offered]
    rfl
  rw [connected]
  exact congrArg (Prod.mk _) (renumber_self next).symm

/-- Drivers that are ready to be attached to their leaves. -/
structure Installs (g : Netlist) (K : Set Expr) (drivers : List (LeafId × Expr)) : Prop where
  nodup : (drivers.map Prod.fst).Nodup
  free : ∀ p ∈ drivers, g.Free p.1
  integerless : ∀ p ∈ drivers, p.2.Integerless
  inside : ∀ p ∈ drivers, p.2 ∈ K
  drives : ∀ p ∈ drivers, ∃ width, g.Drives (.leaf p.1) p.2 p.2 width

theorem installs_rest {p : LeafId × Expr} {n : Nat} {L : Set Expr} {rest : List (LeafId × Expr)}
    (installs : g.Installs K (p :: rest)) (sub : K ⊆ L) (attached : Attached [p] g g') :
    Installs { g' with nextNode := n } L rest := by
  have both : p.1 ∉ rest.map Prod.fst ∧ (rest.map Prod.fst).Nodup :=
    List.nodup_cons.mp installs.nodup
  refine ⟨both.2, fun q later => ?_, fun q later => installs.integerless q (by simp [later]),
    fun q later => sub (installs.inside q (by simp [later])), fun q later => ?_⟩
  · refine free_attached attached ?_ (installs.free q (by simp [later]))
    intro listed
    have same : q.1 = p.1 := by simpa using listed
    exact both.1 (same ▸ List.mem_map_of_mem later)
  · obtain ⟨width, drives⟩ := installs.drives q (by simp [later])
    have renumbered : declared { g' with nextNode := n } = g'.declared :=
      declared_congr rfl fun _ => rfl
    exact ⟨width, drives_congr (renumbered.trans (declared_attached attached)) drives⟩

/-- Connecting them one after the other attaches them all. -/
theorem connectAll_again (drivers : List (LeafId × Expr)) {g : Netlist} {K : Set Expr}
    (sharing : Sharing K g.nextNode) (installs : g.Installs K drivers) : ∃ n L g',
    (forIn drivers PUnit.unit fun p _ => do
      connect (.leaf p.1) p.2
      pure (ForInStep.yield PUnit.unit) : Edit PUnit) g = (.ok (), { g' with nextNode := n }) ∧
      Attached drivers g g' ∧ K ⊆ L ∧ Sharing L n := by
  induction drivers generalizing g K with
  | nil => exact ⟨g.nextNode, K, g, rfl, attached_refl g, subset_rfl, sharing⟩
  | cons p rest ih =>
    obtain ⟨width, drives⟩ := installs.drives p (by simp)
    obtain ⟨n, L, g', run, attached, grown, shared⟩ :=
      connect_again sharing (installs.inside p (by simp)) (installs.free p (by simp))
        (installs.integerless p (by simp)) drives
    obtain ⟨n', L', g'', run', attached', grown', shared'⟩ :=
      ih shared (installs_rest (n := n) installs grown attached)
    have joined := attached_trans attached (attached_renumber attached' g'.nextNode)
    refine ⟨n', L', _, ?_, joined, grown.trans grown', shared'⟩
    have first : (do
        connect (.leaf p.1) p.2
        pure (ForInStep.yield PUnit.unit) : Edit (ForInStep PUnit)) g =
          (.ok (.yield PUnit.unit), { g' with nextNode := n }) := step_ok run
    rw [List.forIn_cons, step_ok first]
    exact run'

theorem watchAll (checks : List ConflictCheck) (g : Netlist) :
    (forIn checks PUnit.unit fun check _ => do
      addConflictCheck check
      pure (ForInStep.yield PUnit.unit) : Edit PUnit) g =
      (.ok (), { g with checks := g.checks ++ checks.toArray }) := by
  induction checks generalizing g with
  | nil => simp [pure, ExceptT.pure, ExceptT.mk, stateT_pure]
  | cons check rest ih =>
    rw [List.forIn_cons]
    have later := ih { g with checks := g.checks.push check }
    have joined : g.checks.push check ++ rest.toArray = g.checks ++ (check :: rest).toArray := by
      simp
    simp only [joined] at later
    exact later

theorem attach_again (sharing : Sharing K g.nextNode) (installs : g.Installs K drivers)
    (checks : List ConflictCheck) : ∃ n L g',
    Block.attach drivers checks g =
      (.ok (), { g' with nextNode := n, checks := g.checks ++ checks.toArray }) ∧
      Attached drivers g g' ∧ K ⊆ L ∧ Sharing L n := by
  obtain ⟨n, L, g', run, attached, grown, shared⟩ := connectAll_again drivers sharing installs
  refine ⟨n, L, g', ?_, attached, grown, shared⟩
  have checks' : g'.checks = g.checks := by rw [attached.same]
  unfold Block.attach
  rw [step_ok run, step_ok (watchAll checks _), ← checks']
  rfl

end CombLogic.Netlist
