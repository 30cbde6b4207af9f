import CombLogic.Proofs.Calls
import CombLogic.Proofs.Netlist.Layout

/- Bundles last. No call changes a bundle that was declared, so a target keeps its leaves. -/
namespace CombLogic

open Netlist

namespace Netlist

def BundlesLast (g g' : Netlist) : Prop :=
  ∀ id bundle, g.bundles.get? id = some bundle → g'.bundles.get? id = some bundle

variable {g g' : Netlist} {target : Ref}

theorem bundlesLast_trans {g'' : Netlist} (first : BundlesLast g g') (rest : BundlesLast g' g'') :
    BundlesLast g g'' :=
  fun id bundle found => rest id bundle (first id bundle found)

theorem bundlesLast_size (last : BundlesLast g g') : g.bundles.size ≤ g'.bundles.size := by
  by_contra fewer
  have there : (g.bundles.get? g'.bundles.size).isSome :=
    (g.bundles.get?_isSome _).mpr (by omega)
  obtain ⟨bundle, found⟩ := Option.isSome_iff_exists.mp there
  exact Nat.lt_irrefl _ (g'.bundles.lt_size _ (last _ bundle found))

/-- A target has the leaves that it had when its bundles were declared. -/
theorem leavesOf_last (last : BundlesLast g g') {leaves : List LeafId}
    (found : g.leavesOf target = .ok leaves) : g'.leavesOf target = .ok leaves :=
  leavesWithin_mono last (bundlesLast_size last) found

/-- Edits that declare nothing. -/
def Undeclaring {α : Type} (e : Edit α) : Prop :=
  Respects (fun g g' => g'.bundles = g.bundles ∧ g'.names = g.names) e

variable {α β : Type}

theorem undeclaring_ask (f : Netlist → Except NetlistError α) : Undeclaring (Edit.ask f) :=
  fun _ => ⟨rfl, rfl⟩

theorem undeclaring_bind {e : Edit α} {f : α → Edit β} (first : Undeclaring e)
    (rest : ∀ a, Undeclaring (f a)) : Undeclaring (e >>= f) :=
  respects_bind (fun one other => ⟨other.1.trans one.1, other.2.trans one.2⟩) first rest

theorem undeclaring_loop {f : α → Edit PUnit} (as : List α) (each : ∀ a, Undeclaring (f a)) :
    Undeclaring (forIn as PUnit.unit fun a _ => do f a; pure (ForInStep.yield PUnit.unit)) := by
  induction as with
  | nil => exact fun g => ⟨rfl, rfl⟩
  | cons a rest ih =>
    rw [List.forIn_cons]
    refine undeclaring_bind (undeclaring_bind (each a) fun _ g => ⟨rfl, rfl⟩) fun step => ?_
    cases step with
    | done => exact fun g => ⟨rfl, rfl⟩
    | yield => exact ih

theorem undeclaring_build (f : Netlist → Numbering (Except NetlistError) α) :
    Undeclaring (Edit.build f) := by
  intro g
  unfold Edit.build
  split <;> exact ⟨rfl, rfl⟩

theorem undeclaring_install (f : Netlist → Numbering (Except NetlistError) (List (LeafId × Expr))) :
    Undeclaring (do attachAll (← Edit.build f) : Edit Unit) := by
  refine undeclaring_bind (undeclaring_build f) fun drivers g => ?_
  change (attachAll drivers g).2.bundles = _ ∧ (attachAll drivers g).2.names = _
  rw [(attachAll_attached drivers g).same]
  exact ⟨rfl, rfl⟩

theorem undeclaring_subscribe (id : LeafId) : Undeclaring (subscribe id) :=
  undeclaring_bind (fun g => by rw [discard_ask]; exact ⟨rfl, rfl⟩) fun _ g => ⟨rfl, rfl⟩

theorem undeclaring_force (id : LeafId) (value : Value) : Undeclaring (force id value) := by
  intro g
  rcases force_cases id value g with ⟨x, failed⟩ | ⟨-, done⟩
  · rw [failed]
    exact ⟨rfl, rfl⟩
  · rw [done]
    exact ⟨rfl, rfl⟩

theorem undeclaring_forceWhole (target : Ref) (value : Value) :
    Undeclaring (forceWhole target value) := by
  refine undeclaring_bind (undeclaring_ask _) fun parts => ?_
  exact undeclaring_bind (undeclaring_loop parts fun part => undeclaring_force part.1 part.2)
    fun _ g => ⟨rfl, rfl⟩

theorem undeclaring_settle : Undeclaring settle := by
  intro g
  rcases settle_cases g with ⟨x, failed, -⟩ | ⟨report, pass, settled, -⟩
  · rw [failed]
    exact ⟨rfl, rfl⟩
  · rw [settled]
    change (g.commit (g.changesOf pass)).bundles = _ ∧ (g.commit (g.changesOf pass)).names = _
    rw [commit_same]
    exact ⟨rfl, rfl⟩

theorem declarative_bundlesLast : Declarative BundlesLast where
  refl _ _ _ found := found
  trans := bundlesLast_trans
  leaf name init g := (declares_addLeaf name init g).bundle
  bundle name elements g := (declares_addBundle name elements g).bundle

end Netlist

variable {w w' : World} {R : Netlist → Netlist → Prop}

theorem compile_declares (declarative : Declarative R)
    (still : ∀ {g g' : Netlist}, g'.bundles = g.bundles ∧ g'.names = g.names → R g g')
    {settings : BlockSettings} {log : Option DiagnosticLog} {builder : Builder}
    (allowed : w.Allows (.compile settings log builder)) :
    R w.netlist (w.call (.compile settings log builder)).netlist := by
  have declared : R w.netlist (builder.run w.netlist).2 :=
    run_respects declarative (fun g => still ⟨rfl, rfl⟩) builder w.netlist
  rcases call_compiles allowed with same |
    ⟨statements, g, K, outputs, drivers, checks, L, run, -, -, compiled⟩
  · exact same ▸ declared
  · rw [run] at declared
    have bundles := congrArg Netlist.bundles compiled.attached.same
    have names := congrArg Netlist.names compiled.attached.same
    exact declarative.trans declared (still ⟨bundles, names⟩)

/-- What every declaration keeps up, and whatever leaves bundles and names alone, every call does. -/
theorem call_declares (declarative : Declarative R)
    (still : ∀ {g g' : Netlist}, g'.bundles = g.bundles ∧ g'.names = g.names → R g g') {c : Call}
    (allowed : w.Allows c) : R w.netlist (w.call c).netlist := by
  cases c with
  | leaf name init => exact declarative.leaf name init w.netlist
  | bundle name elements => exact declarative.bundle name elements w.netlist
  | clone id name => exact declaring_cloneBundle id name R declarative w.netlist
  | subscribe id => exact still (undeclaring_subscribe id w.netlist)
  | number => exact still ⟨rfl, rfl⟩
  | connect target e => exact still (undeclaring_install _ w.netlist)
  | wire target source => exact still (undeclaring_install _ w.netlist)
  | force id v => exact still (undeclaring_force id v w.netlist)
  | forceWhole target v => exact still (undeclaring_forceWhole target v w.netlist)
  | inject id v =>
    exact still (undeclaring_bind (undeclaring_force id v) (fun _ => undeclaring_settle) w.netlist)
  | injectWhole target v =>
    exact still
      (undeclaring_bind (undeclaring_forceWhole target v) (fun _ => undeclaring_settle) w.netlist)
  | settle => exact still (undeclaring_settle w.netlist)
  | check selector conflict =>
    refine still ?_
    simp only [World.call, World.makeCheck]
    have same := undeclaring_build (·.conflictCheck selector conflict) w.netlist
    split <;> simp_all
  | watch index =>
    refine still ?_
    simp only [World.call, World.watchMade]
    split <;> exact ⟨rfl, rfl⟩
  | compile settings log builder => exact compile_declares declarative still allowed

/-- So it holds between the ends of a run. -/
theorem leads_declares (declarative : Declarative R)
    (still : ∀ {g g' : Netlist}, g'.bundles = g.bundles ∧ g'.names = g.names → R g g')
    (leads : w.Leads w') : R w.netlist w'.netlist := by
  induction leads with
  | refl => exact declarative.refl _
  | tail _ step ih =>
    obtain ⟨c, allowed, rfl⟩ := step
    exact declarative.trans ih (call_declares declarative still allowed)

theorem leads_bundles (leads : w.Leads w') : BundlesLast w.netlist w'.netlist :=
  leads_declares declarative_bundlesLast (fun same _ _ found => same.1 ▸ found) leads

end CombLogic
