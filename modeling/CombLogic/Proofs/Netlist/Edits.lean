import CombLogic.Proofs.Netlist.Declare
import CombLogic.Proofs.Netlist.Moves

/- The calls that change a netlist, each as a sequence of small changes. A call that fails made some
   of them or none. -/
namespace CombLogic

open Expr Netlist

/-- An edit comes about by small changes, from whatever is kept. -/
def Moving {α : Type} (e : Edit α) : Prop :=
  ∀ g made K, World.Kept ⟨g, made⟩ K → ∃ L, Moves ⟨⟨g, made⟩, K⟩ ⟨⟨(e g).2, made⟩, L⟩

section

variable {α β : Type}

theorem moving_still {e : Edit α} (same : ∀ g, (e g).2 = g) : Moving e := by
  intro g made K _
  rw [same]
  exact ⟨K, .refl⟩

theorem moving_bind {e : Edit α} {f : α → Edit β} (first : Moving e) (rest : ∀ a, Moving (f a)) :
    Moving (e >>= f) := by
  intro g made K kept
  obtain ⟨L, moves⟩ := first g made K kept
  obtain ⟨result, h, run⟩ : ∃ result h, e g = (result, h) := ⟨_, _, rfl⟩
  rw [run] at moves
  cases result with
  | error x =>
    rw [step_error run]
    exact ⟨L, moves⟩
  | ok a =>
    rw [step_ok run]
    obtain ⟨L', more⟩ := rest a h made L (moves_kept moves kept)
    exact ⟨L', moves.trans more⟩

theorem moving_loop {f : α → Edit PUnit} (as : List α) (each : ∀ a ∈ as, Moving (f a)) :
    Moving (forIn as PUnit.unit fun a _ => do f a; pure (ForInStep.yield PUnit.unit)) := by
  induction as with
  | nil => exact moving_still fun g => rfl
  | cons a rest ih =>
    rw [List.forIn_cons]
    intro g made K kept
    obtain ⟨L, moves⟩ := each a (by simp) g made K kept
    obtain ⟨result, h, run⟩ : ∃ result h, f a g = (result, h) := ⟨_, _, rfl⟩
    rw [run] at moves
    cases result with
    | error x =>
      rw [step_error (step_error run)]
      exact ⟨L, moves⟩
    | ok u =>
      have first : (do f a; pure (ForInStep.yield PUnit.unit) : Edit (ForInStep PUnit)) g =
          (.ok (.yield PUnit.unit), h) := step_ok run
      rw [step_ok first]
      obtain ⟨L', more⟩ :=
        ih (fun b later => each b (by simp [later])) h made L (moves_kept moves kept)
      exact ⟨L', moves.trans more⟩

theorem moving_declaring {e : Edit α} (declaring : Declaring e) : Moving e := by
  intro g made K _
  have next : ((e g).2).nextNode = g.nextNode := by rw [(declaring _ declarative_declares g).same]
  exact ⟨K, .single (.extend (declaring _ declarative_extends g) next)⟩

theorem extends_withSubscriber (id : LeafId) (g : Netlist) : Extends g (g.withSubscriber id) := by
  refine ⟨fun other leaf found => ?_, fun other leaf found missing => ?_, fun _ _ listed => listed,
    rfl, rfl, rfl, rfl, subscribed_withSubscriber id⟩
  · simp only [withSubscriber_get, found]
    split
    · exact ⟨_, rfl⟩
    · exact ⟨leaf.subscribers, rfl⟩
  · simp [withSubscriber_get, missing] at found

theorem discard_ask {f : Netlist → Except NetlistError α} (g : Netlist) :
    (discard (Edit.ask f) : Edit PUnit) g = ((f g).map fun _ => PUnit.unit, g) := by
  cases found : f g <;>
    simp [discard, Functor.discard, Functor.mapConst, Edit.ask, found, ExceptT.map, ExceptT.mk,
      bind, StateT.bind, Except.map, pure, stateT_pure]

theorem subscribe_extends (id : LeafId) (g : Netlist) :
    Extends g (subscribe id g).2 ∧ (subscribe id g).2.nextNode = g.nextNode := by
  cases found : g.leaf id with
  | error x =>
    have failed : subscribe id g = (.error x, g) :=
      step_error ((discard_ask g).trans (by simp [found, Except.map]))
    rw [failed]
    exact ⟨.refl g, rfl⟩
  | ok leaf =>
    have asked : (discard (Edit.ask (·.leaf id)) : Edit PUnit) g = (.ok PUnit.unit, g) :=
      (discard_ask g).trans (by simp only [found, Except.map])
    have done : (subscribe id g).2 = g.withSubscriber id := congrArg Prod.snd (step_ok asked)
    rw [done]
    exact ⟨extends_withSubscriber id g, rfl⟩

theorem moving_subscribe (id : LeafId) : Moving (subscribe id) := by
  intro g made K _
  obtain ⟨extended, next⟩ := subscribe_extends id g
  exact ⟨K, .single (.extend extended next)⟩

theorem requireForceable_ok {g : Netlist} {id : LeafId} {value : Value}
    (done : g.requireForceable id value = .ok ()) : g.Forceable id value := by
  obtain ⟨leaf, found, done⟩ := bind_ok done
  refine ⟨leaf, leaf_ok.mp found, ?_⟩
  cases driven : leaf.drive.isDriven with
  | true =>
    rw [if_pos driven] at done
    obtain ⟨name, -, failed⟩ := bind_ok done
    cases failed
  | false =>
    refine ⟨rfl, ?_⟩
    by_contra differ
    simp only [driven, Bool.false_eq_true, ↓reduceIte, ne_eq, differ, not_false_eq_true]
      at done
    obtain ⟨name, -, failed⟩ := bind_ok done
    cases failed

theorem force_cases (id : LeafId) (value : Value) (g : Netlist) :
    (∃ x, force id value g = (.error x, g)) ∨ (g.Forceable id value ∧
      force id value g = (.ok (), { g with staged := g.staged.insert id value })) := by
  cases fits : g.requireForceable id value with
  | error x => exact .inl ⟨x, step_error (by simp [Edit.ask, fits])⟩
  | ok u =>
    have asked : Edit.ask (·.requireForceable id value) g = (.ok u, g) := by simp [Edit.ask, fits]
    exact .inr ⟨requireForceable_ok fits, step_ok asked⟩

theorem moving_force (id : LeafId) (value : Value) : Moving (force id value) := by
  intro g made K _
  rcases force_cases id value g with ⟨x, failed⟩ | ⟨fits, done⟩
  · rw [failed]
    exact ⟨K, .refl⟩
  · rw [done]
    exact ⟨K, .single (.stage fits)⟩

theorem moving_forceWhole (target : Ref) (value : Value) : Moving (forceWhole target value) := by
  refine moving_bind (moving_still fun g => rfl) fun parts => ?_
  refine moving_bind ?_ fun u => moving_still fun g => rfl
  exact moving_loop parts fun part _ => moving_force part.1 part.2

theorem settle_cases (g : Netlist) :
    (∃ x, settle g = (.error x, { g with staged := .empty }) ∧ g.runPass = .error x) ∨
      ∃ report pass, settle g = (.ok report, g.commit (g.changesOf pass)) ∧ g.runPass = .ok pass := by
  have state : (get : Edit Netlist) g = (.ok g, g) := rfl
  cases done : g.runPass with
  | error x =>
    refine .inl ⟨x, ?_, rfl⟩
    rw [settle, step_ok state]
    simp only [done]
    rfl
  | ok pass =>
    obtain ⟨report, settled⟩ : ∃ report, settle g = (.ok report, g.commit (g.changesOf pass)) := by
      rw [settle, step_ok state]
      simp only [done]
      exact ⟨_, rfl⟩
    exact .inr ⟨report, pass, settled, rfl⟩

theorem moving_settle : Moving settle := by
  intro g made K _
  rcases settle_cases g with ⟨x, failed, -⟩ | ⟨report, pass, settled, done⟩
  · rw [failed]
    exact ⟨K, .single .drop⟩
  · rw [settled]
    exact ⟨K, .single (.commit done)⟩

theorem moving_inject (id : LeafId) (value : Value) : Moving (inject id value) :=
  moving_bind (moving_force id value) fun _ => moving_settle

theorem moving_injectWhole (target : Ref) (value : Value) : Moving (injectWhole target value) :=
  moving_bind (moving_forceWhole target value) fun _ => moving_settle

end

section

variable {g : Netlist} {made : List ConflictCheck} {K L : Set Expr} {drivers : List (LeafId × Expr)}

/-- Offers of drivers for free leaves. -/
def Netlist.Offers (g : Netlist) (L : Set Expr) (drivers : List (LeafId × Expr)) : Prop :=
  (∀ p ∈ drivers, g.Free p.1) ∧ (∀ p ∈ drivers, g.DriverFor L p) ∧ Agree drivers

/-- Drivers are put in their places, or nothing happens. -/
theorem install_cases {offer : Netlist → Numbering (Except NetlistError) (List (LeafId × Expr))}
    (sharing : Sharing K g.nextNode) (makes : Makes K (offer g) (g.Offers)) :
    ((do attachAll (← Edit.build offer) : Edit Unit) g).2 = g ∨
      ∃ drivers next L, K ⊆ L ∧ Sharing L next ∧ g.Offers L drivers ∧
        Attached drivers { g with nextNode := next }
          ((do attachAll (← Edit.build offer) : Edit Unit) g).2 := by
  cases built : offer g g.nextNode with
  | error x =>
    have failed : Edit.build offer g = (.error x, g) := by simp only [Edit.build, built]
    exact .inl (by rw [step_error failed])
  | ok r =>
    obtain ⟨drivers, next⟩ := r
    have done : Edit.build offer g = (.ok drivers, { g with nextNode := next }) := by
      simp only [Edit.build, built]
    obtain ⟨L, sub, shared, offers⟩ := makes K subset_rfl _ _ _ sharing built
    refine .inr ⟨drivers, next, L, sub, shared, offers, ?_⟩
    rw [step_ok done]
    exact attachAll_attached drivers { g with nextNode := next }

theorem moves_install {offer : Netlist → Numbering (Except NetlistError) (List (LeafId × Expr))}
    (sharing : Sharing K g.nextNode) (makes : Makes K (offer g) (g.Offers)) :
    ∃ L, Moves ⟨⟨g, made⟩, K⟩
      ⟨⟨((do attachAll (← Edit.build offer) : Edit Unit) g).2, made⟩, L⟩ := by
  rcases install_cases sharing makes with same | ⟨drivers, next, L, sub, shared, offers, attached⟩
  · rw [same]
    exact ⟨K, .refl⟩
  · obtain ⟨free, offered, agree⟩ := offers
    refine ⟨L, (Relation.ReflTransGen.single (.number sub shared)).trans (.single ?_)⟩
    exact .attach attached free (fun p listed => driverFor_leaves (by rfl) (offered p listed)) agree

theorem connect_offers (sharing : Sharing K g.nextNode) {e : Expr} (member : e ∈ K) (target : Ref) :
    Makes K (g.driversFor target e) g.Offers :=
  makes_weaken (driversFor_makes sharing member target) fun _ _ _ offers => offers.2

theorem wire_offers (target source : Ref) :
    Makes K (do g.driversFor target (← g.exprOf source)) g.Offers := by
  refine makes_step (exprOf_makes source) fun L next e sub shared inside => ?_
  exact makes_weaken (driversFor_makes shared inside target) fun _ _ _ offers => offers.2

theorem moves_connect (sharing : Sharing K g.nextNode) {e : Expr} (member : e ∈ K) (target : Ref) :
    ∃ L, Moves ⟨⟨g, made⟩, K⟩ ⟨⟨(connect target e g).2, made⟩, L⟩ :=
  moves_install sharing (connect_offers sharing member target)

theorem moving_wire (target source : Ref) : Moving (wire target source) :=
  fun _ _ _ kept => moves_install kept.sharing (wire_offers target source)

end

end CombLogic
