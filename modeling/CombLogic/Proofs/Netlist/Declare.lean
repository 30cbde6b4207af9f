import CombLogic.Block.Scratch
import CombLogic.Proofs.Netlist.Kept

/- Declarations. Whether a call that declares leaves and bundles succeeds or not, all that was there
   stays as it was, and the new leaves are undriven. -/
namespace CombLogic.Netlist

structure Declares (g g' : Netlist) : Prop where
  leaf : ∀ id leaf, g.leaves.get? id = some leaf → g'.leaves.get? id = some leaf
  bundle : ∀ id bundle, g.bundles.get? id = some bundle → g'.bundles.get? id = some bundle
  new : ∀ id leaf, g'.leaves.get? id = some leaf → g.leaves.get? id = none →
    leaf.drive = .undriven ∧ leaf.readers = .empty ∧ leaf.value.width = leaf.width ∧
      (g'.names.text? leaf.name).isSome
  names : ∀ number name, g.names.text? number = some name → g'.names.text? number = some name
  same : g' = { g with leaves := g'.leaves, bundles := g'.bundles, names := g'.names }

section

variable {α β : Type} {g g' g'' : Netlist}

namespace Declares

theorem refl (g : Netlist) : Declares g g where
  leaf _ _ found := found
  bundle _ _ found := found
  new id leaf found missing := by simp [missing] at found
  names _ _ listed := listed
  same := rfl

theorem trans (first : Declares g g') (second : Declares g' g'') : Declares g g'' where
  leaf id leaf found := second.leaf id leaf (first.leaf id leaf found)
  bundle id bundle found := second.bundle id bundle (first.bundle id bundle found)
  new id leaf found missing := by
    cases between : g'.leaves.get? id with
    | none => exact second.new id leaf found between
    | some leaf' =>
      obtain ⟨drive, readers, width, named⟩ := first.new id leaf' between missing
      obtain rfl : leaf' = leaf := by simpa [found] using (second.leaf id leaf' between).symm
      obtain ⟨name, listed⟩ := Option.isSome_iff_exists.mp named
      exact ⟨drive, readers, width, Option.isSome_of_eq_some (second.names _ _ listed)⟩
  names number name listed := second.names number name (first.names number name listed)
  same := by rw [second.same, first.same]

theorem toExtends (declares : Declares g g') (subscribed : g.Subscribed → g'.Subscribed) :
    Extends g g' where
  old id leaf found := ⟨leaf.subscribers, declares.leaf id leaf found⟩
  new := declares.new
  names := declares.names
  staged := by rw [declares.same]
  dirty := by rw [declares.same]
  checks := by rw [declares.same]
  oldChecks := by rw [declares.same]
  subscribed := subscribed

end Declares

theorem declares_addLeaf (name : String) (init : Value) (g : Netlist) :
    Declares g (addLeaf name init g).2 := by
  refine ⟨fun id leaf found => ?_, fun id bundle found => found, fun id leaf found missing => ?_,
    fun number text listed => g.names.text?_later name listed, rfl⟩
  · rw [addLeaf_get, if_neg (Nat.ne_of_lt (g.leaves.lt_size id found))]
    exact found
  · rw [addLeaf_get] at found
    split at found
    · obtain rfl := Option.some.inj found
      refine ⟨rfl, rfl, rfl, ?_⟩
      exact Option.isSome_of_eq_some (g.names.text?_intern name)
    · simp [missing] at found

theorem declares_addBundle (name : String) (elements : List Ref) (g : Netlist) :
    Declares g (addBundle name elements g).2 := by
  refine ⟨fun id leaf found => found, fun id bundle found => ?_,
    fun id leaf found missing => ?_, fun number text listed => g.names.text?_later name listed, rfl⟩
  · have added : (addBundle name elements g).2.bundles.get? id = if id = g.bundles.size then
        some ⟨(g.names.intern name).1, elements⟩ else g.bundles.get? id := g.bundles.get?_add id _
    have before := g.bundles.lt_size id found
    rw [added, if_neg (by omega)]
    exact found
  · have same : (addBundle name elements g).2.leaves.get? id = g.leaves.get? id := rfl
    simp [same, missing] at found

/-- A relation that every declaration keeps up, and so any number of them. -/
structure Declarative (R : Netlist → Netlist → Prop) : Prop where
  refl : ∀ g, R g g
  trans : ∀ {g g' g''}, R g g' → R g' g'' → R g g''
  leaf : ∀ name init g, R g (addLeaf name init g).2
  bundle : ∀ name elements g, R g (addBundle name elements g).2

theorem declarative_declares : Declarative Declares :=
  ⟨.refl, .trans, declares_addLeaf, declares_addBundle⟩

theorem declarative_extends : Declarative Extends where
  refl := .refl
  trans := .trans
  leaf name init g := (declares_addLeaf name init g).toExtends (subscribed_addLeaf name init g)
  bundle name elements g :=
    (declares_addBundle name elements g).toExtends (subscribed_same (fun _ => rfl) rfl)

section

variable {R : Netlist → Netlist → Prop}

/-- Whether an edit succeeds or not, the netlist after it is in a relation to the one before it. -/
def Respects (R : Netlist → Netlist → Prop) (e : Edit α) : Prop := ∀ g, R g (e g).2

theorem respects_bind (trans : ∀ {g g' g''}, R g g' → R g' g'' → R g g'') {e : Edit α}
    {f : α → Edit β} (first : Respects R e) (rest : ∀ a, Respects R (f a)) :
    Respects R (e >>= f) := by
  intro g
  obtain ⟨result, h, run⟩ : ∃ result h, e g = (result, h) := ⟨_, _, rfl⟩
  have here : R g h := by simpa [run] using first g
  cases result with
  | error x =>
    rw [step_error run]
    exact here
  | ok a =>
    rw [step_ok run]
    exact trans here (rest a h)

end

/-- An edit that declares and does nothing else. -/
def Declaring (e : Edit α) : Prop := ∀ R, Declarative R → Respects R e

theorem declaring_pure (a : α) : Declaring (pure a) := fun _ declarative => declarative.refl

theorem declaring_ask (f : Netlist → Except NetlistError α) : Declaring (Edit.ask f) :=
  fun _ declarative => declarative.refl

theorem declaring_throw (e : NetlistError) : Declaring (throw e : Edit α) :=
  fun _ declarative => declarative.refl

theorem declaring_addLeaf (name : String) (init : Value) :
    Declaring (liftM (addLeaf name init)) := fun _ declarative => declarative.leaf name init

theorem declaring_addBundle (name : String) (elements : List Ref) :
    Declaring (liftM (addBundle name elements)) :=
  fun _ declarative => declarative.bundle name elements

theorem declaring_bind {e : Edit α} {f : α → Edit β} (first : Declaring e)
    (rest : ∀ a, Declaring (f a)) : Declaring (e >>= f) := fun R declarative =>
  respects_bind (R := R) declarative.trans (first R declarative) fun a => rest a R declarative

theorem declaring_cloneElements {inner : BundleId → String → Edit BundleId}
    (declaring : ∀ id name, Declaring (inner id name)) (oldName newName : String)
    (elements : List Ref) (index : Nat) :
    Declaring (cloneElements inner oldName newName index elements) := by
  induction elements generalizing index with
  | nil => exact declaring_pure []
  | cons element rest ih =>
    refine declaring_bind (declaring_ask _) fun name => ?_
    cases element with
    | leaf id =>
      refine declaring_bind (declaring_ask _) fun leaf => ?_
      refine declaring_bind (declaring_addLeaf _ _) fun copy => ?_
      exact declaring_bind (declaring_pure _) fun copy =>
        declaring_bind (ih (index + 1)) fun copies => declaring_pure _
    | bundle id =>
      refine declaring_bind (declaring id _) fun copy => ?_
      exact declaring_bind (declaring_pure _) fun copy =>
        declaring_bind (ih (index + 1)) fun copies => declaring_pure _

theorem declaring_cloneWithin (depth : Nat) (id : BundleId) (newName : String) :
    Declaring (cloneWithin depth id newName) := by
  induction depth generalizing id newName with
  | zero => exact declaring_throw _
  | succ depth ih =>
    refine declaring_bind (declaring_ask _) fun bundle => ?_
    refine declaring_bind (declaring_ask _) fun oldName => ?_
    refine declaring_bind (declaring_cloneElements ih oldName newName bundle.elements 0)
      fun copies => ?_
    exact declaring_addBundle _ _

theorem declaring_cloneBundle (id : BundleId) (newName : String) :
    Declaring (cloneBundle id newName) :=
  fun R declarative g => declaring_cloneWithin g.bundles.size id newName R declarative g

theorem declaring_scratch (scratch : Scratch) : Declaring scratch.declare := by
  cases scratch with
  | leaf name width =>
    exact declaring_bind (declaring_addLeaf _ _) fun id => declaring_pure _
  | bundleLike shape name =>
    exact declaring_bind (declaring_cloneBundle shape name) fun id => declaring_pure _

end

end CombLogic.Netlist
