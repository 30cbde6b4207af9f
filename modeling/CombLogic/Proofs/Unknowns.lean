import CombLogic.Proofs.History
import CombLogic.Proofs.Netlist.Inputs

/- What unknown inputs leave open. A bit that comes out known while some inputs are unknown is the bit that
   comes out however they turn out. -/
namespace CombLogic

open Expr Netlist

theorem reachable_inputsFit {w : World} (reachable : w.Reachable) : w.netlist.InputsFit := by
  refine reachable_keeps move_inputsFit (fun limit id leaf found => ?_) reachable
  simp [Netlist.empty] at found

/-- In two worlds without leaves that wait, the values of the one are below those of the other if they
    are on the leaves that nothing drives. -/
theorem unknowns_resolve {w w' : World} (reachable : w.Reachable) (reachable' : w'.Reachable)
    (clean : w.netlist.dirty.keys = []) (clean' : w'.netlist.dirty.keys = [])
    (drivers : w.netlist.SameDrivers w'.netlist) (wild : w.netlist.Wild) (solid : w.netlist.Solid)
    (inputs : w.netlist.InputsBelow w'.netlist) {id : LeafId} {leaf leaf' : Leaf}
    (found : w.netlist.leaves.get? id = some leaf)
    (found' : w'.netlist.leaves.get? id = some leaf') : leaf.value.Below leaf'.value := by
  obtain ⟨K, kept⟩ := reachable_kept reachable
  obtain ⟨L, kept'⟩ := reachable_kept reachable'
  have wait := reachable_waits reachable
  have fits := clean_fits kept wait clean solid (reachable_inputsFit reachable)
  exact clean_below kept kept' wait clean clean' drivers wild solid fits inputs id leaf found leaf'
    found'

instance (drive : Drive) (p : Expr → Prop) [DecidablePred p] :
    Decidable (∀ e, drive = .driven e → p e) :=
  decidable_of_iff (∀ e ∈ drive.driver?, p e) (by simp [driver?_eq_some])

instance (g : Netlist) : Decidable g.Wild :=
  inferInstanceAs (Decidable (∀ id leaf, g.leaves.get? id = some leaf → ∀ e,
    leaf.drive = .driven e → e.Wild))

instance (g : Netlist) : Decidable g.Solid :=
  inferInstanceAs (Decidable (∀ id leaf, g.leaves.get? id = some leaf → ∀ e,
    leaf.drive = .driven e → e.Solid g.declared))

instance (h : Netlist) (id : LeafId) (p : Leaf → Prop) [DecidablePred p] :
    Decidable (∀ leaf, h.leaves.get? id = some leaf → p leaf) :=
  inferInstanceAs (Decidable (∀ leaf ∈ h.leaves.get? id, p leaf))

instance (g h : Netlist) : Decidable (g.InputsBelow h) :=
  inferInstanceAs (Decidable (∀ id leaf, g.leaves.get? id = some leaf → ∀ leaf',
    h.leaves.get? id = some leaf' → leaf.drive.isDriven = false → leaf.value.Below leaf'.value))

/-- One of two bits is chosen by an unknown one, and masked by a 0. -/
theorem mask_resolves : ∃ w w' : World, w.Reachable ∧ w'.Reachable ∧
    w.netlist.InputsBelow w'.netlist ∧ ∃ leaf leaf', w.netlist.leaves.get? 3 = some leaf ∧
      w'.netlist.leaves.get? 3 = some leaf' ∧ leaf.value = .zeros 1 ∧
        leaf.value.Below leaf'.value := by
  let calls (bit : Value) : List Call := [.leaf "a" bit, .leaf "b" (.ofBool true), .leaf "c" (.zeros 1),
    .leaf "y" (.unknown 1), .number, .number, .number, .number, .number,
    .connect (.leaf 3) (.binary 4 .and (.mux 3 (.signal 0 0) (.signal 1 1) (.signal 2 2)) (.signal 2 2)),
    .settle]
  let w := (World.empty 10).after (calls (.unknown 1))
  let w' := (World.empty 10).after (calls (.ofBool true))
  have reachable : w.Reachable := ⟨10, World.leads_after _ (calls _) (by decide +kernel)⟩
  have reachable' : w'.Reachable := ⟨10, World.leads_after _ (calls _) (by decide +kernel)⟩
  have inputs : w.netlist.InputsBelow w'.netlist := by decide +kernel
  have there : (w.netlist.leaves.get? 3).map (·.value) = some (.zeros 1) := by decide +kernel
  have there' : (w'.netlist.leaves.get? 3).isSome := by decide +kernel
  obtain ⟨leaf, found, value⟩ := Option.map_eq_some_iff.mp there
  obtain ⟨leaf', found'⟩ := Option.isSome_iff_exists.mp there'
  refine ⟨w, w', reachable, reachable', inputs, leaf, leaf', found, found', value, ?_⟩
  exact unknowns_resolve reachable reachable' (by decide +kernel) (by decide +kernel)
    (by decide +kernel) (by decide +kernel) (by decide +kernel) inputs found found'

end CombLogic
