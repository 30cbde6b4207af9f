import CombLogic.Proofs.Sizing.Stable
import CombLogic.Proofs.Widths

/- Sizes of expressions. What sizing gives is free of integers and sized for good, and it evaluates to a
   value of the width that sizing found. -/
namespace CombLogic

open Expr Netlist

section

variable {g : Netlist} {e s : Expr} {context : Option Nat} {next last width : Nat}

/-- What a netlist sizes an expression to, up to node numbers. -/
theorem sizeFor_plain {K : Set Expr} (sharing : Sharing K next) (member : e ∈ K)
    (done : g.sizeFor e context next = .ok ((s, width), last)) :
    ∃ t L, e.sized g.declared context = some (t, width) ∧ s.shape = t.shape ∧
      (e.Integerless → s = e) ∧ s ∈ L ∧ Sharing L last := by
  have builds : Builds K (g.sizeFor e context) (e.sized g.declared context) (Fits e) :=
    sizeFor_builds sharing member context
  have built := builds K subset_rfl next sharing
  cases plain : e.sized g.declared context with
  | none =>
    rw [plain] at built
    obtain ⟨x, failed⟩ := built
    cases failed.symm.trans done
  | some r =>
    rw [plain] at built
    obtain ⟨_, _, L, run, -, shared, inside, alike, same, old⟩ := built
    cases run.symm.trans done
    obtain ⟨t, width'⟩ := r
    obtain rfl : width = width' := same
    exact ⟨t, L, rfl, alike, old, inside, shared⟩

end

end CombLogic
