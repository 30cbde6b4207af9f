import Mathlib.Algebra.GroupWithZero.Nat
import CombLogic.Proofs.Collections
import CombLogic.Proofs.Sizing.Memo

/- What plain sizing leaves of an expression. Each operand is sized for some width and the node keeps
   its form; an integer alone becomes a literal. So a sized expression has no integer in it, reads
   what it read before, and sizing it once more changes nothing. -/
namespace CombLogic

open Expr Sizing

variable {d : Ref → Option Nat}

/-- How an operand was sized. -/
def OperandFits (d : Ref → Option Nat) (a : Expr) (r : Expr × Nat) : Prop :=
  ∃ width, a.natural d = some (some width) ∧ a.fitted d width = some r

/-- One step of sizing: what was found about the operands of a node, and what became of it. -/
inductive FitStep (d : Ref → Option Nat) : Expr → Nat → Expr → Nat → Prop where
  | atom {e : Expr} (width : Nat) (leaf : e.isAtom = true) (sized : e.integer? = none) :
      FitStep d e width e width
  | integer (n : Nat) (value : Int) (width : Nat) :
      FitStep d (.integer n value) width (.literal n (.ofInt width value)) width
  | reduction {n width aw : Nat} {op : UnaryOp} {a a' : Expr} (reduces : op.isReduction = true)
      (operand : OperandFits d a (a', aw)) :
      FitStep d (.unary n op a) width (.unary n op a') 1
  | unary {n width aw : Nat} {op : UnaryOp} {a a' : Expr} (keeps : op.isReduction = false)
      (operand : a.fitted d width = some (a', aw)) :
      FitStep d (.unary n op a) width (.unary n op a') aw
  | shift {n width aw bw : Nat} {op : BinaryOp} {a a' b b' : Expr} {own : Option Nat}
      (shifts : op.isShift = true) (left : a.fitted d width = some (a', aw))
      (amount : b.natural d = some own)
      (right : b.fitted d (own.getD b.leastWidth) = some (b', bw)) :
      FitStep d (.binary n op a b) width (.binary n op a' b') aw
  | pair {n width aw bw : Nat} {op : BinaryOp} {a a' b b' : Expr} {own own' : Option Nat}
      (pairs : op.isShift = false) (first : a.natural d = some own)
      (second : b.natural d = some own')
      (left : a.fitted d
        (pairWidths a b (if op.isComparison then 0 else width) own own').1 = some (a', aw))
      (right : b.fitted d
        (pairWidths a b (if op.isComparison then 0 else width) own own').2 = some (b', bw))
      (fits : aw = bw ∨ aw = 1 ∨ bw = 1) :
      FitStep d (.binary n op a b) width (.binary n op a' b')
        (if op.isComparison then 1 else max aw bw)
  | mux {n width tw : Nat} {c c' t t' f f' : Expr} {bit own own' : Option Nat}
      (condition : c.natural d = some bit) (first : t.natural d = some own)
      (second : f.natural d = some own') (single : c.fitted d (bit.getD 1) = some (c', 1))
      (left : t.fitted d (pairWidths t f width own own').1 = some (t', tw))
      (right : f.fitted d (pairWidths t f width own own').2 = some (f', tw)) :
      FitStep d (.mux n c t f) width (.mux n c' t' f') tw
  | concat {n width : Nat} {parts : List Expr} {fitted : List (Expr × Nat)}
      (each : List.Forall₂ (OperandFits d) parts fitted) :
      FitStep d (.concat n parts) width (.concat n (fitted.map Prod.fst)) (fitted.map Prod.snd).sum
  | slice {n width high low own aw : Nat} {a a' : Expr} (needed : a.natural d = some (some own))
      (ordered : low ≤ high) (inside : high < own) (operand : a.fitted d own = some (a', aw)) :
      FitStep d (.slice n a high low) width (.slice n a' high low) (high - low + 1)
  | extend {n width target aw : Nat} {signed : Bool} {a a' : Expr} {own : Option Nat}
      (found : a.natural d = some own) (wide : own.getD target ≤ target)
      (operand : a.fitted d (own.getD target) = some (a', aw)) :
      FitStep d (.extend n a target signed) width (.extend n a' target signed) target
  | caseMatch {n width sw : Nat} {s s' p p' : Expr} {wildcard : Bool} {own own' : Option Nat}
      (first : s.natural d = some own) (second : p.natural d = some own')
      (left : s.fitted d (pairWidths s p 0 own own').1 = some (s', sw))
      (right : p.fitted d (pairWidths s p 0 own own').2 = some (p', sw)) :
      FitStep d (.caseMatch n s p wildcard) width (.caseMatch n s' p' wildcard) 1

theorem needed_some {a : Expr} {width : Nat} :
    a.needed d = some width ↔ a.natural d = some (some width) := by
  simp only [needed, Option.bind_eq_bind, Option.bind_eq_some_iff]
  constructor
  · rintro ⟨own, found, here⟩
    cases own <;> simp_all
  · intro found
    exact ⟨some width, found, rfl⟩

theorem fittedParts_some {parts rs : List Expr} {total : Nat}
    (done : fittedParts d parts = some (rs, total)) :
    ∃ fitted, List.Forall₂ (OperandFits d) parts fitted ∧ fitted.map Prod.fst = rs ∧
      (fitted.map Prod.snd).sum = total := by
  induction parts generalizing rs total with
  | nil =>
    simp only [fittedParts, Option.some.injEq, Prod.mk.injEq] at done
    obtain ⟨rfl, rfl⟩ := done
    exact ⟨[], .nil, rfl, rfl⟩
  | cons e rest ih =>
    simp only [fittedParts, Option.bind_eq_bind, Option.bind_eq_some_iff, Option.pure_def,
      Option.some.injEq, Prod.mk.injEq, Prod.exists] at done
    obtain ⟨width, needed, r, w, here, rs', total', later, rfl, rfl⟩ := done
    obtain ⟨fitted, each, rfl, rfl⟩ := ih later
    exact ⟨(r, w) :: fitted, .cons ⟨width, needed_some.mp needed, here⟩ each, rfl, rfl⟩

theorem fit_step {e t : Expr} {width tw : Nat} (done : e.fitted d width = some (t, tw)) :
    FitStep d e width t tw := by
  cases e with
  | signal | unassigned | read | literal =>
    simp only [fitted, Option.some.injEq, Prod.mk.injEq] at done
    obtain ⟨rfl, rfl⟩ := done
    exact .atom _ rfl rfl
  | integer n value =>
    simp only [fitted, Option.some.injEq, Prod.mk.injEq] at done
    obtain ⟨rfl, rfl⟩ := done
    exact .integer n value _
  | unary n op a =>
    cases reduces : op.isReduction with
    | true =>
      simp only [fitted, reduces, ↓reduceIte, Option.bind_eq_bind, Option.bind_eq_some_iff,
        Option.pure_def, Option.some.injEq, Prod.mk.injEq, Prod.exists] at done
      obtain ⟨w, needed, a', aw, operand, rfl, rfl⟩ := done
      exact .reduction reduces ⟨w, needed_some.mp needed, operand⟩
    | false =>
      simp only [fitted, reduces, Bool.false_eq_true, ↓reduceIte, Option.bind_eq_bind,
        Option.bind_eq_some_iff, Option.pure_def, Option.some.injEq, Prod.mk.injEq,
        Prod.exists] at done
      obtain ⟨a', aw, operand, rfl, rfl⟩ := done
      exact .unary reduces operand
  | binary n op a b =>
    cases shifts : op.isShift with
    | true =>
      simp only [fitted, shifts, ↓reduceIte, Option.bind_eq_bind, Option.bind_eq_some_iff,
        Option.pure_def, Option.some.injEq, Prod.mk.injEq, Prod.exists] at done
      obtain ⟨a', aw, left, own, amount, b', bw, right, rfl, rfl⟩ := done
      exact .shift shifts left amount right
    | false =>
      simp only [fitted, shifts, Bool.false_eq_true, ↓reduceIte, Option.bind_eq_bind,
        Option.bind_eq_some_iff, Option.pure_def, Prod.exists] at done
      obtain ⟨own, first, own', second, a', aw, left, b', bw, right, done⟩ := done
      split at done
      · simp at done
      · rename_i fits
        simp only [Option.some.injEq, Prod.mk.injEq] at done
        obtain ⟨rfl, rfl⟩ := done
        exact .pair shifts first second left right (by omega)
  | mux n c t f =>
    simp only [fitted, Option.bind_eq_bind, Option.bind_eq_some_iff, Option.pure_def,
      Prod.exists] at done
    obtain ⟨bit, condition, c', cw, single, done⟩ := done
    split at done
    · simp at done
    · rename_i one
      obtain rfl := not_not.mp one
      simp only [Option.bind_eq_some_iff, Prod.exists] at done
      obtain ⟨own, first, own', second, t', tw', left, f', fw, right, done⟩ := done
      split at done
      · simp at done
      · rename_i fits
        obtain rfl := not_not.mp fits
        simp only [Option.some.injEq, Prod.mk.injEq] at done
        obtain ⟨rfl, rfl⟩ := done
        exact .mux condition first second single left right
  | concat n parts =>
    simp only [fitted, Option.bind_eq_bind, Option.bind_eq_some_iff, Option.pure_def,
      Option.some.injEq, Prod.mk.injEq, Prod.exists] at done
    obtain ⟨rs, total, done, rfl, rfl⟩ := done
    obtain ⟨fitted, each, rfl, rfl⟩ := fittedParts_some done
    exact .concat each
  | slice n a high low =>
    simp only [fitted, Option.bind_eq_bind, Option.bind_eq_some_iff, Option.pure_def] at done
    obtain ⟨own, needed, done⟩ := done
    split at done
    · simp at done
    · simp only [Option.bind_eq_some_iff, Option.some.injEq, Prod.mk.injEq, Prod.exists] at done
      obtain ⟨a', aw, operand, rfl, rfl⟩ := done
      exact .slice (needed_some.mp needed) (by omega) (by omega) operand
  | extend n a target signed =>
    simp only [fitted, Option.bind_eq_bind, Option.bind_eq_some_iff, Option.pure_def] at done
    obtain ⟨own, found, done⟩ := done
    split at done
    · simp at done
    · simp only [Option.bind_eq_some_iff, Option.some.injEq, Prod.mk.injEq, Prod.exists] at done
      obtain ⟨a', aw, operand, rfl, rfl⟩ := done
      exact .extend found (by omega) operand
  | caseMatch n s p wildcard =>
    simp only [fitted, Option.bind_eq_bind, Option.bind_eq_some_iff, Option.pure_def,
      Prod.exists] at done
    obtain ⟨own, first, own', second, s', sw, left, p', pw, right, done⟩ := done
    split at done
    · simp at done
    · rename_i fits
      obtain rfl := not_not.mp fits
      simp only [Option.some.injEq, Prod.mk.injEq] at done
      obtain ⟨rfl, rfl⟩ := done
      exact .caseMatch first second left right

/-- An operand was sized for some width, and it has a natural width if its node has one. -/
def OperandOf (d : Ref → Option Nat) (e a r : Expr) : Prop :=
  (∃ width rw, a.fitted d width = some (r, rw)) ∧
    ((e.natural d).isSome → (a.natural d).isSome)

theorem fitted_operands {e t : Expr} {width tw : Nat} (step : FitStep d e width t tw)
    (form : e.integer? = none) :
    ∃ rs, t = e.withChildren e.node rs ∧ List.Forall₂ (OperandOf d e) e.children rs := by
  have bounded : ∀ {a r : Expr} {own : Option Nat} {width rw : Nat}, a.natural d = some own →
      a.fitted d width = some (r, rw) → OperandOf d e a r :=
    fun found done => ⟨⟨_, _, done⟩, fun _ => by simp [found]⟩
  have passed : ∀ {a r : Expr} {width rw : Nat}, e.natural d = a.natural d →
      a.fitted d width = some (r, rw) → OperandOf d e a r :=
    fun same done => ⟨⟨_, _, done⟩, fun own => same ▸ own⟩
  cases step with
  | atom width leaf sized =>
    refine ⟨[], ?_, by rw [isAtom_iff leaf]; exact .nil⟩
    cases e with
    | signal | literal | integer | read | unassigned => rfl
    | _ => simp [isAtom] at leaf
  | integer => simp [integer?] at form
  | @reduction _ _ _ _ _ a' _ operand =>
    obtain ⟨w, found, done⟩ := operand
    exact ⟨[a'], rfl, .cons (bounded found done) .nil⟩
  | @unary _ _ _ _ _ a' keeps operand =>
    exact ⟨[a'], rfl, .cons (passed (by simp [natural, keeps]) operand) .nil⟩
  | @shift _ _ _ _ op a a' _ b' _ shifts left amount right =>
    have same : op.isComparison = false := by
      cases op <;> simp_all [BinaryOp.isShift, BinaryOp.isComparison]
    exact ⟨[a', b'], rfl, .cons (passed (by simp [natural, same, shifts]) left)
      (.cons (bounded amount right) .nil)⟩
  | @pair _ _ _ _ _ _ a' _ b' _ _ _ first second left right =>
    exact ⟨[a', b'], rfl, .cons (bounded first left) (.cons (bounded second right) .nil)⟩
  | @mux _ _ _ _ c' _ t' _ f' _ _ _ condition first second single left right =>
    exact ⟨[c', t', f'], rfl, .cons (bounded condition single)
      (.cons (bounded first left) (.cons (bounded second right) .nil))⟩
  | @concat _ _ parts fitted each =>
    refine ⟨fitted.map Prod.fst, rfl, List.forall₂_map_right_iff.mpr (each.imp ?_)⟩
    rintro a ⟨r, rw⟩ ⟨w, found, done⟩
    exact bounded found done
  | @slice _ _ _ _ _ _ _ a' needed _ _ operand =>
    exact ⟨[a'], rfl, .cons (bounded needed operand) .nil⟩
  | @extend _ _ _ _ _ _ a' _ found _ operand =>
    exact ⟨[a'], rfl, .cons (bounded found operand) .nil⟩
  | @caseMatch _ _ _ _ s' _ p' _ _ _ first second left right =>
    exact ⟨[s', p'], rfl, .cons (bounded first left) (.cons (bounded second right) .nil)⟩

theorem withChildren_operands {e : Expr} {n : Nat} {as : List Expr}
    (length : as.length = e.children.length) : (e.withChildren n as).children = as := by
  by_cases parent : e.children = []
  · obtain rfl : as = [] := by simpa [parent] using length
    cases e <;> simp_all [children, withChildren]
  · exact (withChildren_node parent length).2

theorem withChildren_isAtom {e : Expr} {n : Nat} {as : List Expr}
    (length : as.length = e.children.length) : (e.withChildren n as).isAtom = e.isAtom := by
  cases e with
  | signal | literal | integer | read | unassigned | concat => simp [withChildren, isAtom]
  | unary | slice | extend =>
    obtain ⟨a, rfl⟩ := List.length_eq_one_iff.mp length
    rfl
  | binary | caseMatch =>
    obtain ⟨a, b, rfl⟩ := List.length_eq_two.mp length
    rfl
  | mux =>
    obtain ⟨a, b, c, rfl⟩ := List.length_eq_three.mp length
    rfl

/-- Whatever holds of literals and of all nodes with operands holds of every node of a sized
    expression if it holds of every node but the integers before. -/
theorem all_fitted {p : Expr → Prop} (literals : ∀ n value, p (.literal n value))
    (parents : ∀ e : Expr, e.isAtom = false → p e) (e : Expr) :
    ∀ {t : Expr} {width tw : Nat}, e.fitted d width = some (t, tw) →
      e.All (fun n => n.integer? = none → p n) → t.All p := by
  induction e using operand_induction with
  | step e ih =>
    intro t width tw done every
    have step := fit_step done
    cases atom : e.isAtom with
    | true =>
      have leaf := isAtom_iff atom
      cases step with
      | atom _ _ sized =>
        exact all_iff.mpr ⟨(all_iff.mp every).1 sized, by simp [leaf]⟩
      | integer n value => exact all_iff.mpr ⟨literals n _, by simp [children]⟩
      | _ => simp [isAtom] at atom
    | false =>
      have sized : e.integer? = none := by
        cases e with
        | integer => simp [isAtom] at atom
        | _ => rfl
      obtain ⟨rs, rfl, operands⟩ := fitted_operands step sized
      refine all_iff.mpr ⟨parents _ ((withChildren_isAtom operands.length_eq.symm).trans atom), ?_⟩
      rw [withChildren_operands operands.length_eq.symm]
      intro r member
      obtain ⟨a, operand, ⟨w, rw, fits⟩, -⟩ := forall₂_right operands r member
      exact ih a operand fits ((all_iff.mp every).2 a operand)

theorem fitted_integerless {e t : Expr} {width tw : Nat} (done : e.fitted d width = some (t, tw)) :
    t.Integerless :=
  all_fitted (by simp [integer?]) (by intro e; cases e <;> simp [isAtom, integer?]) e done
    fun n _ sized => sized

theorem fitted_resolved {e t : Expr} {width tw : Nat} (done : e.fitted d width = some (t, tw))
    (resolved : e.Resolved) : t.Resolved :=
  all_fitted (by simp [placeholder?]) (by intro e; cases e <;> simp [isAtom, placeholder?]) e done
    fun n inside _ => resolved n inside

/-- Sizing has nothing to do where no integer is left. -/
theorem fitted_fixed (e : Expr) : ∀ {t : Expr} {width tw : Nat},
    e.fitted d width = some (t, tw) → e.Integerless → t = e := by
  induction e using operand_induction with
  | step e ih =>
    intro t width tw done free
    obtain ⟨sized, below⟩ := all_iff.mp free
    obtain ⟨rs, rfl, operands⟩ := fitted_operands (fit_step done) sized
    have same : rs = e.children := by
      refine (forall₂_eq operands fun a r operand ⟨⟨w, rw, fits⟩, _⟩ => ?_).symm
      exact (ih a operand fits (below a operand)).symm
    rw [same]
    cases e <;> rfl

end CombLogic
