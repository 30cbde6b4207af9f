import CombLogic.Proofs.Block.Resolve
import CombLogic.Proofs.Netlist.Pieces

/- Expressions that are sized already. What is put together from them for the widths that sizing asks
   for is sized already as well, and so is a sized expression after each of its reads was replaced by
   an expression that is sized for the width of what was read. -/
namespace CombLogic

open Expr Sizing Netlist

variable {d : Ref → Option Nat}

theorem fixed_integerless {e : Expr} {width : Nat} (fixed : e.Fixed d width) : e.Integerless :=
  fitted_integerless fixed.2

theorem fixed_same {s t : Expr} {width : Nat} (alike : s.shape = t.shape) (fixed : t.Fixed d width) :
    s.Fixed d width :=
  fixed_alike alike (integerless_alike alike (fixed_integerless fixed)) fixed

theorem fixed_literal (n : Nat) (v : Value) : (Expr.literal n v).Fixed d v.width := ⟨rfl, rfl⟩

theorem fixed_or {a b : Expr} (n : Nat) (left : a.Fixed d 1) (right : b.Fixed d 1) :
    (Expr.binary n .or a b).Fixed d 1 := by
  have shift : BinaryOp.or.isShift = false := rfl
  have comparison : BinaryOp.or.isComparison = false := rfl
  exact ⟨by simp [natural, shift, comparison, left.1, right.1, joinWidths],
    by simp [fitted, shift, comparison, left.1, right.1, left.2, right.2, pairWidths]⟩

theorem fixed_mux {c t f : Expr} {width : Nat} (n : Nat) (condition : c.Fixed d 1)
    (whenTrue : t.Fixed d width) (whenFalse : f.Fixed d width) :
    (Expr.mux n c t f).Fixed d width :=
  ⟨by simp [natural, whenTrue.1, whenFalse.1, joinWidths],
    by simp [fitted, condition.1, condition.2, whenTrue.1, whenFalse.1, whenTrue.2, whenFalse.2,
      pairWidths]⟩

theorem fixed_piece {e : Expr} {total low width : Nat} (fixed : e.Fixed d total)
    (inside : low + width ≤ total) : (piece e low width).Fixed d width := by
  unfold piece
  split
  · rename_i none
    subst none
    exact fixed_literal 0 (.zeros 0)
  · rename_i some
    have ordered : ¬(low + width - 1 < low ∨ total ≤ low + width - 1) := by omega
    have count : low + width - 1 - low + 1 = width := by omega
    exact ⟨by simp [natural, count],
      by simp only [fitted, needed_some.mpr fixed.1, fixed.2, ordered, count, if_false,
        Option.bind_eq_bind, Option.bind_some, pure]⟩

theorem fixed_slices {e : Expr} {parts : List (LeafId × Nat)} {total low : Nat}
    (fixed : e.Fixed d total) (inside : low + (parts.map Prod.snd).sum ≤ total) :
    List.Forall₂ (fun p part => p.1 = part.1 ∧ p.2.Fixed d part.2) (plainSlices e low parts) parts := by
  induction parts generalizing low with
  | nil => exact .nil
  | cons part rest ih =>
    simp only [List.map_cons, List.sum_cons] at inside
    exact .cons ⟨rfl, fixed_piece fixed (by omega)⟩ (ih (by omega))

/-- Every part of an expression that can be sized has a known width or is known to have none. -/
theorem fitted_known (e : Expr) : ∀ {t : Expr} {width tw : Nat}, e.fitted d width = some (t, tw) →
    (e.natural d).isSome → e.All fun n => (n.natural d).isSome := by
  induction e using operand_induction with
  | step e ih =>
    intro t width tw done own
    cases sized : e.integer? with
    | some value =>
      cases e <;> simp only [integer?, reduceCtorEq] at sized
      exact all_iff.mpr ⟨own, by simp [children]⟩
    | none =>
      obtain ⟨rs, -, operands⟩ := fitted_operands (fit_step done) sized
      refine all_iff.mpr ⟨own, fun a member => ?_⟩
      obtain ⟨r, -, ⟨w, rw, fits⟩, known⟩ := forall₂_left operands a member
      exact ih a member fits (known own)

/-- Whatever holds of integers anyway, and of every node of a sized expression, holds of every node
    before. -/
theorem all_unfitted {p : Expr → Prop} (integers : ∀ n value, p (.integer n value))
    (parents : ∀ e : Expr, e.isAtom = false → p e) (e : Expr) :
    ∀ {t : Expr} {width tw : Nat}, e.fitted d width = some (t, tw) → t.All p → e.All p := by
  induction e using operand_induction with
  | step e ih =>
    intro t width tw done every
    cases sized : e.integer? with
    | some value =>
      cases e <;> simp only [integer?, reduceCtorEq] at sized
      exact all_iff.mpr ⟨integers _ _, by simp [children]⟩
    | none =>
      obtain ⟨rs, rfl, operands⟩ := fitted_operands (fit_step done) sized
      cases atom : e.isAtom with
      | true =>
        have leaf := isAtom_iff atom
        have none : rs = [] := by simpa [leaf] using operands
        have same : e.withChildren e.node rs = e := by
          subst none
          cases e <;> simp_all [children, withChildren, isAtom]
        exact same ▸ every
      | false =>
        refine all_iff.mpr ⟨parents e atom, fun a member => ?_⟩
        obtain ⟨r, listed, ⟨w, rw, fits⟩, -⟩ := forall₂_left operands a member
        refine ih a member fits ((all_iff.mp every).2 r ?_)
        rw [withChildren_operands operands.length_eq.symm]
        exact listed

theorem joinWidths_some {own own' : Option Nat} (first : own.isSome) (second : own'.isSome) :
    (joinWidths own own').isSome := by
  cases own <;> cases own' <;> simp_all [joinWidths]

/-- Without integers, what has a known width or none has one. -/
theorem natural_width (e : Expr) : ∀ {own : Option Nat}, e.Integerless → e.natural d = some own →
    own.isSome := by
  induction e using operand_induction with
  | step e ih =>
    intro own free known
    have operand : ∀ a ∈ e.children, ∀ {own}, a.natural d = some own → own.isSome :=
      fun a member _ known => ih a member ((all_iff.mp free).2 a member) known
    cases e with
    | integer => cases (all_iff.mp free).1
    | signal | read | unassigned | concat =>
      obtain ⟨w, -, same⟩ := Option.bind_eq_some_iff.mp known
      exact Option.some.inj same ▸ rfl
    | literal | slice | extend | caseMatch => exact Option.some.inj known ▸ rfl
    | unary n op a =>
      simp only [natural] at known
      split at known
      · exact Option.some.inj known ▸ rfl
      · exact operand a (by simp [children]) known
    | binary n op a b =>
      simp only [natural, Option.bind_eq_bind, Option.pure_def] at known
      split at known
      · exact Option.some.inj known ▸ rfl
      · split at known
        · exact operand a (by simp [children]) known
        · obtain ⟨first, here, known⟩ := Option.bind_eq_some_iff.mp known
          obtain ⟨second, there, same⟩ := Option.bind_eq_some_iff.mp known
          rw [← Option.some.inj same]
          exact joinWidths_some (operand a (by simp [children]) here)
            (operand b (by simp [children]) there)
    | mux n c t f =>
      obtain ⟨first, here, known⟩ := Option.bind_eq_some_iff.mp known
      obtain ⟨second, there, same⟩ := Option.bind_eq_some_iff.mp known
      rw [← Option.some.inj same]
      exact joinWidths_some (operand t (by simp [children]) here)
        (operand f (by simp [children]) there)

section

variable {answer : Ref → Expr}

theorem naturals_subst {es : List Expr} {total : Nat}
    (each : ∀ a ∈ es, ∀ {own}, a.natural d = some own → (a.subst answer).natural d = some own)
    (known : naturals d es = some total) : naturals d (es.map (subst answer)) = some total := by
  induction es generalizing total with
  | nil => exact known
  | cons e rest ih =>
    simp only [naturals, Option.bind_eq_bind, Option.bind_eq_some_iff] at known
    obtain ⟨own, here, known⟩ := known
    cases own with
    | none => cases known
    | some width =>
      obtain ⟨total', later, same⟩ := Option.bind_eq_some_iff.mp known
      simp only [List.map_cons, naturals, each e (by simp) here,
        ih (fun a member => each a (by simp [member])) later]
      exact same

/-- Widths stay what they were where each read is replaced by something of its width. -/
theorem natural_subst (answers : ∀ target width, d target = some width →
    (answer target).natural d = some (some width)) (e : Expr) :
    ∀ {own : Option Nat}, e.natural d = some own → (e.subst answer).natural d = some own := by
  induction e using operand_induction with
  | step e ih =>
    intro own known
    cases e with
    | signal | literal | integer | unassigned | caseMatch | slice | extend => exact known
    | read n target =>
      obtain ⟨width, found, same⟩ := Option.bind_eq_some_iff.mp known
      rw [subst, natural_shape, answers target width found]
      exact same
    | unary n op a =>
      simp only [subst, natural] at known ⊢
      split
      · simpa [*] using known
      · exact ih a (by simp [children]) (by simpa [*] using known)
    | binary n op a b =>
      simp only [subst, natural, Option.bind_eq_bind, Option.pure_def] at known ⊢
      split
      · simpa [*] using known
      · split
        · exact ih a (by simp [children]) (by simpa [*] using known)
        · simp only [*, Bool.false_eq_true, ↓reduceIte, Option.bind_eq_some_iff] at known
          obtain ⟨first, here, second, there, same⟩ := known
          simp only [ih a (by simp [children]) here, ih b (by simp [children]) there,
            Option.bind_some]
          exact same
    | mux n c t f =>
      simp only [subst, natural, Option.bind_eq_bind, Option.bind_eq_some_iff] at known ⊢
      obtain ⟨first, here, second, there, same⟩ := known
      exact ⟨first, ih t (by simp [children]) here, second, ih f (by simp [children]) there, same⟩
    | concat n parts =>
      obtain ⟨total, found, same⟩ := Option.bind_eq_some_iff.mp known
      simp only [subst, substAll_eq_map, natural]
      rw [naturals_subst (fun a member _ known => ih a (by simpa [children] using member) known)
        found]
      exact same

/-- What it takes for the replaced form of an expression to be sized as the expression is. -/
def Keeps (d : Ref → Option Nat) (answer : Ref → Expr) (e : Expr) : Prop :=
  ∀ {width tw : Nat}, e.natural d = some (some width) → e.fitted d width = some (e, tw) →
    (e.subst answer).fitted d width = some (e.subst answer, tw)

theorem parts_subst {rs : List Expr} {fitted : List (Expr × Nat)}
    (answers : ∀ target width, d target = some width →
      (answer target).natural d = some (some width))
    (keeps : ∀ a ∈ rs, Keeps d answer a) (each : List.Forall₂ (OperandFits d) rs fitted)
    (same : fitted.map Prod.fst = rs) : fittedParts d (rs.map (subst answer)) =
      some (rs.map (subst answer), (fitted.map Prod.snd).sum) := by
  induction each with
  | nil => rfl
  | @cons a r rest rs first _ ih =>
    obtain ⟨width, own, done⟩ := first
    obtain ⟨t, tw⟩ := r
    simp only [List.map_cons, List.cons.injEq] at same
    obtain ⟨rfl, same⟩ := same
    have needed : (t.subst answer).needed d = some width :=
      needed_some.mpr (natural_subst answers t own)
    simp [fittedParts, needed, keeps t (by simp) own done,
      ih (fun b member => keeps b (by simp [member])) same]

theorem fitted_subst (answers : ∀ target width, d target = some width →
    (answer target).Fixed d width) (e : Expr) : e.Integerless → Keeps d answer e := by
  induction e using operand_induction with
  | step e ih =>
    intro free width tw own done
    have naturals : ∀ (a : Expr) (own : Option Nat), a.natural d = some own →
        (a.subst answer).natural d = some own := fun a own known =>
      natural_subst (fun target width here => (answers target width here).1) a known
    have keeps : ∀ a ∈ e.children, Keeps d answer a :=
      fun a member => ih a member ((all_iff.mp free).2 a member)
    have widths : ∀ a ∈ e.children, ∀ {own}, a.natural d = some own → ∃ w, own = some w :=
      fun a member _ known => Option.isSome_iff_exists.mp
        (natural_width a ((all_iff.mp free).2 a member) known)
    cases e with
    | integer => cases (all_iff.mp free).1
    | signal | literal | unassigned =>
      obtain ⟨-, rfl⟩ := Prod.mk.inj (Option.some.inj done)
      rfl
    | read n target =>
      obtain ⟨-, rfl⟩ := Prod.mk.inj (Option.some.inj done)
      obtain ⟨m, found, same⟩ := Option.bind_eq_some_iff.mp own
      obtain rfl := Option.some.inj (Option.some.inj same)
      rw [subst, fitted_shape, (answers target m found).2]
      rfl
    | unary n op a =>
      cases fit_step done with
      | atom _ leaf => cases leaf
      | reduction reduces operand =>
        obtain ⟨w, found, fits⟩ := operand
        simp [subst, fitted, reduces, needed_some.mpr (naturals a _ found),
          keeps a (by simp [children]) found fits]
      | unary same operand =>
        have found : a.natural d = some (some width) := by simpa [natural, same] using own
        simp [subst, fitted, same, keeps a (by simp [children]) found operand]
    | binary n op a b =>
      cases fit_step done with
      | atom _ leaf => cases leaf
      | shift shifts left amount right =>
        have single : op.isComparison = false := by
          cases op <;> simp_all [BinaryOp.isShift, BinaryOp.isComparison]
        have found : a.natural d = some (some width) := by simpa [natural, single, shifts] using own
        obtain ⟨m, rfl⟩ := widths b (by simp [children]) amount
        simp [subst, fitted, shifts, keeps a (by simp [children]) found left, naturals b _ amount,
          keeps b (by simp [children]) amount right]
      | pair pairs first second left right fits =>
        obtain ⟨m, rfl⟩ := widths a (by simp [children]) first
        obtain ⟨m', rfl⟩ := widths b (by simp [children]) second
        simp [subst, fitted, pairs, naturals a _ first, naturals b _ second, pairWidths,
          keeps a (by simp [children]) first left, keeps b (by simp [children]) second right]
        omega
    | mux n c t f =>
      cases fit_step done with
      | atom _ leaf => cases leaf
      | mux condition first second single left right =>
        obtain ⟨m₀, rfl⟩ := widths c (by simp [children]) condition
        obtain ⟨m, rfl⟩ := widths t (by simp [children]) first
        obtain ⟨m', rfl⟩ := widths f (by simp [children]) second
        simp [subst, fitted, naturals c _ condition, naturals t _ first, naturals f _ second,
          pairWidths, keeps c (by simp [children]) condition single,
          keeps t (by simp [children]) first left, keeps f (by simp [children]) second right]
    | concat n parts =>
      obtain ⟨⟨rs, total⟩, parted, same⟩ := Option.bind_eq_some_iff.mp done
      obtain ⟨form, rfl⟩ := Prod.mk.inj (Option.some.inj same)
      obtain ⟨-, rfl⟩ := concat.inj form
      obtain ⟨fitted, each, back, rfl⟩ := fittedParts_some parted
      have again : fittedParts d (rs.map (subst answer)) = _ :=
        parts_subst (fun target width known => (answers target width known).1) keeps each back
      simp [subst, Expr.fitted, again]
    | slice n a high low =>
      cases fit_step done with
      | atom _ leaf => cases leaf
      | @slice _ _ _ _ own _ _ _ found ordered inside operand =>
        have cut : ¬(high < low ∨ own ≤ high) := by omega
        simp [subst, fitted, needed_some.mpr (naturals a _ found), cut,
          keeps a (by simp [children]) found operand]
    | extend n a target signed =>
      cases fit_step done with
      | atom _ leaf => cases leaf
      | extend found wide operand =>
        obtain ⟨m, rfl⟩ := widths a (by simp [children]) found
        simp [subst, fitted, naturals a _ found, keeps a (by simp [children]) found operand]
        exact wide
    | caseMatch n s p wildcard =>
      cases fit_step done with
      | atom _ leaf => cases leaf
      | caseMatch first second left right =>
        obtain ⟨m, rfl⟩ := widths s (by simp [children]) first
        obtain ⟨m', rfl⟩ := widths p (by simp [children]) second
        simp [subst, fitted, naturals s _ first, naturals p _ second, pairWidths,
          keeps s (by simp [children]) first left, keeps p (by simp [children]) second right]

/-- An expression that is sized already stays so. -/
theorem fixed_subst (answers : ∀ target width, d target = some width →
    (answer target).Fixed d width) {e : Expr} {width : Nat} (fixed : e.Fixed d width) :
    (e.subst answer).Fixed d width :=
  ⟨natural_subst (fun target width known => (answers target width known).1) e fixed.1,
    fitted_subst answers e (fixed_integerless fixed) fixed.1 fixed.2⟩

end

end CombLogic
