import CombLogic.Netlist.Sizing
import CombLogic.Proofs.Numbering

/- Sizing without memos and without new nodes, given the declared width of every target. The sizing
   of a netlist succeeds exactly where plain sizing does, with an expression of the same shape and
   the same width, and hands back the very node if there is no integer in it. -/
namespace CombLogic

open Expr Sizing

mutual

/-- The width that an expression has by itself, if it has one. -/
def Expr.natural (declared : Ref → Option Nat) : Expr → Option (Option Nat)
  | .signal _ leaf | .unassigned _ leaf => do return some (← declared (.leaf leaf))
  | .read _ target => do return some (← declared target)
  | .literal _ value => some (some value.width)
  | .integer .. => some none
  | .unary _ op a => if op.isReduction then some (some 1) else natural declared a
  | .binary _ op a b =>
    if op.isComparison then some (some 1)
    else if op.isShift then natural declared a
    else do return joinWidths (← natural declared a) (← natural declared b)
  | .mux _ _ t f => do return joinWidths (← natural declared t) (← natural declared f)
  | .concat _ parts => do return some (← naturals declared parts)
  | .slice _ _ high low => some (some (high - low + 1))
  | .extend _ _ width _ => some (some width)
  | .caseMatch .. => some (some 1)

def Expr.naturals (declared : Ref → Option Nat) : List Expr → Option Nat
  | [] => some 0
  | e :: rest => do
    match ← natural declared e with
    | some width => return width + (← naturals declared rest)
    | none => none

end

/-- The width of an operand that cannot take one from its context. -/
def Expr.needed (declared : Ref → Option Nat) (e : Expr) : Option Nat := do
  match ← e.natural declared with
  | some width => return width
  | none => none

mutual

/-- The sized form of an expression for a width, and the width that it has. -/
def Expr.fitted (declared : Ref → Option Nat) : Expr → Nat → Option (Expr × Nat)
  | e@(.signal ..), width | e@(.unassigned ..), width | e@(.read ..), width
  | e@(.literal ..), width => some (e, width)
  | .integer n value, width => some (.literal n (.ofInt width value), width)
  | .unary n op a, width =>
    if op.isReduction then do
      let (a, _) ← fitted declared a (← a.needed declared)
      return (.unary n op a, 1)
    else do
      let (a, w) ← fitted declared a width
      return (.unary n op a, w)
  | .binary n op a b, width =>
    if op.isShift then do
      let (a, w) ← fitted declared a width
      let (b, _) ← fitted declared b ((← b.natural declared).getD b.leastWidth)
      return (.binary n op a b, w)
    else do
      let widths := pairWidths a b (if op.isComparison then 0 else width)
        (← a.natural declared) (← b.natural declared)
      let (a, aw) ← fitted declared a widths.1
      let (b, bw) ← fitted declared b widths.2
      if aw ≠ bw ∧ aw ≠ 1 ∧ bw ≠ 1 then none
      else return (.binary n op a b, if op.isComparison then 1 else max aw bw)
  | .mux n c t f, width => do
    let (c, cw) ← fitted declared c ((← c.natural declared).getD 1)
    if cw ≠ 1 then none
    else do
      let widths := pairWidths t f width (← t.natural declared) (← f.natural declared)
      let (t, tw) ← fitted declared t widths.1
      let (f, fw) ← fitted declared f widths.2
      if tw ≠ fw then none else return (.mux n c t f, tw)
  | .concat n parts, _ => do
    let (parts, total) ← fittedParts declared parts
    return (.concat n parts, total)
  | .slice n a high low, _ => do
    let width ← a.needed declared
    if high < low ∨ width ≤ high then none
    else do
      let (a, _) ← fitted declared a width
      return (.slice n a high low, high - low + 1)
  | .extend n a target signed, _ => do
    let width := (← a.natural declared).getD target
    if target < width then none
    else do
      let (a, _) ← fitted declared a width
      return (.extend n a target signed, target)
  | .caseMatch n s p wildcard, _ => do
    let widths := pairWidths s p 0 (← s.natural declared) (← p.natural declared)
    let (s, sw) ← fitted declared s widths.1
    let (p, pw) ← fitted declared p widths.2
    if sw ≠ pw then none else return (.caseMatch n s p wildcard, 1)

def Expr.fittedParts (declared : Ref → Option Nat) : List Expr → Option (List Expr × Nat)
  | [] => some ([], 0)
  | e :: rest => do
    let (e, width) ← fitted declared e (← e.needed declared)
    let (rest, total) ← fittedParts declared rest
    return (e :: rest, width + total)

end

/-- The sized form for a context, or for the least fitting width if there is none. -/
def Expr.sized (declared : Ref → Option Nat) (e : Expr) (context : Option Nat) :
    Option (Expr × Nat) := do
  match ← e.natural declared with
  | some width => e.fitted declared width
  | none => e.fitted declared (context.getD e.leastWidth)

/-- The width that a netlist declares for a target. -/
def Netlist.declared (g : Netlist) (target : Ref) : Option Nat := (g.widthOf target).toOption

section

variable {d : Ref → Option Nat}

theorem naturals_shapes {es : List Expr}
    (same : ∀ a ∈ es, a.shape.natural d = a.natural d) :
    naturals d (es.map shape) = naturals d es := by
  induction es with
  | nil => rfl
  | cons e rest ih =>
    simp only [List.map_cons, naturals, same e (by simp),
      ih fun a later => same a (by simp [later])]

theorem natural_shape (e : Expr) : e.shape.natural d = e.natural d := by
  induction e using operand_induction with
  | step e ih =>
    cases e with
    | signal | literal | integer | read | unassigned | caseMatch | slice | extend => rfl
    | unary _ _ a => simp only [shape, natural, ih a (by simp [children])]
    | binary _ _ a b =>
      simp only [shape, natural, ih a (by simp [children]), ih b (by simp [children])]
    | mux _ _ t f => simp only [shape, natural, ih t (by simp [children]), ih f (by simp [children])]
    | concat _ parts =>
      simp only [shape, natural, shapes_eq_map, naturals_shapes fun a member =>
        ih a (by simpa [children] using member)]

theorem leastWidth_shape (e : Expr) : e.shape.leastWidth = e.leastWidth := by
  induction e using operand_induction with
  | step e ih =>
    cases e with
    | signal | literal | integer | read | unassigned | caseMatch | slice | extend | concat => rfl
    | unary _ _ a => simp only [shape, leastWidth, ih a (by simp [children])]
    | binary _ _ a b =>
      simp only [shape, leastWidth, ih a (by simp [children]), ih b (by simp [children])]
    | mux _ _ t f =>
      simp only [shape, leastWidth, ih t (by simp [children]), ih f (by simp [children])]

/-- The shape of a sized expression, and its width. -/
def formOf (t : Expr × Nat) : Expr × Nat := (t.1.shape, t.2)

theorem needed_shape (e : Expr) : e.shape.needed d = e.needed d := by
  simp only [needed, natural_shape]

theorem pairWidths_shape (a b : Expr) (width : Nat) (own own' : Option Nat) :
    pairWidths a.shape b.shape width own own' = pairWidths a b width own own' := by
  cases own <;> cases own' <;> simp only [pairWidths, leastWidth_shape]

theorem bind_form {α α' β β' : Type} {f : α → α'} {g : β → β'} {x : Option α} {x' : Option α'}
    {k : α → Option β} {k' : α' → Option β'} (first : x' = x.map f)
    (rest : ∀ a, k' (f a) = (k a).map g) : (x' >>= k') = (x >>= k).map g := by
  subst first
  cases x <;> simp [rest]

theorem bind_same {α β β' : Type} {g : β → β'} {x : Option α} {k : α → Option β}
    {k' : α → Option β'} (rest : ∀ a, k' a = (k a).map g) : (x >>= k') = (x >>= k).map g := by
  cases x <;> simp [rest]

theorem if_form {α β : Type} {g : α → β} {c : Prop} [Decidable c] {x : Option α} {x' : Option β}
    (rest : x' = x.map g) : (if c then none else x') = (if c then none else x).map g := by
  split
  · rfl
  · exact rest

theorem fittedParts_shape {es : List Expr} (same : ∀ a ∈ es, ∀ width,
    a.shape.fitted d width = (a.fitted d width).map formOf) :
    fittedParts d (es.map shape) = (fittedParts d es).map fun t => (t.1.map shape, t.2) := by
  induction es with
  | nil => rfl
  | cons e rest ih =>
    simp only [List.map_cons, fittedParts, needed_shape]
    refine bind_same fun width => ?_
    refine bind_form (same e (by simp) width) fun t => ?_
    exact bind_form (ih fun a later => same a (by simp [later])) fun ts => rfl

/-- Sizing does not look at node numbers. -/
theorem fitted_shape (e : Expr) : ∀ width,
    e.shape.fitted d width = (e.fitted d width).map formOf := by
  induction e using operand_induction with
  | step e ih =>
    intro width
    cases e with
    | signal | literal | integer | read | unassigned => rfl
    | unary _ op a =>
      have operand := ih a (by simp [children])
      simp only [shape, fitted, needed_shape]
      split
      · exact bind_same fun w => bind_form (operand w) fun t => rfl
      · exact bind_form (operand width) fun t => rfl
    | binary _ op a b =>
      have left := ih a (by simp [children])
      have right := ih b (by simp [children])
      simp only [shape, fitted, natural_shape, leastWidth_shape, pairWidths_shape]
      split
      · refine bind_form (left width) fun t => bind_same fun own => ?_
        exact bind_form (right _) fun t' => rfl
      · refine bind_same fun own => bind_same fun own' => ?_
        exact bind_form (left _) fun t => bind_form (right _) fun t' => if_form rfl
    | mux _ c t f =>
      have condition := ih c (by simp [children])
      have left := ih t (by simp [children])
      have right := ih f (by simp [children])
      simp only [shape, fitted, natural_shape, pairWidths_shape]
      refine bind_same fun own => bind_form (condition _) fun r => ?_
      refine if_form (bind_same fun own => bind_same fun own' => ?_)
      exact bind_form (left _) fun t => bind_form (right _) fun t' => if_form rfl
    | concat _ parts =>
      simp only [shape, fitted, shapes_eq_map]
      refine bind_form (fittedParts_shape fun a operand => ih a operand) fun t => ?_
      simp [formOf, shape]
    | slice _ a high low =>
      have operand := ih a (by simp [children])
      simp only [shape, fitted, needed_shape]
      exact bind_same fun own => if_form (bind_form (operand _) fun t => rfl)
    | extend _ a target signed =>
      have operand := ih a (by simp [children])
      simp only [shape, fitted, natural_shape]
      exact bind_same fun own => if_form (bind_form (operand _) fun t => rfl)
    | caseMatch _ s p wildcard =>
      have left := ih s (by simp [children])
      have right := ih p (by simp [children])
      simp only [shape, fitted, natural_shape, pairWidths_shape]
      refine bind_same fun own => bind_same fun own' => ?_
      exact bind_form (left _) fun t => bind_form (right _) fun t' => if_form rfl

theorem sized_shape (e : Expr) (context : Option Nat) :
    e.shape.sized d context = (e.sized d context).map formOf := by
  simp only [sized, natural_shape, leastWidth_shape]
  refine bind_same fun own => ?_
  cases own <;> exact fitted_shape e _

/-- Expressions of one shape are sized to expressions of one shape. -/
theorem sized_alike {a b : Expr} (alike : a.shape = b.shape) (context : Option Nat) :
    (a.sized d context).map formOf = (b.sized d context).map formOf := by
  rw [← sized_shape, alike, sized_shape]

end

end CombLogic
