import CombLogic.Proofs.Sizing.Sized
import CombLogic.Proofs.Width.Value

/- Widths of sized expressions. Sizing and evaluation give every form of expression its width by the
   same rule but for two points: the width of a pair of which one operand has no bits and the other
   one bit, and the extension of an operand to fewer bits than it has. -/
namespace CombLogic

open Expr Sizing

structure WidthRule where
  /-- The width of two operands brought to one width. -/
  joined : Nat → Nat → Nat
  /-- Whether an operand of a width can be extended to another one. -/
  extends? : Nat → Nat → Bool

namespace WidthRule

def sizing : WidthRule := ⟨max, fun _ _ => true⟩

def evaluation : WidthRule := ⟨alignedWidth, fun width target => width ≤ target⟩

@[simp] theorem sizing_joined (m n : Nat) : sizing.joined m n = max m n := rfl

@[simp] theorem sizing_extends (width target : Nat) : sizing.extends? width target = true := rfl

@[simp] theorem evaluation_joined (m n : Nat) : evaluation.joined m n = alignedWidth m n := rfl

@[simp] theorem evaluation_extends (width target : Nat) :
    evaluation.extends? width target = decide (width ≤ target) := rfl

end WidthRule

mutual

def Expr.widthBy (rule : WidthRule) (d : Ref → Option Nat) : Expr → Option Nat
  | .signal _ leaf => d (.leaf leaf)
  | .literal _ value => some value.width
  | .integer .. | .read .. | .unassigned .. => none
  | .unary _ op a => do
    let width ← widthBy rule d a
    return if op.isReduction then 1 else width
  | .binary _ op a b => do
    let m ← widthBy rule d a
    let n ← widthBy rule d b
    if op.isShift then some m
    else if Alignable m n then some (if op.isComparison then 1 else rule.joined m n)
    else none
  | .mux _ c t f => do
    let bit ← widthBy rule d c
    let m ← widthBy rule d t
    let n ← widthBy rule d f
    if bit = 1 ∧ m = n then some m else none
  | .concat _ parts => widthsBy rule d parts
  | .slice _ a high low => do
    let width ← widthBy rule d a
    if low ≤ high ∧ high < width then some (high - low + 1) else none
  | .extend _ a target _ => do
    let width ← widthBy rule d a
    if rule.extends? width target then some target else none
  | .caseMatch _ s p _ => do
    let m ← widthBy rule d s
    let n ← widthBy rule d p
    if m = n then some 1 else none

def Expr.widthsBy (rule : WidthRule) (d : Ref → Option Nat) : List Expr → Option Nat
  | [] => some 0
  | e :: rest => do return (← widthBy rule d e) + (← widthsBy rule d rest)

end

section

variable {rule : WidthRule} {d d' : Ref → Option Nat}

theorem widthsBy_map {f : Expr → Expr} {es : List Expr}
    (same : ∀ a ∈ es, (f a).widthBy rule d = a.widthBy rule d') :
    widthsBy rule d (es.map f) = widthsBy rule d' es := by
  induction es with
  | nil => rfl
  | cons e rest ih =>
    have head := same e (by simp)
    have tail := ih fun a later => same a (by simp [later])
    simp only [List.map_cons, widthsBy, head, tail]

theorem widthBy_shape (e : Expr) : e.shape.widthBy rule d = e.widthBy rule d := by
  induction e using operand_induction with
  | step e ih =>
    cases e with
    | signal | literal | integer | read | unassigned => rfl
    | unary _ _ a | slice _ a | extend _ a =>
      simp only [shape, widthBy, ih a (by simp [children])]
    | binary _ _ a b | caseMatch _ a b =>
      simp only [shape, widthBy, ih a (by simp [children]), ih b (by simp [children])]
    | mux _ c t f =>
      simp only [shape, widthBy, ih c (by simp [children]), ih t (by simp [children]),
        ih f (by simp [children])]
    | concat _ parts =>
      simp only [shape, widthBy, shapes_eq_map,
        widthsBy_map fun a operand => ih a (by simpa [children] using operand)]

theorem widthBy_alike {a b : Expr} (alike : a.shape = b.shape) :
    a.widthBy rule d = b.widthBy rule d := by
  rw [← widthBy_shape, alike, widthBy_shape]

/-- Only the leaves that an expression reads matter for its width. -/
theorem widthBy_congr (e : Expr)
    (declared : ∀ leaf, e.Reads leaf → d (.leaf leaf) = d' (.leaf leaf)) :
    e.widthBy rule d = e.widthBy rule d' := by
  induction e using operand_induction with
  | step e ih =>
    have operand : ∀ a ∈ e.children, a.widthBy rule d = a.widthBy rule d' :=
      fun a member => ih a member fun leaf ⟨node, inside⟩ =>
        declared leaf ⟨node, .within member inside⟩
    cases e with
    | signal node leaf => exact declared leaf ⟨node, .root _⟩
    | literal | integer | read | unassigned => rfl
    | unary _ _ a | slice _ a | extend _ a => simp only [widthBy, operand a (by simp [children])]
    | binary _ _ a b | caseMatch _ a b =>
      simp only [widthBy, operand a (by simp [children]), operand b (by simp [children])]
    | mux _ c t f =>
      simp only [widthBy, operand c (by simp [children]), operand t (by simp [children]),
        operand f (by simp [children])]
    | concat _ parts =>
      have same : widthsBy rule d (parts.map id) = widthsBy rule d' parts := widthsBy_map operand
      rw [List.map_id] at same
      simp only [widthBy, same]

/-- How the width of an expression comes from the widths of its operands. -/
inductive Widths (rule : WidthRule) (d : Ref → Option Nat) : Expr → Nat → Prop where
  | signal {n : Nat} {leaf : LeafId} {w : Nat} (declared : d (.leaf leaf) = some w) :
      Widths rule d (.signal n leaf) w
  | literal {n : Nat} {v : Value} : Widths rule d (.literal n v) v.width
  | unary {n : Nat} {op : UnaryOp} {a : Expr} {w : Nat} (operand : a.widthBy rule d = some w) :
      Widths rule d (.unary n op a) (if op.isReduction then 1 else w)
  | shift {n : Nat} {op : BinaryOp} {a b : Expr} {w w' : Nat} (shifts : op.isShift = true)
      (left : a.widthBy rule d = some w) (right : b.widthBy rule d = some w') :
      Widths rule d (.binary n op a b) w
  | pair {n : Nat} {op : BinaryOp} {a b : Expr} {w w' : Nat} (pairs : op.isShift = false)
      (left : a.widthBy rule d = some w) (right : b.widthBy rule d = some w')
      (fits : Alignable w w') :
      Widths rule d (.binary n op a b) (if op.isComparison then 1 else rule.joined w w')
  | mux {n : Nat} {c t f : Expr} {w : Nat} (condition : c.widthBy rule d = some 1)
      (left : t.widthBy rule d = some w) (right : f.widthBy rule d = some w) :
      Widths rule d (.mux n c t f) w
  | concat {n : Nat} {parts : List Expr} {ws : List Nat}
      (each : List.Forall₂ (fun a w => a.widthBy rule d = some w) parts ws) :
      Widths rule d (.concat n parts) ws.sum
  | slice {n : Nat} {a : Expr} {high low w : Nat} (operand : a.widthBy rule d = some w)
      (ordered : low ≤ high) (inside : high < w) :
      Widths rule d (.slice n a high low) (high - low + 1)
  | extend {n : Nat} {a : Expr} {target w : Nat} {signed : Bool}
      (operand : a.widthBy rule d = some w) (fits : rule.extends? w target = true) :
      Widths rule d (.extend n a target signed) target
  | caseMatch {n : Nat} {s p : Expr} {w : Nat} {wildcard : Bool}
      (left : s.widthBy rule d = some w) (right : p.widthBy rule d = some w) :
      Widths rule d (.caseMatch n s p wildcard) 1

theorem widthsBy_some {es : List Expr} {total : Nat} (found : widthsBy rule d es = some total) :
    ∃ ws, List.Forall₂ (fun a w => a.widthBy rule d = some w) es ws ∧ ws.sum = total := by
  induction es generalizing total with
  | nil => exact ⟨[], .nil, Option.some.inj found⟩
  | cons e rest ih =>
    simp only [widthsBy, Option.bind_eq_bind, Option.bind_eq_some_iff, Option.pure_def,
      Option.some.injEq] at found
    obtain ⟨w, head, total', tail, rfl⟩ := found
    obtain ⟨ws, each, rfl⟩ := ih tail
    exact ⟨w :: ws, .cons head each, rfl⟩

theorem widthBy_widths {e : Expr} {width : Nat} (found : e.widthBy rule d = some width) :
    Widths rule d e width := by
  cases e with
  | signal => exact .signal found
  | literal =>
    cases found
    exact .literal
  | integer | read | unassigned => cases found
  | unary _ op a =>
    obtain ⟨w, here, done⟩ := Option.bind_eq_some_iff.mp found
    cases done
    exact .unary here
  | binary _ op a b =>
    obtain ⟨w, left, found⟩ := Option.bind_eq_some_iff.mp found
    obtain ⟨w', right, done⟩ := Option.bind_eq_some_iff.mp found
    split at done
    · rename_i shifts
      cases done
      exact .shift shifts left right
    · rename_i pairs
      split at done
      · rename_i fits
        cases done
        exact .pair (by simpa using pairs) left right fits
      · cases done
  | mux _ c t f =>
    obtain ⟨bit, condition, found⟩ := Option.bind_eq_some_iff.mp found
    obtain ⟨w, left, found⟩ := Option.bind_eq_some_iff.mp found
    obtain ⟨w', right, done⟩ := Option.bind_eq_some_iff.mp found
    split at done
    · rename_i same
      obtain ⟨rfl, rfl⟩ := same
      cases done
      exact .mux condition left right
    · cases done
  | concat _ parts =>
    obtain ⟨ws, each, rfl⟩ := widthsBy_some found
    exact .concat each
  | slice _ a high low =>
    obtain ⟨w, here, done⟩ := Option.bind_eq_some_iff.mp found
    split at done
    · rename_i fits
      cases done
      exact .slice here fits.1 fits.2
    · cases done
  | extend _ a target signed =>
    obtain ⟨w, here, done⟩ := Option.bind_eq_some_iff.mp found
    split at done
    · rename_i fits
      cases done
      exact .extend here fits
    · cases done
  | caseMatch _ s p wildcard =>
    obtain ⟨w, left, found⟩ := Option.bind_eq_some_iff.mp found
    obtain ⟨w', right, done⟩ := Option.bind_eq_some_iff.mp found
    split at done
    · rename_i same
      subst same
      cases done
      exact .caseMatch left right
    · cases done

theorem widthBy_operand {e a : Expr} (found : (e.widthBy rule d).isSome) (operand : a ∈ e.children) :
    (a.widthBy rule d).isSome := by
  obtain ⟨width, found⟩ := Option.isSome_iff_exists.mp found
  cases widthBy_widths found with
  | signal | literal => simp [children] at operand
  | unary here | slice here | extend here =>
    obtain rfl := List.mem_singleton.mp operand
    exact Option.isSome_of_eq_some here
  | shift _ left right | pair _ left right | caseMatch left right =>
    rcases List.mem_pair.mp operand with rfl | rfl
    · exact Option.isSome_of_eq_some left
    · exact Option.isSome_of_eq_some right
  | mux condition left right =>
    rcases List.mem_cons.mp operand with rfl | later
    · exact Option.isSome_of_eq_some condition
    · rcases List.mem_pair.mp later with rfl | rfl
      · exact Option.isSome_of_eq_some left
      · exact Option.isSome_of_eq_some right
  | concat each =>
    obtain ⟨w, -, here⟩ := forall₂_left each a operand
    exact Option.isSome_of_eq_some here

/-- Every node of an expression with a width has a width. -/
theorem widthBy_contained {e n : Expr} (inside : e.Contains n) (found : (e.widthBy rule d).isSome) :
    (n.widthBy rule d).isSome := by
  induction inside with
  | root => exact found
  | within operand _ ih => exact ih (widthBy_operand found operand)

theorem reads_declared {e : Expr} (found : (e.widthBy rule d).isSome) {leaf : LeafId}
    (read : e.Reads leaf) : (d (.leaf leaf)).isSome := by
  obtain ⟨node, inside⟩ := read
  exact widthBy_contained inside found

end

section

variable {d : Ref → Option Nat}

/-- The width for which an operand is sized is its natural one if it has one. -/
def Suits (own : Option Nat) (width : Nat) : Prop := ∀ m, own = some m → m = width

theorem suits_getD (own : Option Nat) (width : Nat) : Suits own (own.getD width) := by
  rintro m rfl
  rfl

theorem suits_pair (a b : Expr) (context : Nat) (own own' : Option Nat) :
    Suits own (pairWidths a b context own own').1 ∧
      Suits own' (pairWidths a b context own own').2 := by
  constructor <;> cases own <;> cases own' <;> simp [Suits, pairWidths]

/-- The widths chosen for a pair are not below what the pair is sized for. -/
theorem le_pair {a b : Expr} {width : Nat} {own own' : Option Nat}
    (suits : Suits (joinWidths own own') width) :
    width ≤ max (pairWidths a b width own own').1 (pairWidths a b width own own').2 := by
  cases own with
  | none =>
    cases own' with
    | none =>
      simp only [pairWidths]
      split <;> omega
    | some n =>
      have := suits n rfl
      simp [pairWidths, this]
  | some m =>
    cases own' with
    | none =>
      have := suits m rfl
      simp [pairWidths, this]
    | some n =>
      have := suits (max m n) rfl
      simp [pairWidths, this]

/-- What sizing says about the width of a sized expression. -/
def Widens (d : Ref → Option Nat) (e : Expr) : Prop :=
  ∀ {t : Expr} {width tw : Nat} {own : Option Nat}, e.fitted d width = some (t, tw) →
    e.natural d = some own → Suits own width → e.Resolved →
    width ≤ tw ∧ t.widthBy .sizing d = some tw

theorem widens_parts {parts : List Expr} {fitted : List (Expr × Nat)} {total : Nat}
    (each : List.Forall₂ (OperandFits d) parts fitted) (widens : ∀ a ∈ parts, Widens d a)
    (resolved : ∀ a ∈ parts, a.Resolved) (naturals : naturals d parts = some total) :
    total ≤ (fitted.map Prod.snd).sum ∧
      widthsBy .sizing d (fitted.map Prod.fst) = some (fitted.map Prod.snd).sum := by
  induction each generalizing total with
  | nil =>
    obtain rfl : 0 = total := by simpa [Expr.naturals] using naturals
    exact ⟨Nat.le_refl 0, rfl⟩
  | @cons a r rest rs first _ ih =>
    obtain ⟨width, own, done⟩ := first
    simp only [Expr.naturals, own, Option.bind_eq_bind, Option.bind_some, Option.bind_eq_some_iff,
      Option.pure_def, Option.some.injEq] at naturals
    obtain ⟨total', later, rfl⟩ := naturals
    have head := widens a (by simp) done own (by simp [Suits]) (resolved a (by simp))
    have tail := ih (fun b member => widens b (by simp [member]))
      (fun b member => resolved b (by simp [member])) later
    refine ⟨?_, ?_⟩
    · simp only [List.map_cons, List.sum_cons]
      omega
    · simp [widthsBy, head.2, tail.2]

/-- Sizing gives an expression the width that the sizing rule finds for its sized form; that is at
    least the width for which it was sized. -/
theorem fitted_width (e : Expr) : Widens d e := by
  induction e using operand_induction with
  | step e ih =>
    intro t width tw own done natural suits resolved
    have below : ∀ a ∈ e.children, a.Resolved := (all_iff.mp resolved).2
    cases fit_step done with
    | atom _ leaf sized =>
      cases e with
      | signal _ leaf =>
        simp only [Expr.natural, Option.bind_eq_bind, Option.bind_eq_some_iff, Option.pure_def,
          Option.some.injEq] at natural
        obtain ⟨m, declared, rfl⟩ := natural
        obtain rfl := suits m rfl
        exact ⟨Nat.le_refl m, declared⟩
      | literal _ value =>
        obtain rfl : some value.width = own := by simpa [Expr.natural] using natural
        obtain rfl := suits _ rfl
        exact ⟨Nat.le_refl _, rfl⟩
      | integer => simp [integer?] at sized
      | read | unassigned =>
        have := resolved _ (.root _)
        simp [placeholder?] at this
      | _ => simp [isAtom] at leaf
    | integer n value => exact ⟨Nat.le_refl _, by simp [widthBy]⟩
    | @reduction _ _ _ _ a _ reduces operand =>
      obtain ⟨w, found, fits⟩ := operand
      obtain ⟨-, here⟩ := ih a (by simp [children]) fits found (by simp [Suits])
        (below a (by simp [children]))
      obtain rfl : some 1 = own := by simpa [Expr.natural, reduces] using natural
      exact ⟨Nat.le_of_eq (suits 1 rfl).symm, by simp [widthBy, here, reduces]⟩
    | @unary _ _ _ _ a _ keeps operand =>
      have same : a.natural d = some own := by simpa [Expr.natural, keeps] using natural
      obtain ⟨le, here⟩ := ih a (by simp [children]) operand same suits
        (below a (by simp [children]))
      exact ⟨le, by simp [widthBy, here, keeps]⟩
    | @shift _ _ _ _ op a _ b _ amount shifts left found right =>
      have relates : op.isComparison = false := by
        cases op <;> simp_all [BinaryOp.isShift, BinaryOp.isComparison]
      have same : a.natural d = some own := by simpa [Expr.natural, shifts, relates] using natural
      obtain ⟨le, here⟩ := ih a (by simp [children]) left same suits (below a (by simp [children]))
      obtain ⟨-, there⟩ := ih b (by simp [children]) right found (suits_getD _ _)
        (below b (by simp [children]))
      exact ⟨le, by simp [widthBy, here, there, shifts]⟩
    | @pair _ _ aw bw op a _ b _ first second pairs found found' left right fits =>
      obtain ⟨suits₁, suits₂⟩ := suits_pair a b (if op.isComparison then 0 else width) first second
      obtain ⟨le, here⟩ := ih a (by simp [children]) left found suits₁ (below a (by simp [children]))
      obtain ⟨le', there⟩ := ih b (by simp [children]) right found' suits₂
        (below b (by simp [children]))
      refine ⟨?_, by simp [widthBy, here, there, pairs, Alignable, fits]⟩
      cases relates : op.isComparison with
      | true =>
        obtain rfl : some 1 = own := by simpa [Expr.natural, relates] using natural
        simp [(suits 1 rfl).symm]
      | false =>
        obtain rfl : joinWidths first second = own := by
          simpa [Expr.natural, relates, pairs, found, found'] using natural
        have := le_pair (a := a) (b := b) suits
        simp only [relates, Bool.false_eq_true, ↓reduceIte] at le le' ⊢
        omega
    | @mux _ _ tw c _ t _ f _ bit first second condition found found' single left right =>
      obtain ⟨suits₁, suits₂⟩ := suits_pair t f width first second
      obtain ⟨-, one⟩ := ih c (by simp [children]) single condition (suits_getD _ _)
        (below c (by simp [children]))
      obtain ⟨le, here⟩ := ih t (by simp [children]) left found suits₁ (below t (by simp [children]))
      obtain ⟨le', there⟩ := ih f (by simp [children]) right found' suits₂
        (below f (by simp [children]))
      refine ⟨?_, by simp [widthBy, one, here, there]⟩
      obtain rfl : joinWidths first second = own := by
        simpa [Expr.natural, found, found'] using natural
      have := le_pair (a := t) (b := f) suits
      omega
    | @concat _ _ parts fitted each =>
      simp only [Expr.natural, Option.bind_eq_bind, Option.bind_eq_some_iff, Option.pure_def,
        Option.some.injEq] at natural
      obtain ⟨total, natural, rfl⟩ := natural
      obtain rfl := suits total rfl
      exact widens_parts each (fun a operand => ih a operand) below natural
    | @slice _ _ high low w aw a _ needed ordered inside operand =>
      obtain ⟨le, here⟩ := ih a (by simp [children]) operand needed (by simp [Suits])
        (below a (by simp [children]))
      obtain rfl : some (high - low + 1) = own := by simpa [Expr.natural] using natural
      have bound : high < aw := by omega
      exact ⟨Nat.le_of_eq (suits _ rfl).symm, by simp [widthBy, here, ordered, bound]⟩
    | @extend _ _ _ _ _ a _ w found wide operand =>
      obtain ⟨-, here⟩ := ih a (by simp [children]) operand found (suits_getD _ _)
        (below a (by simp [children]))
      obtain rfl : some tw = own := by simpa [Expr.natural] using natural
      exact ⟨Nat.le_of_eq (suits _ rfl).symm, by simp [widthBy, here]⟩
    | @caseMatch _ _ sw s _ p _ _ first second found found' left right =>
      obtain ⟨suits₁, suits₂⟩ := suits_pair s p 0 first second
      obtain ⟨-, here⟩ := ih s (by simp [children]) left found suits₁ (below s (by simp [children]))
      obtain ⟨-, there⟩ := ih p (by simp [children]) right found' suits₂
        (below p (by simp [children]))
      obtain rfl : some 1 = own := by simpa [Expr.natural] using natural
      exact ⟨Nat.le_of_eq (suits 1 rfl).symm, by simp [widthBy, here, there]⟩

theorem sized_width {e t : Expr} {context : Option Nat} {width : Nat}
    (done : e.sized d context = some (t, width)) (resolved : e.Resolved) :
    t.widthBy .sizing d = some width := by
  simp only [sized, Option.bind_eq_bind, Option.bind_eq_some_iff] at done
  obtain ⟨own, found, done⟩ := done
  cases own with
  | none => exact (fitted_width e done found (by simp [Suits]) resolved).2
  | some w => exact (fitted_width e done found (by simp [Suits]) resolved).2

end

/-- What a netlist demands of a driver or a watched condition of some width. -/
structure Checked (d : Ref → Option Nat) (e : Expr) (width : Nat) : Prop where
  integerless : e.Integerless
  resolved : e.Resolved
  width : e.widthBy .sizing d = some width

section

variable {d d' : Ref → Option Nat}

theorem sized_fitted {e t : Expr} {context : Option Nat} {width : Nat}
    (done : e.sized d context = some (t, width)) : ∃ w, e.fitted d w = some (t, width) := by
  simp only [sized, Option.bind_eq_bind, Option.bind_eq_some_iff] at done
  obtain ⟨own, -, done⟩ := done
  cases own <;> exact ⟨_, done⟩

theorem sized_checked {e t : Expr} {context : Option Nat} {width : Nat}
    (done : e.sized d context = some (t, width)) (resolved : e.Resolved) : Checked d t width := by
  obtain ⟨w, fits⟩ := sized_fitted done
  exact ⟨fitted_integerless fits, fitted_resolved fits resolved, sized_width done resolved⟩

theorem checked_alike {a b : Expr} {width : Nat} (alike : a.shape = b.shape)
    (checked : Checked d b width) : Checked d a width where
  integerless := integerless_alike alike checked.integerless
  resolved := resolved_alike alike checked.resolved
  width := (widthBy_alike alike).trans checked.width

theorem checked_congr {e : Expr} {width : Nat} (checked : Checked d e width)
    (declared : ∀ leaf, e.Reads leaf → d (.leaf leaf) = d' (.leaf leaf)) : Checked d' e width where
  integerless := checked.integerless
  resolved := checked.resolved
  width := (widthBy_congr e declared).symm.trans checked.width

theorem checked_reads {e : Expr} {width : Nat} (checked : Checked d e width) {leaf : LeafId}
    (read : e.Reads leaf) : (d (.leaf leaf)).isSome :=
  reads_declared (Option.isSome_of_eq_some checked.width) read

end

end CombLogic
