import CombLogic.Proofs.Shared
import CombLogic.Proofs.Width.Evaluation

/- Where sizing and evaluation agree on widths. They do unless one operand of a pair has no bits and the
   other one a single bit, or an operand is extended to fewer bits than it has. -/
namespace CombLogic

namespace Expr

/-- The operands of this node have widths on which sizing and evaluation agree. -/
def NodeBalanced (d : Ref → Option Nat) : Expr → Prop
  | binary _ op a b => op.isShift = true ∨ op.isComparison = true ∨
    ∀ m ∈ a.widthBy .sizing d, ∀ n ∈ b.widthBy .sizing d, m + n ≠ 1
  | extend _ a target _ => ∀ m ∈ a.widthBy .sizing d, m ≤ target
  | _ => True

def Balanced (d : Ref → Option Nat) (e : Expr) : Prop := e.All (NodeBalanced d)

instance (d : Ref → Option Nat) : (e : Expr) → Decidable (NodeBalanced d e)
  | binary .. | extend .. => by unfold NodeBalanced; infer_instance
  | signal .. | literal .. | integer .. | read .. | unassigned .. | unary .. | mux .. | concat ..
  | slice .. | caseMatch .. => inferInstanceAs (Decidable True)

instance (d : Ref → Option Nat) (e : Expr) : Decidable (Balanced d e) :=
  inferInstanceAs (Decidable (e.All (NodeBalanced d)))

end Expr

open Expr

instance (d : Ref → Option Nat) (e : Expr) (width : Nat) : Decidable (Checked d e width) :=
  decidable_of_iff (e.All (·.integer? = none) ∧ e.All (·.placeholder? = none) ∧
    e.widthBy .sizing d = some width)
    ⟨fun ⟨integerless, resolved, width⟩ => ⟨integerless, resolved, width⟩,
      fun checked => ⟨checked.integerless, checked.resolved, checked.width⟩⟩

theorem aligned_max {m n : Nat} (fits : Alignable m n) (apart : m + n ≠ 1) :
    alignedWidth m n = max m n := by
  unfold alignedWidth
  rcases fits with rfl | rfl | rfl <;> split <;> omega

theorem aligned_apart {m n : Nat} (single : m + n = 1) : alignedWidth m n ≠ max m n := by
  unfold alignedWidth
  split <;> omega

section

variable {d d' : Ref → Option Nat}

theorem widthsBy_rules {es : List Expr}
    (same : ∀ a ∈ es, a.widthBy .evaluation d = a.widthBy .sizing d) :
    widthsBy .evaluation d es = widthsBy .sizing d es := by
  induction es with
  | nil => rfl
  | cons e rest ih =>
    simp only [widthsBy, same e (by simp), ih fun a later => same a (by simp [later])]

/-- A balanced expression has one width by both rules. -/
theorem balanced_width (e : Expr) (balanced : e.Balanced d) :
    e.widthBy .evaluation d = e.widthBy .sizing d := by
  induction e using operand_induction with
  | step e ih =>
    obtain ⟨here, below⟩ := all_iff.mp balanced
    have operand : ∀ a ∈ e.children, a.widthBy .evaluation d = a.widthBy .sizing d :=
      fun a member => ih a member (below a member)
    cases e with
    | signal | literal | integer | read | unassigned => rfl
    | unary _ _ a | slice _ a => simp only [widthBy, operand a (by simp [children])]
    | extend _ a target signed =>
      simp only [widthBy, operand a (by simp [children])]
      cases width : a.widthBy .sizing d with
      | none => rfl
      | some m =>
        have le : m ≤ target := here m (by simp [width])
        simp [le]
    | binary _ op a b =>
      simp only [widthBy, operand a (by simp [children]), operand b (by simp [children])]
      cases left : a.widthBy .sizing d with
      | none => rfl
      | some m =>
        cases right : b.widthBy .sizing d with
        | none => rfl
        | some n =>
          rcases here with shifts | compares | apart
          · simp [shifts]
          · simp [compares]
          · by_cases fits : Alignable m n
            · have same := aligned_max fits (apart m (by simp [left]) n (by simp [right]))
              simp [fits, same]
            · simp [fits]
    | caseMatch _ a b =>
      simp only [widthBy, operand a (by simp [children]), operand b (by simp [children])]
    | mux _ c t f =>
      simp only [widthBy, operand c (by simp [children]), operand t (by simp [children]),
        operand f (by simp [children])]
    | concat _ parts =>
      simp only [widthBy]
      exact widthsBy_rules operand

theorem balanced_congr {e : Expr} (balanced : e.Balanced d)
    (declared : ∀ leaf, e.Reads leaf → d (.leaf leaf) = d' (.leaf leaf)) : e.Balanced d' := by
  intro n inside
  have operand : ∀ a ∈ n.children, a.widthBy .sizing d = a.widthBy .sizing d' := by
    intro a operand
    refine widthBy_congr a fun leaf ⟨node, within⟩ => declared leaf ⟨node, ?_⟩
    exact contains_trans inside (.within operand within)
  have here := balanced n inside
  cases n with
  | binary _ op a b =>
    simpa only [NodeBalanced, operand a (by simp [children]),
      operand b (by simp [children])] using here
  | extend _ a target signed =>
    simpa only [NodeBalanced, operand a (by simp [children])] using here
  | _ => trivial

end

section

variable {K : Set Expr} {next : Nat} {d : Ref → Option Nat} {env : Env}

/-- With balanced operands, an expression evaluates to its width exactly if it is balanced itself. -/
theorem balanced_iff (sharing : Sharing K next) {e : Expr} (member : e ∈ K) (fits : env.Fits d e)
    {width : Nat} (checked : Checked d e width) (operands : ∀ a ∈ e.children, a.Balanced d) :
    (∃ v, e.value env = .ok v ∧ v.width = width) ↔ e.Balanced d := by
  constructor
  · rintro ⟨v, found, rfl⟩
    refine all_iff.mpr ⟨?_, operands⟩
    have sized := checked.width
    have same : ∀ a ∈ e.children, a.widthBy .evaluation d = a.widthBy .sizing d :=
      fun a operand => balanced_width a (operands a operand)
    cases e with
    | binary node op a b =>
      by_contra unbalanced
      simp only [NodeBalanced, not_or, not_forall, not_not, Bool.not_eq_true] at unbalanced
      obtain ⟨shifts, compares, m, left, n, right, single⟩ := unbalanced
      have left : a.widthBy .sizing d = some m := left
      have right : b.widthBy .sizing d = some n := right
      have pair : Alignable m n := by unfold Alignable; omega
      simp only [widthBy, left, right, Option.bind_eq_bind, Option.bind_some, shifts,
        Bool.false_eq_true, ↓reduceIte, pair, compares, WidthRule.sizing_joined,
        Option.some.injEq] at sized
      have wide : (Expr.binary node op a b).widthBy .evaluation d = some (alignedWidth m n) := by
        simp [widthBy, same a (by simp [children]), same b (by simp [children]), left, right, shifts,
          pair, compares]
      obtain ⟨v', found', narrow⟩ := value_wide sharing member fits wide
      obtain rfl : v = v' := by simpa [found] using found'
      exact aligned_apart single (narrow.symm.trans sized.symm)
    | extend node a target signed =>
      intro m below
      have below : a.widthBy .sizing d = some m := below
      have inside := sharing.operands _ member a (by simp [children])
      have operand : env.Fits d a := fits_operand (by simp [children]) fits
      obtain ⟨v', found', rfl⟩ := value_wide sharing inside operand
        ((same a (by simp [children])).trans below)
      by_contra narrow
      have found' : a.valueOn env env.unreadable = .ok v' := found'
      have short : target < v'.width := by omega
      cases signed <;>
        simp [Expr.value, valueOn, found', Value.signExtend, Value.zeroExtend,
          Value.padWith_error _ short, bind, Except.bind, Except.mapError] at found
    | _ => trivial
  · intro balanced
    exact value_wide sharing member fits ((balanced_width e balanced).trans checked.width)

end

end CombLogic
