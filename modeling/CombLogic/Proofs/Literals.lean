import Mathlib.Algebra.Ring.Int.Defs
import CombLogic.Proofs.Integers
import CombLogic.Proofs.Netlist.Pieces

/- Comparison of two integers without a width. Both are written in the larger of their least widths.
   It holds each of them by itself: one that is not negative without a sign, a negative one in two's
   complement. Where one of the two readings holds both, they stay apart; else the width lacks the bit
   for the sign, and two integers that are as far apart as it reaches are the same bits. -/
namespace CombLogic

namespace Value

/-- The integers that have a form of some width: from the least one in two's complement to the
    largest one without a sign. -/
def HasForm (width : Nat) (n : Int) : Prop := -2 ^ width ≤ 2 * n ∧ n < 2 ^ width

/-- One reading of the bits of a width gives both integers, the one without a sign or the one in
    two's complement. -/
def HeldTogether (width : Nat) (a b : Int) : Prop :=
  (0 ≤ a ∧ a < 2 ^ width ∧ 0 ≤ b ∧ b < 2 ^ width) ∨
    (-2 ^ width ≤ 2 * a ∧ 2 * a < 2 ^ width ∧ -2 ^ width ≤ 2 * b ∧ 2 * b < 2 ^ width)

variable {width : Nat} {a b n : Int}

theorem form_nat {m : Nat} : HasForm width (Int.ofNat m) ↔ m < 2 ^ width := by
  have cast : Int.ofNat m = (m : Int) := rfl
  have power : ((2 ^ width : Nat) : Int) = 2 ^ width := Int.natCast_pow 2 width
  unfold HasForm
  omega

theorem form_negative {m : Nat} : HasForm (width + 1) (Int.negSucc m) ↔ m < 2 ^ width := by
  have power : ((2 ^ width : Nat) : Int) = 2 ^ width := Int.natCast_pow 2 width
  have double : (2 : Int) ^ (width + 1) = 2 * 2 ^ width := by rw [Int.pow_succ, Int.mul_comm]
  unfold HasForm
  omega

theorem bitLength_le {m : Nat} : bitLength m ≤ width ↔ m < 2 ^ width := by
  unfold bitLength
  split
  · rename_i zero
    subst zero
    exact ⟨fun _ => Nat.two_pow_pos width, fun _ => Nat.zero_le width⟩
  · rename_i some
    exact Nat.log2_lt some

/-- The least width holds an integer, and no smaller width that has a bit does. -/
theorem leastWidth_le (bits : 0 < width) : leastWidth n ≤ width ↔ HasForm width n := by
  cases n with
  | ofNat m =>
    rw [form_nat, ← bitLength_le, leastWidth]
    omega
  | negSucc m =>
    obtain ⟨rest, rfl⟩ : ∃ rest, width = rest + 1 := ⟨width - 1, by omega⟩
    rw [form_negative, ← bitLength_le, leastWidth]
    omega

/-- The width that two integers are compared at. -/
def commonWidth (a b : Int) : Nat := max (leastWidth a) (leastWidth b)

theorem commonWidth_pos (a b : Int) : 0 < commonWidth a b :=
  Nat.lt_of_lt_of_le (leastWidth_pos a) (Nat.le_max_left _ _)

/-- It is the least one that holds both. -/
theorem commonWidth_le (bits : 0 < width) :
    commonWidth a b ≤ width ↔ HasForm width a ∧ HasForm width b := by
  rw [commonWidth, Nat.max_le, leastWidth_le bits, leastWidth_le bits]

/-- Two integers of one form each have the same bits if they are equal, or if they are as far apart
    as the width reaches. -/
theorem emod_eq_iff (left : HasForm width a) (right : HasForm width b) :
    a % 2 ^ width = b % 2 ^ width ↔ a = b ∨ a + 2 ^ width = b ∨ b + 2 ^ width = a := by
  unfold HasForm at left right
  have positive : (0 : Int) < 2 ^ width := Int.pow_pos (by decide)
  generalize (2 : Int) ^ width = m at left right positive ⊢
  rw [Int.emod_eq_emod_iff_emod_sub_eq_zero, ← Int.dvd_iff_emod_eq_zero]
  constructor
  · rintro ⟨k, apart⟩
    -- The integers lie less than twice the modulus apart.
    have above : k < 2 := by
      by_contra far
      have : m * 2 ≤ m * k := Int.mul_le_mul_of_nonneg_left (by omega) (by omega)
      omega
    have below : -2 < k := by
      by_contra far
      have : m * k ≤ m * -2 := Int.mul_le_mul_of_nonneg_left (by omega) (by omega)
      omega
    obtain rfl | rfl | rfl : k = -1 ∨ k = 0 ∨ k = 1 := by omega
    all_goals omega
  · rintro (rfl | rfl | rfl)
    · simp
    · exact ⟨-1, by omega⟩
    · exact ⟨1, by omega⟩

theorem emod_eq_iff_of_together (together : HeldTogether width a b) :
    a % 2 ^ width = b % 2 ^ width ↔ a = b := by
  unfold HeldTogether at together
  have left : HasForm width a := by
    unfold HasForm
    omega
  have right : HasForm width b := by
    unfold HasForm
    omega
  rw [emod_eq_iff left right]
  omega

/-- Only a sign can keep two integers from being held together. -/
theorem heldTogether_of_sign (left : HasForm width a) (right : HasForm width b)
    (sign : a < 0 ↔ b < 0) : HeldTogether width a b := by
  have positive : (0 : Int) < 2 ^ width := Int.pow_pos (by decide)
  unfold HasForm at left right
  unfold HeldTogether
  omega

theorem toNat?_ofInt (width : Nat) (n : Int) :
    (ofInt width n).toNat? = some (n % 2 ^ width).toNat := by
  have power : Int.ofNat (modulus width) = 2 ^ width := Int.natCast_pow 2 width
  have positive : (0 : Int) < 2 ^ width := Int.pow_pos (by decide)
  have small : (n % 2 ^ width).toNat < modulus width := by
    have cast : ((modulus width : Nat) : Int) = 2 ^ width := power
    have := Int.emod_lt_of_pos n positive
    have := Int.emod_nonneg n positive.ne'
    omega
  rw [ofInt, power, toNat?_ofNat, Nat.mod_eq_of_lt small]

theorem relate_ofInt (operation : String) (holds : Nat → Nat → Bool) (width : Nat) (a b : Int) :
    relate operation holds (ofInt width a) (ofInt width b) =
      .ok (ofBool (holds (a % 2 ^ width).toNat (b % 2 ^ width).toNat)) := by
  have same : (ofInt width a).width = (ofInt width b).width := by
    simp only [ofInt, width_ofNat]
  rw [relate, align, if_pos same]
  simp only [bind, Except.bind, toNat?_ofInt]
  rfl

end Value

open Expr Value

namespace Netlist

variable {g : Netlist} {op : BinaryOp} {a b : Int}

/-- Builds a comparison of two integers and evaluates it. -/
def compare (g : Netlist) (op : BinaryOp) (a b : Int) : Numbering (Except NetlistError) Value := do
  let left ← Build.integer a
  let right ← Build.integer b
  g.evaluate (← Build.binary op left right)

/-- Sizing writes both integers at their common width. -/
theorem comparison_sized (comparison : op.isComparison = true) (n m k : Nat)
    (d : Ref → Option Nat) :
    (Expr.binary n op (.integer m a) (.integer k b)).sized d none =
      some (.binary n op (.literal m (.ofInt (commonWidth a b) a))
        (.literal k (.ofInt (commonWidth a b) b)), 1) := by
  have unshifted : op.isShift = false := by cases op <;> first | rfl | cases comparison
  simp [Expr.sized, natural, fitted, Sizing.pairWidths, Expr.leastWidth, commonWidth, comparison,
    unshifted]

theorem compare_ok (comparison : op.isComparison = true) (next : Nat) {v : Value}
    (applied : op.apply (.ofInt (commonWidth a b) a) (.ofInt (commonWidth a b) b) = .ok v) :
    ∃ last, g.compare op a b next = .ok (v, last) := by
  let left : Expr := .integer next a
  let right : Expr := .integer (next + 1) b
  have empty : Sharing ∅ next := Sharing.none_shared
  have first := empty.build (e := left) rfl (by simp [left, children])
  have second := first.build (e := right) rfl (by simp [right, children])
  have third := second.build (e := .binary (next + 2) op left right) rfl (by simp [children])
  refine evaluate_plain third (Set.mem_insert _ _) (comparison_sized comparison _ _ _ _) ?_
  simp [Expr.value, valueOn, applied, bind, Except.bind, Except.mapError]

/-- What two integers without a width compare to. Their common width is the least one that holds each
    of them; equality says whether they are the same bits there, and inequality is its negation. So it
    is equality of integers where the width holds both together, as it does if both have one sign. -/
theorem unsized_compared (g : Netlist) (a b : Int) (next : Nat) :
    (HasForm (commonWidth a b) a ∧ HasForm (commonWidth a b) b ∧
      ∀ width, 0 < width → HasForm width a → HasForm width b → commonWidth a b ≤ width) ∧
    ((a < 0 ↔ b < 0) → HeldTogether (commonWidth a b) a b) ∧
    ∃ equal : Bool,
      (∃ last, g.compare .eq a b next = .ok (.ofBool equal, last)) ∧
      (∃ last, g.compare .ne a b next = .ok (.ofBool !equal, last)) ∧
      (equal = true ↔
        a = b ∨ a + 2 ^ commonWidth a b = b ∨ b + 2 ^ commonWidth a b = a) ∧
      (HeldTogether (commonWidth a b) a b → (equal = true ↔ a = b)) := by
  obtain ⟨left, right⟩ := (commonWidth_le (commonWidth_pos a b)).mp (Nat.le_refl (commonWidth a b))
  have residues : (a % 2 ^ commonWidth a b).toNat = (b % 2 ^ commonWidth a b).toNat ↔
      a % 2 ^ commonWidth a b = b % 2 ^ commonWidth a b := by
    have positive : (0 : Int) < 2 ^ commonWidth a b := Int.pow_pos (by decide)
    have := Int.emod_nonneg a positive.ne'
    have := Int.emod_nonneg b positive.ne'
    omega
  refine ⟨⟨left, right, fun width bits l r => (commonWidth_le bits).mpr ⟨l, r⟩⟩,
    heldTogether_of_sign left right,
    decide (a % 2 ^ commonWidth a b = b % 2 ^ commonWidth a b), ?_, ?_, ?_, fun together => ?_⟩
  · apply compare_ok rfl
    change relate "eq" _ _ _ = _
    rw [relate_ofInt, beq_eq_decide, decide_eq_decide.mpr residues]
  · apply compare_ok rfl
    change relate "neq" _ _ _ = _
    rw [relate_ofInt, bne, beq_eq_decide, decide_eq_decide.mpr residues]
  · rw [decide_eq_true_eq]
    exact emod_eq_iff left right
  · rw [decide_eq_true_eq]
    exact emod_eq_iff_of_together together

/-- Fifteen takes four bits: its successor differs from it, and minus one does not. -/
theorem fifteen_compared :
    (∃ last, (empty 10).compare .eq 15 16 0 = .ok (.ofBool false, last)) ∧
    ∃ last, (empty 10).compare .ne 15 (-1) 0 = .ok (.ofBool false, last) := by
  constructor
  · obtain ⟨-, one_sign, equal, compared, -, -, together⟩ := unsized_compared (empty 10) 15 16 0
    have apart : equal = false := by
      rw [← Bool.not_eq_true, together (one_sign (by decide))]
      decide
    exact apart ▸ compared
  · obtain ⟨-, -, equal, -, compared, collide, -⟩ := unsized_compared (empty 10) 15 (-1) 0
    have same : equal = true := collide.mpr (.inr (.inr (by decide)))
    subst same
    exact compared

/-- One bit holds minus one and holds one, in the same form. -/
theorem signs_collide : ¬∀ a b : Int, -2 ^ 63 ≤ a → a < 2 ^ 63 → -2 ^ 63 ≤ b → b < 2 ^ 63 →
    ∀ last v, (empty 10).compare .eq a b 0 = .ok (v, last) → (v = .ofBool true ↔ a = b) := by
  intro apart
  have equal : (empty 10).compare .eq (-1) 1 0 = .ok (.ofBool true, 6) :=
    of_toOption (by decide +kernel)
  have same := (apart (-1) 1 (by decide) (by decide) (by decide) (by decide) _ _ equal).mp rfl
  exact absurd same (by decide)

end Netlist

end CombLogic
