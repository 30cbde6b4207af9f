import Mathlib.Algebra.GroupWithZero.Nat
import CombLogic.Expr.Op
import CombLogic.Value.Bitwise
import CombLogic.Value.Layout

/- Widths of the results of operations on values. Whether an operation succeeds, and how wide its
   result is, depends on the widths of its operands alone. -/
namespace CombLogic

/-- Two operands of one width, or a single bit beside any other operand. -/
def Alignable (m n : Nat) : Prop := m = n ∨ m = 1 ∨ n = 1

instance (m n : Nat) : Decidable (Alignable m n) := by unfold Alignable; infer_instance

/-- The width to which two operands are brought: a single bit takes that of the other operand. -/
def alignedWidth (m n : Nat) : Nat := if m = 1 then n else m

namespace Value

@[simp] theorem width_fill (width : Nat) (b : Bit) : (fill width b).width = width := by
  simp [fill, Value.width]

@[simp] theorem width_zeros (width : Nat) : (zeros width).width = width := width_fill width _

@[simp] theorem width_unknown (width : Nat) : (unknown width).width = width := width_fill width _

@[simp] theorem width_ofBit (b : Bit) : (ofBit b).width = 1 := rfl

@[simp] theorem width_ofBool (b : Bool) : (ofBool b).width = 1 := rfl

theorem length_natToBits (width n : Nat) : (natToBits width n).length = width := by
  induction width generalizing n with
  | zero => rfl
  | succ width ih => simp [natToBits, ih]

@[simp] theorem width_ofNat (width n : Nat) : (ofNat width n).width = width :=
  length_natToBits width n

@[simp] theorem width_ofInt (width : Nat) (n : Int) : (ofInt width n).width = width :=
  width_ofNat width _

theorem single_bit {v : Value} : v.width = 1 ↔ ∃ b, v.bits = [b] := List.length_eq_one_iff

theorem align_same (operation : String) {a b : Value} (same : a.width = b.width) :
    align operation a b = .ok (a, b) := by
  rw [align, if_pos same]

theorem align_left (operation : String) {a b : Value} (apart : a.width ≠ b.width) {bit : Bit}
    (bits : a.bits = [bit]) : align operation a b = .ok (fill b.width bit, b) := by
  simp [align, apart, bits]

theorem align_right (operation : String) {a b : Value} (apart : a.width ≠ b.width)
    (several : a.width ≠ 1) {bit : Bit} (bits : b.bits = [bit]) :
    align operation a b = .ok (a, fill a.width bit) := by
  have other : ∀ bit, a.bits ≠ [bit] := fun bit bits => several (single_bit.mpr ⟨bit, bits⟩)
  rw [align, if_neg apart]
  split
  · rename_i here
    exact (other _ here).elim
  · rename_i here _
    rw [bits] at here
    cases here
    rfl
  · rename_i neither
    exact (neither _ bits).elim

theorem align_apart (operation : String) {a b : Value} (apart : a.width ≠ b.width)
    (left : a.width ≠ 1) (right : b.width ≠ 1) :
    align operation a b = .error (.widthMismatch operation a.width b.width) := by
  rw [align, if_neg apart]
  split
  · rename_i bits
    exact (left (single_bit.mpr ⟨_, bits⟩)).elim
  · rename_i bits _
    exact (right (single_bit.mpr ⟨_, bits⟩)).elim
  · rfl

/-- Both operands come out with the width of the pair. -/
theorem align_ok (operation : String) {a b : Value} (fits : Alignable a.width b.width) :
    ∃ a' b', align operation a b = .ok (a', b') ∧ a'.width = alignedWidth a.width b.width ∧
      b'.width = alignedWidth a.width b.width := by
  unfold alignedWidth
  by_cases same : a.width = b.width
  · refine ⟨a, b, align_same operation same, ?_, ?_⟩ <;> split <;> omega
  · by_cases left : a.width = 1
    · obtain ⟨bit, bits⟩ := single_bit.mp left
      exact ⟨fill b.width bit, b, align_left operation same bits, by simp [left], by simp [left]⟩
    · obtain ⟨bit, bits⟩ := single_bit.mp ((fits.resolve_left same).resolve_left left)
      exact ⟨a, fill a.width bit, align_right operation same left bits, by simp [left],
        by simp [left]⟩

theorem wrapping_ok (operation : String) (f : Nat → Nat → Nat → Option Nat) {a b : Value}
    (fits : Alignable a.width b.width) :
    ∃ v, wrapping operation f a b = .ok v ∧ v.width = alignedWidth a.width b.width := by
  obtain ⟨a', b', aligned, left, right⟩ := align_ok operation fits
  refine ⟨_, by simp only [wrapping, aligned]; rfl, ?_⟩
  split <;> simp [left]

theorem bitwise_ok (operation : String) (f : Bit → Bit → Bit) {a b : Value}
    (fits : Alignable a.width b.width) :
    ∃ v, bitwise operation f a b = .ok v ∧ v.width = alignedWidth a.width b.width := by
  obtain ⟨a', b', aligned, left, right⟩ := align_ok operation fits
  refine ⟨_, by simp only [bitwise, aligned]; rfl, ?_⟩
  simp only [width, List.length_zipWith] at left right ⊢
  omega

theorem relate_ok (operation : String) (holds : Nat → Nat → Bool) {a b : Value}
    (fits : Alignable a.width b.width) :
    ∃ v, relate operation holds a b = .ok v ∧ v.width = 1 := by
  obtain ⟨a', b', aligned, -, -⟩ := align_ok operation fits
  refine ⟨_, by simp only [relate, aligned]; rfl, ?_⟩
  split <;> simp

theorem width_shiftBy (move : Nat → List Bit) (v amount : Value)
    (keeps : ∀ n ≤ v.width, (move n).length = v.width) : (shiftBy move v amount).width = v.width := by
  unfold shiftBy
  split
  · rfl
  · split
    · exact keeps _ (Nat.min_le_right _ _)
    · simp

theorem length_pushLow {v : Value} {n : Nat} (le : n ≤ v.width) :
    (List.replicate n Bit.zero ++ v.bits.take (v.width - n)).length = v.width := by
  simp only [width] at le ⊢
  simp
  omega

theorem length_dropLow {v : Value} (fill : Bit) {n : Nat} (le : n ≤ v.width) :
    (v.dropLow fill n).length = v.width := by
  simp only [width, dropLow] at le ⊢
  simp
  omega

theorem width_shl (v amount : Value) : (v.shl amount).width = v.width :=
  width_shiftBy _ v amount fun _ => length_pushLow

theorem width_shr (v amount : Value) : (v.shr amount).width = v.width :=
  width_shiftBy _ v amount fun _ => length_dropLow .zero

theorem width_ashr (v amount : Value) : (v.ashr amount).width = v.width :=
  width_shiftBy _ v amount fun _ => length_dropLow v.sign

theorem slice_bits {v : Value} {high low : Nat} (ordered : low ≤ high) (inside : high < v.width) :
    v.slice high low = .ok ⟨(v.bits.drop low).take (high + 1 - low)⟩ := by
  have present : low + (high - low) < v.bits.length := by
    simp only [width] at inside
    omega
  simp [slice, Nat.not_lt.mpr ordered, present]

theorem slice_error {v : Value} {high low : Nat} (outside : high < low ∨ v.width ≤ high) :
    v.slice high low = .error (.invalidSlice high low v.width) := by
  refine if_pos (outside.imp_right fun past => ?_)
  simp only [width] at past
  simp
  omega

theorem slice_ok {v : Value} {high low : Nat} (ordered : low ≤ high) (inside : high < v.width) :
    ∃ w, v.slice high low = .ok w ∧ w.width = high - low + 1 := by
  refine ⟨_, slice_bits ordered inside, ?_⟩
  simp only [width, List.length_take, List.length_drop] at inside ⊢
  omega

theorem padWith_ok (fill : Bit) {v : Value} {target : Nat} (wide : v.width ≤ target) :
    ∃ w, padWith fill v target = .ok w ∧ w.width = target := by
  refine ⟨⟨v.bits ++ List.replicate (target - v.width) fill⟩, ?_, ?_⟩
  · simp [padWith, Nat.not_lt.mpr wide]
  · simp only [width, List.length_append, List.length_replicate] at wide ⊢
    omega

theorem padWith_error (fill : Bit) {v : Value} {target : Nat} (narrow : target < v.width) :
    padWith fill v target = .error (.invalidExtension v.width target) := by
  simp [padWith, narrow]

theorem width_concat (parts : List Value) : (concat parts).width = (parts.map width).sum := by
  induction parts with
  | nil => rfl
  | cons v rest ih =>
    simp only [concat, concatLowFirst, width] at ih ⊢
    simp only [List.reverse_cons, List.flatMap_append, List.length_append, ih, List.map_cons,
      List.sum_cons, List.flatMap_cons, List.flatMap_nil, List.append_nil]
    exact Nat.add_comm _ _

end Value

theorem UnaryOp.width_apply (op : UnaryOp) (v : Value) :
    (op.apply v).width = if op.isReduction then 1 else v.width := by
  cases op with
  | not => simp [apply, isReduction, Value.not, Value.width]
  | neg =>
    simp only [apply, isReduction, Value.neg]
    split <;> simp
  | redAnd | redOr =>
    simp only [apply, isReduction, Value.reduceAnd, Value.reduceOr]
    split <;> simp
  | redXor | multiHot => simp [apply, isReduction, Value.reduceXor, Value.multiHot]

namespace BinaryOp

open Value

theorem shift_ok {op : BinaryOp} (shifts : op.isShift = true) (a b : Value) :
    ∃ v, op.apply a b = .ok v ∧ v.width = a.width := by
  cases op <;> simp [isShift] at shifts
  · exact ⟨_, rfl, width_shl a b⟩
  · exact ⟨_, rfl, width_shr a b⟩
  · exact ⟨_, rfl, width_ashr a b⟩

theorem pair_ok {op : BinaryOp} (pairs : op.isShift = false) {a b : Value}
    (fits : Alignable a.width b.width) :
    ∃ v, op.apply a b = .ok v ∧
      v.width = if op.isComparison then 1 else alignedWidth a.width b.width := by
  cases op with
  | add | sub | mul | div | mod | pow =>
    simp only [isComparison, apply, Value.add, Value.sub, Value.mul, Value.div, Value.mod, Value.pow]
    exact wrapping_ok _ _ fits
  | and | or | xor =>
    simp only [isComparison, apply, Value.and, Value.or, Value.xor]
    exact bitwise_ok _ _ fits
  | eq | ne | lt | le | gt | ge =>
    simp only [isComparison, apply, Value.eq, Value.ne, Value.lt, Value.le, Value.gt, Value.ge]
    exact relate_ok _ _ fits
  | shl | shr | ashr => simp [isShift] at pairs

end BinaryOp

end CombLogic
