import Mathlib.Tactic.Ring
import Mathlib.Tactic.Tauto
import CombLogic.Proofs.Bytes

/- Arithmetic and comparisons against exact integers. Operands of one width, or a single bit spread
   over the width of the other operand, give the exact result modulo two to the width, whatever the
   width is; an unknown bit or a zero divisor makes all bits unknown. -/
namespace CombLogic

namespace BinaryOp

/-- Operators that read their operands as integers of one width. -/
def isNumeric : BinaryOp → Bool
  | add | sub | mul | div | mod | pow => true
  | and | or | xor | shl | shr | ashr => false
  | eq | ne | lt | le | gt | ge => true

/-- The exact result; a true comparison counts as 1. Division by zero has none. -/
def integer? : BinaryOp → Nat → Nat → Option Int
  | add, m, n => some (m + n)
  | sub, m, n => some (m - n)
  | mul, m, n => some (m * n)
  | div, m, n => if n = 0 then none else some (m / n)
  | mod, m, n => if n = 0 then none else some (m % n)
  | pow, m, n => some (m ^ n)
  | eq, m, n => some (if m = n then 1 else 0)
  | ne, m, n => some (if m ≠ n then 1 else 0)
  | lt, m, n => some (if m < n then 1 else 0)
  | le, m, n => some (if m ≤ n then 1 else 0)
  | gt, m, n => some (if n < m then 1 else 0)
  | ge, m, n => some (if n ≤ m then 1 else 0)
  | and, _, _ | or, _, _ | xor, _, _ | shl, _, _ | shr, _, _ | ashr, _, _ => none

/-- What operations on values call themselves. -/
def valueName : BinaryOp → String
  | ne => "neq"
  | le => "lte"
  | ge => "gte"
  | op => op.name

/-- The width of the result beside operands of one width. -/
def resultWidth (op : BinaryOp) (width : Nat) : Nat := if op.isComparison then 1 else width

end BinaryOp

namespace Value

/-- A single bit takes as many copies as asked for; other values stay. -/
def spread (width : Nat) (v : Value) : Value :=
  match v.bits with
  | [b] => fill width b
  | _ => v

variable {a b v : Value} {m n width : Nat}

theorem spread_single {bit : Bit} (bits : v.bits = [bit]) : v.spread width = fill width bit := by
  rw [spread, bits]

theorem spread_self (v : Value) : v.spread v.width = v := by
  rw [spread]
  split
  · rename_i bits
    rw [width, bits]
    cases v
    simp_all [fill]
  · rfl

theorem align_spread (operation : String) (fits : Alignable a.width b.width) :
    align operation a b =
      .ok (a.spread (alignedWidth a.width b.width), b.spread (alignedWidth a.width b.width)) := by
  by_cases same : a.width = b.width
  · have joint : alignedWidth a.width b.width = a.width := by
      unfold alignedWidth
      split <;> omega
    rw [align_same operation same, joint, spread_self, same, spread_self]
  by_cases left : a.width = 1
  · obtain ⟨bit, bits⟩ := single_bit.mp left
    have joint : alignedWidth a.width b.width = b.width := if_pos left
    rw [align_left operation same bits, joint, spread_self, spread_single bits]
  · obtain ⟨bit, bits⟩ := single_bit.mp ((fits.resolve_left same).resolve_left left)
    have joint : alignedWidth a.width b.width = a.width := if_neg left
    rw [align_right operation same left bits, joint, spread_self, spread_single bits]

/-- Both operands come out with the width of the pair. -/
theorem width_spread (fits : Alignable a.width b.width) :
    (a.spread (alignedWidth a.width b.width)).width = alignedWidth a.width b.width ∧
      (b.spread (alignedWidth a.width b.width)).width = alignedWidth a.width b.width := by
  obtain ⟨a', b', aligned, left, right⟩ := align_ok "" fits
  rw [align_spread "" fits, Except.ok.injEq, Prod.mk.injEq] at aligned
  rw [aligned.1, aligned.2]
  exact ⟨left, right⟩

/-- A result for two operands of one width: unknown bits where one of them has an unknown bit or
    the integer does not exist, and the integer modulo two to the width otherwise. -/
def Exact (width : Nat) (integer? : Nat → Nat → Option Int) (x y v : Value) : Prop :=
  v.width = width ∧
  ((∃ bit ∈ x.bits ++ y.bits, bit.isKnown = false) → v = unknown width) ∧
  ∀ m n, x.toNat? = some m → y.toNat? = some n →
    match integer? m n with
    | none => v = unknown width
    | some z => ∃ r : Nat, v.toNat? = some r ∧ (r : Int) = z % 2 ^ width

variable {x y : Value} {integer? : Nat → Nat → Option Int}

theorem unknown_operand (unknown : ∃ bit ∈ x.bits ++ y.bits, bit.isKnown = false) :
    x.toNat? = none ∨ y.toNat? = none := by
  obtain ⟨bit, member, hidden⟩ := unknown
  simp only [toNat?_eq_none, isKnown, List.all_eq_false, Bool.not_eq_true]
  exact (List.mem_append.mp member).imp (⟨bit, ·, hidden⟩) (⟨bit, ·, hidden⟩)

/-- An operation that computes with integers below two to the width is exact if it agrees with the
    integers modulo two to the width. -/
theorem wrapping_exact (operation : String) {f : Nat → Nat → Nat → Option Nat}
    (fits : Alignable a.width b.width)
    (agree : ∀ width m n, m < 2 ^ width → n < 2 ^ width →
      match integer? m n with
      | none => f m n (2 ^ width) = none
      | some z => ∃ k : Nat, f m n (2 ^ width) = some k ∧ (k : Int) % 2 ^ width = z % 2 ^ width) :
    ∃ v, wrapping operation f a b = .ok v ∧
      Exact (alignedWidth a.width b.width) integer? (a.spread (alignedWidth a.width b.width))
        (b.spread (alignedWidth a.width b.width)) v := by
  set width := alignedWidth a.width b.width with joint
  obtain ⟨left, right⟩ : (a.spread width).width = width ∧ (b.spread width).width = width :=
    width_spread fits
  rw [wrapping, align_spread operation fits, ← joint]
  simp only [bind, Except.bind]
  rw [left]
  refine ⟨_, rfl, ?_, ?_, ?_⟩
  · split <;> simp
  · intro hidden
    rcases unknown_operand hidden with none | none
    · simp [none]
    · cases (a.spread width).toNat? <;> simp [none]
  · intro m n first second
    have bound := toNat?_lt first
    have bound' := toNat?_lt second
    rw [left] at bound
    rw [right] at bound'
    have agrees := agree width m n bound bound'
    simp only [first, second, Option.bind, modulus_eq]
    split
    · rename_i none
      simp only [none] at agrees
      rw [agrees]
    · rename_i z exact
      simp only [exact] at agrees
      obtain ⟨k, result, congruent⟩ := agrees
      refine ⟨_, by rw [result]; exact toNat?_ofNat width k, ?_⟩
      rw [modulus_eq, ← congruent]
      push_cast
      rfl

theorem relate_exact (operation : String) {holds : Nat → Nat → Bool}
    (fits : Alignable a.width b.width)
    (agree : ∀ m n, integer? m n = some (if holds m n then 1 else 0)) :
    ∃ v, relate operation holds a b = .ok v ∧
      Exact 1 integer? (a.spread (alignedWidth a.width b.width))
        (b.spread (alignedWidth a.width b.width)) v := by
  set width := alignedWidth a.width b.width with joint
  rw [relate, align_spread operation fits, ← joint]
  simp only [bind, Except.bind]
  refine ⟨_, rfl, ?_, ?_, ?_⟩
  · split <;> simp
  · intro hidden
    rcases unknown_operand hidden with none | none
    · simp [none]
    · cases (a.spread width).toNat? <;> simp [none]
  · intro m n first second
    simp only [first, second, agree m n]
    cases holds m n
    · exact ⟨0, rfl, rfl⟩
    · exact ⟨1, rfl, rfl⟩

theorem numeric_apart {op : BinaryOp} (numeric : op.isNumeric = true)
    (apart : ¬Alignable a.width b.width) :
    op.apply a b = .error (.widthMismatch op.valueName a.width b.width) := by
  obtain ⟨differ, left, right⟩ : a.width ≠ b.width ∧ a.width ≠ 1 ∧ b.width ≠ 1 := by
    simpa [Alignable] using apart
  have refused := fun operation => align_apart operation differ left right
  cases op with
  | add | sub | mul | div | mod | pow =>
    simp only [BinaryOp.apply, add, sub, mul, div, mod, pow, wrapping, refused]
    rfl
  | eq | ne | lt | le | gt | ge =>
    simp only [BinaryOp.apply, eq, ne, lt, le, gt, ge, relate, refused]
    rfl
  | and | or | xor | shl | shr | ashr => cases numeric

/-- Adding two to the width first keeps the difference above zero. -/
theorem sub_congruent {width m n : Nat} (bound : n < 2 ^ width) :
    ((m + 2 ^ width - n : Nat) : Int) % 2 ^ width = ((m : Int) - n) % 2 ^ width := by
  have positive : n ≤ m + 2 ^ width := by omega
  rw [Int.natCast_sub positive]
  push_cast
  rw [show (m : Int) + 2 ^ width - n = (m - n) + 2 ^ width by ring, Int.add_emod_right]

theorem numeric_fits {op : BinaryOp} (numeric : op.isNumeric = true)
    (fits : Alignable a.width b.width) :
    ∃ v, op.apply a b = .ok v ∧
      Exact (op.resultWidth (alignedWidth a.width b.width)) op.integer?
        (a.spread (alignedWidth a.width b.width)) (b.spread (alignedWidth a.width b.width)) v := by
  cases op with
  | add =>
    simp only [BinaryOp.apply, Value.add]
    refine wrapping_exact "add" fits fun width m n _ _ => ?_
    exact ⟨m + n, rfl, by push_cast; rfl⟩
  | sub =>
    simp only [BinaryOp.apply, Value.sub]
    refine wrapping_exact "sub" fits fun width m n _ bound => ?_
    exact ⟨_, rfl, sub_congruent bound⟩
  | mul =>
    simp only [BinaryOp.apply, Value.mul]
    refine wrapping_exact "mul" fits fun width m n _ _ => ?_
    exact ⟨m * n, rfl, by push_cast; rfl⟩
  | div =>
    simp only [BinaryOp.apply, Value.div]
    refine wrapping_exact "div" fits fun width m n _ _ => ?_
    by_cases zero : n = 0
    · simp [BinaryOp.integer?, zero]
    · simp [BinaryOp.integer?, zero]
  | mod =>
    simp only [BinaryOp.apply, Value.mod]
    refine wrapping_exact "mod" fits fun width m n _ _ => ?_
    by_cases zero : n = 0
    · simp [BinaryOp.integer?, zero]
    · simp [BinaryOp.integer?, zero]
  | pow =>
    simp only [BinaryOp.apply, Value.pow]
    refine wrapping_exact "pow" fits fun width m n _ _ => ⟨_, rfl, ?_⟩
    rw [powMod_eq]
    push_cast
    exact Int.emod_emod_of_dvd _ (dvd_refl _)
  | eq | ne | lt | le | gt | ge =>
    exact relate_exact _ fits fun m n => by simp [BinaryOp.integer?]
  | and | or | xor | shl | shr | ashr => cases numeric

theorem neg_exact (v : Value) :
    (v.isKnown = false → v.neg = unknown v.width) ∧
    ∀ n, v.toNat? = some n → v.neg.width = v.width ∧
      v.neg.toNat? = some ((2 ^ v.width - n) % 2 ^ v.width) := by
  constructor
  · intro hidden
    rw [neg, toNat?_eq_none.mpr hidden]
  · intro n number
    simp only [neg, number, width_ofNat, toNat?_ofNat, modulus_eq, Nat.mod_mod, and_self]

/-- The operators fail for operands that do not fit together and are exact for all others, negation
    is exact, and an integer goes into a width and comes out of a value unharmed, byte by byte. -/
theorem integers_exact {op : BinaryOp} (numeric : op.isNumeric = true) (a b v : Value)
    (width k : Nat) :
    (op.apply a b = .error (.widthMismatch op.valueName a.width b.width) ↔
      a.width ≠ b.width ∧ a.width ≠ 1 ∧ b.width ≠ 1) ∧
    (a.width = b.width ∨ a.width = 1 ∨ b.width = 1 →
      let joint := alignedWidth a.width b.width
      ∃ result, op.apply a b = .ok result ∧
        Exact (op.resultWidth joint) op.integer? (a.spread joint) (b.spread joint) result) ∧
    ((v.isKnown = false → v.neg = unknown v.width) ∧
      ∀ n, v.toNat? = some n → v.neg.width = v.width ∧
        v.neg.toNat? = some ((2 ^ v.width - n) % 2 ^ v.width)) ∧
    ofNat width k = ofBytes width (Bytes.ofNat k) ∧
    (ofNat width k).toNat? = some (k % 2 ^ width) ∧
    v.toNat? = (if v.isKnown then some (Bytes.toNat v.toBytes) else none) ∧
    (∀ n, v.toNat? = some n → ofNat v.width n = v) := by
  refine ⟨⟨fun failed => ?_, fun apart => numeric_apart numeric (by simpa [Alignable] using apart)⟩,
    numeric_fits numeric, neg_exact v, ofNat_eq_bytes width k, toNat?_ofNat width k,
    toNat?_eq_bytes v, fun n => ofNat_toNat?⟩
  by_contra fits
  have fits : Alignable a.width b.width := by
    unfold Alignable
    tauto
  obtain ⟨result, computed, -⟩ := numeric_fits numeric fits
  rw [computed] at failed
  cases failed

/-- A single 1 counts as all ones beside a wide operand, so subtracting it from zero leaves 1. -/
theorem sub_spread_one : BinaryOp.sub.isNumeric = true ∧
    ∃ result, BinaryOp.sub.apply (zeros 100) (ofBit .one) = .ok result ∧ result.width = 100 ∧
      result.toNat? = some 1 := by
  refine ⟨rfl, ?_⟩
  have exactly := integers_exact (rfl : BinaryOp.sub.isNumeric = true) (zeros 100) (ofBit .one) (zeros 0) 0 0
  obtain ⟨result, computed, width, -, reads⟩ := exactly.2.1 (by decide)
  obtain ⟨r, number, congruent⟩ :=
    reads 0 (2 ^ 100 - 1) (by decide +kernel) (by decide +kernel)
  refine ⟨result, computed, width, number.trans (congrArg some ?_)⟩
  have one : (r : Int) = 1 := congruent.trans (by decide +kernel)
  exact_mod_cast one

end Value

end CombLogic
