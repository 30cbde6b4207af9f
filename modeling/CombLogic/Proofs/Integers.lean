import CombLogic.Value.Arith
import CombLogic.Proofs.Width.Value

/- Values as unsigned integers. Writing an integer into a width keeps it modulo two to the width,
   and a value with known bits only is written again by the integer it stands for. -/
namespace CombLogic.Value

variable {bits : List Bit} {v : Value} {i m n width : Nat}

theorem modulus_eq (width : Nat) : modulus width = 2 ^ width := rfl

theorem modulus_succ (width : Nat) : modulus (width + 1) = 2 * modulus width := by
  rw [modulus_eq, modulus_eq, Nat.pow_succ, Nat.mul_comm]

theorem toNat_ofBool (b : Bool) : (Bit.ofBool b).toNat = b.toNat := by cases b <;> rfl

theorem isKnown_ofBool (b : Bool) : (Bit.ofBool b).isKnown = true := by cases b <;> rfl

/-- A known bit is one of the two that an integer writes. -/
theorem ofBool_toNat {b : Bit} (known : b.isKnown = true) (rest : Nat) :
    Bit.ofBool ((b.toNat + 2 * rest) % 2 == 1) = b := by
  cases b with
  | zero | one => simp [Bit.toNat, Bit.ofBool]
  | x | z => cases known

theorem toNat_lt (b : Bit) : b.toNat < 2 := by cases b <;> decide

/- Integer to bits and back. -/

theorem isKnown_ofNat (width n : Nat) : (ofNat width n).isKnown = true := by
  simp only [isKnown, ofNat]
  induction width generalizing n with
  | zero => rfl
  | succ width ih => simp only [natToBits, List.all_cons, isKnown_ofBool, ih, Bool.and_self]

theorem bitsToNat_natToBits (width n : Nat) :
    bitsToNat (natToBits width n) = n % modulus width := by
  induction width generalizing n with
  | zero => simp [natToBits, bitsToNat, modulus_eq, Nat.mod_one]
  | succ width ih =>
    have low : (n % 2 == 1).toNat = n % 2 := by
      rcases Nat.mod_two_eq_zero_or_one n with even | odd <;> simp [*]
    rw [natToBits, bitsToNat, ih, toNat_ofBool, low, modulus_succ, Nat.mod_mul]

theorem toNat?_ofNat (width n : Nat) : (ofNat width n).toNat? = some (n % modulus width) := by
  rw [toNat?, if_pos (isKnown_ofNat width n), ofNat, bitsToNat_natToBits]

/- Bits to integer and back. -/

theorem bitsToNat_lt (bits : List Bit) : bitsToNat bits < modulus bits.length := by
  induction bits with
  | nil => exact Nat.one_pos
  | cons b rest ih =>
    have low := toNat_lt b
    rw [List.length_cons, modulus_succ, bitsToNat]
    omega

theorem natToBits_bitsToNat (known : bits.all Bit.isKnown = true) :
    natToBits bits.length (bitsToNat bits) = bits := by
  induction bits with
  | nil => rfl
  | cons b rest ih =>
    rw [List.all_cons, Bool.and_eq_true] at known
    have high : (b.toNat + 2 * bitsToNat rest) / 2 = bitsToNat rest := by
      have low := toNat_lt b
      omega
    rw [List.length_cons, bitsToNat, natToBits, ofBool_toNat known.1, high, ih known.2]

theorem toNat?_eq_none : v.toNat? = none ↔ v.isKnown = false := by
  simp [toNat?]

theorem toNat?_lt (number : v.toNat? = some n) : n < modulus v.width := by
  rw [toNat?] at number
  split at number
  · cases number
    exact bitsToNat_lt v.bits
  · cases number

theorem ofNat_toNat? (number : v.toNat? = some n) : ofNat v.width n = v := by
  rw [toNat?] at number
  split at number
  · rename_i known
    cases number
    rw [ofNat, width, natToBits_bitsToNat known]
  · cases number

/- Single bits of an integer. -/

theorem getElem?_natToBits (width n i : Nat) :
    (natToBits width n)[i]? = if i < width then some (.ofBool (n.testBit i)) else none := by
  induction width generalizing n i with
  | zero => simp [natToBits]
  | succ width ih =>
    rw [natToBits]
    cases i with
    | zero => simp [Nat.testBit_zero, Bool.beq_eq_decide_eq]
    | succ i => simp [ih, Nat.testBit_succ]

theorem natToBits_mod (width n : Nat) : natToBits width (n % modulus width) = natToBits width n := by
  refine List.ext_getElem? fun i => ?_
  rw [getElem?_natToBits, getElem?_natToBits, modulus_eq, Nat.testBit_mod_two_pow]
  split <;> simp_all

theorem ofNat_mod (width n : Nat) : ofNat width (n % modulus width) = ofNat width n :=
  congrArg Value.mk (natToBits_mod width n)

/-- The bits of the integer that a list writes are its ones. -/
theorem testBit_bitsToNat (bits : List Bit) (i : Nat) :
    (bitsToNat bits).testBit i = decide (bits[i]? = some .one) := by
  induction bits generalizing i with
  | nil => simp [bitsToNat]
  | cons b rest ih =>
    have low := toNat_lt b
    rw [bitsToNat]
    cases i with
    | zero =>
      have parity : (b.toNat + 2 * bitsToNat rest) % 2 = b.toNat := by omega
      rw [Nat.testBit_zero, parity]
      cases b <;> simp [Bit.toNat]
    | succ i =>
      have half : (b.toNat + 2 * bitsToNat rest) / 2 = bitsToNat rest := by omega
      rw [Nat.testBit_succ, half, ih, List.getElem?_cons_succ]

/-- Repeated squaring computes the power. -/
theorem powMod_eq (a b m : Nat) : powMod a b m = a ^ b % m := by
  induction b using Nat.strongRecOn generalizing a with
  | ind b ih =>
    rw [powMod]
    split
    · rename_i zero
      rw [zero, Nat.pow_zero]
    · rename_i positive
      have half : powMod (a * a % m) (b / 2) m = a ^ (2 * (b / 2)) % m := by
        rw [ih (b / 2) (by omega), ← Nat.pow_mod, Nat.pow_mul, Nat.pow_two]
      simp only [half]
      split
      · rename_i odd
        calc a * (a ^ (2 * (b / 2)) % m) % m = a * a ^ (2 * (b / 2)) % m := Nat.mul_mod_mod _ _ _
          _ = a ^ (2 * (b / 2) + 1) % m := by rw [Nat.pow_succ, Nat.mul_comm]
          _ = a ^ b % m := by rw [show 2 * (b / 2) + 1 = b by omega]
      · rw [show 2 * (b / 2) = b by omega]

end CombLogic.Value
