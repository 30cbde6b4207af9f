import CombLogic.Proofs.Integers

/- Integers in transit: lists of bytes, the lowest one first. Setting the ones of a value in a row of
   zero bytes writes the integer that the value stands for, and reading bits out of the bytes of an
   integer gives its low bits. -/
namespace CombLogic

abbrev Byte := BitVec 8

namespace Bytes

def toNat : List Byte → Nat
  | [] => 0
  | byte :: rest => byte.toNat + 256 * toNat rest

/-- No zero byte stands at the end. -/
def ofNat (n : Nat) : List Byte :=
  if n = 0 then [] else BitVec.ofNat 8 n :: ofNat (n / 256)
termination_by n

/-- A bit past the last byte is zero. -/
def bit (bytes : List Byte) (i : Nat) : Bool := (bytes[i / 8]?.getD 0).getLsbD (i % 8)

def setBit (bytes : List Byte) (i : Nat) : List Byte :=
  bytes.modify (i / 8) (· ||| (1 : Byte) <<< (i % 8))

variable {bytes : List Byte} {i j : Nat}

theorem testBit_toNat (bytes : List Byte) (i : Nat) : (toNat bytes).testBit i = bit bytes i := by
  induction bytes generalizing i with
  | nil => simp [toNat, bit]
  | cons byte rest ih =>
    have sum : toNat (byte :: rest) = 2 ^ 8 * toNat rest + byte.toNat := Nat.add_comm _ _
    rw [sum, Nat.testBit_two_pow_mul_add _ byte.isLt]
    split
    · rename_i low
      rw [bit, Nat.div_eq_of_lt low, Nat.mod_eq_of_lt low]
      rfl
    · rename_i high
      obtain ⟨k, rfl⟩ : ∃ k, i = k + 8 := ⟨i - 8, by omega⟩
      rw [Nat.add_sub_cancel, ih, bit, bit, Nat.add_div_right k (by decide), Nat.add_mod_right,
        List.getElem?_cons_succ]

theorem toNat_ofNat (n : Nat) : toNat (ofNat n) = n := by
  induction n using Nat.strongRecOn with
  | ind n ih =>
    rw [ofNat]
    split
    · rename_i zero
      rw [zero, toNat]
    · rw [toNat, ih (n / 256) (by omega), BitVec.toNat_ofNat]
      exact Nat.mod_add_div n 256

theorem toNat_replicate (count : Nat) : toNat (List.replicate count 0) = 0 := by
  induction count with
  | zero => rfl
  | succ count ih =>
    rw [List.replicate_succ, toNat, ih]
    rfl

theorem length_setBit (bytes : List Byte) (i : Nat) : (setBit bytes i).length = bytes.length :=
  List.length_modify _ _ _

theorem getLsbD_one_shiftLeft {k : Nat} (bound : k < 8) (m : Nat) :
    ((1 : Byte) <<< m).getLsbD k = decide (k = m) := by
  have one : (1 : Byte).getLsbD (k - m) = decide (k - m = 0) := by
    rw [show (1 : Byte) = 1#8 from rfl, BitVec.getLsbD_one]
    simp
  rw [BitVec.getLsbD_shiftLeft, one, decide_eq_true bound, Bool.true_and, ← decide_not,
    ← Bool.decide_and]
  exact decide_eq_decide.mpr (by omega)

theorem bit_setBit (present : i / 8 < bytes.length) :
    bit (setBit bytes i) j = (bit bytes j || decide (j = i)) := by
  rw [bit, setBit, List.getElem?_modify]
  by_cases same : i / 8 = j / 8
  · have found : bytes[j / 8]? = some bytes[j / 8] := List.getElem?_eq_getElem (same ▸ present)
    have place : (j % 8 = i % 8) = (j = i) := propext (by omega)
    simp only [bit, if_pos same, found, Option.map_eq_map, Option.map_some, Option.getD_some,
      BitVec.getLsbD_or, place,
      getLsbD_one_shiftLeft (Nat.mod_lt j (by decide))]
  · have apart : j ≠ i := fun equal => same (congrArg (· / 8) equal.symm)
    simp only [bit, if_neg same, decide_eq_false apart, Bool.or_false, Option.map_eq_map]
    rw [Option.map_id']

end Bytes

namespace Value

/-- As many bytes as the width takes, with a bit set for each one among the bits. -/
def toBytes (v : Value) : List Byte :=
  (List.range v.width).foldl
    (fun bytes i => if v.bits[i]? = some .one then Bytes.setBit bytes i else bytes)
    (List.replicate ((v.width + 7) / 8) 0)

def ofBytes (width : Nat) (bytes : List Byte) : Value :=
  ⟨(List.range width).map fun i => .ofBool (Bytes.bit bytes i)⟩

/-- After the places below `count` exactly their ones are set. -/
theorem setOnes (v : Value) (start : List Byte) (wide : v.width ≤ 8 * start.length) {count : Nat}
    (within : count ≤ v.width) (j : Nat) :
    let bytes := (List.range count).foldl
      (fun bytes i => if v.bits[i]? = some .one then Bytes.setBit bytes i else bytes) start
    bytes.length = start.length ∧
      Bytes.bit bytes j =
        (Bytes.bit start j || (decide (j < count) && decide (v.bits[j]? = some .one))) := by
  induction count with
  | zero => simp
  | succ count ih =>
    obtain ⟨length, bits⟩ := ih (by omega)
    rw [List.range_succ, List.foldl_append, List.foldl_cons, List.foldl_nil]
    have sooner : decide (j < count + 1) = (decide (j < count) || decide (j = count)) := by
      rw [← Bool.decide_or]
      exact decide_eq_decide.mpr (by omega)
    split
    · rename_i one
      refine ⟨(Bytes.length_setBit _ _).trans length, ?_⟩
      rw [Bytes.bit_setBit (by omega), bits, sooner]
      by_cases here : j = count
      · simp [here, one]
      · simp [here]
    · rename_i other
      refine ⟨length, ?_⟩
      rw [bits, sooner]
      by_cases here : j = count
      · simp [here, other]
      · simp [here]

theorem toNat_toBytes (v : Value) : Bytes.toNat v.toBytes = bitsToNat v.bits := by
  refine Nat.eq_of_testBit_eq fun i => ?_
  have wide : v.width ≤ 8 * (List.replicate ((v.width + 7) / 8) (0 : Byte)).length := by
    rw [List.length_replicate]
    omega
  have clear : Bytes.bit (List.replicate ((v.width + 7) / 8) 0) i = false := by
    rw [← Bytes.testBit_toNat, Bytes.toNat_replicate, Nat.zero_testBit]
  rw [Bytes.testBit_toNat, toBytes, (setOnes v _ wide (Nat.le_refl _) i).2, clear,
    testBit_bitsToNat, Bool.false_or]
  by_cases inside : i < v.width
  · simp [inside]
  · have past : v.bits[i]? = none := List.getElem?_eq_none (Nat.not_lt.mp inside)
    simp [inside, past]

theorem toNat?_eq_bytes (v : Value) :
    v.toNat? = if v.isKnown then some (Bytes.toNat v.toBytes) else none := by
  rw [toNat_toBytes, toNat?]

theorem ofNat_eq_bytes (width n : Nat) : ofNat width n = ofBytes width (Bytes.ofNat n) := by
  refine congrArg Value.mk (List.ext_getElem? fun i => ?_)
  have same : Bytes.bit (Bytes.ofNat n) i = n.testBit i := by
    rw [← Bytes.testBit_toNat, Bytes.toNat_ofNat]
  rw [getElem?_natToBits]
  by_cases inside : i < width <;> simp [inside, same]

end Value

end CombLogic
