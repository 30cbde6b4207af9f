import Mathlib.Algebra.Ring.Int.Defs
import Mathlib.Tactic.Set
import CombLogic.Proofs.Packed.Operations

/- Shifts. Bits move as far as the amount says, whatever the width of the amount is, and unknown
   bits move like known ones; so known values are multiplied and divided by powers of two. Places of
   bits are words of 32 bits, and a larger amount counts as the largest of them, which makes no
   difference. -/
namespace CombLogic

/-- The place of a bit. -/
abbrev Place := BitVec 32

namespace Place

/-- An amount as a word; a larger one counts as the largest word. -/
def clamp (n : Nat) : Place := if n < 2 ^ 32 then .ofNat 32 n else .allOnes 32

def least (a b : Place) : Place := if a < b then a else b

/-- The place above another one by some amount, if it is below the width. The sum has 64 bits. -/
def above? (width i n : Place) : Option Place :=
  let sum : BitVec 64 := i.setWidth 64 + n.setWidth 64
  (if sum.toNat < 2 ^ 32 then some (sum.setWidth 32) else none).filter (· < width)

theorem least_clamp (n : Nat) (width : Place) :
    (least (clamp n) width).toNat = min n width.toNat := by
  have bound := width.isLt
  have clamped : (clamp n).toNat = min n (2 ^ 32 - 1) := by
    unfold clamp
    split
    · rw [BitVec.toNat_ofNat]
      omega
    · rw [BitVec.toNat_allOnes]
      omega
  unfold least
  simp only [BitVec.lt_def, clamped]
  split
  · rw [clamped]
    omega
  · omega

theorem above?_eq (width i n : Place) : (above? width i n).map BitVec.toNat =
    if i.toNat + n.toNat < width.toNat then some (i.toNat + n.toNat) else none := by
  have bound := width.isLt
  have sum : (i.setWidth 64 + n.setWidth 64 : BitVec 64).toNat = i.toNat + n.toNat := by
    have left := i.isLt
    have right := n.isLt
    rw [BitVec.toNat_add, BitVec.toNat_setWidth, BitVec.toNat_setWidth]
    omega
  unfold above?
  simp only [sum]
  by_cases small : i.toNat + n.toNat < 2 ^ 32
  · have narrow :
        ((i.setWidth 64 + n.setWidth 64 : BitVec 64).setWidth 32).toNat = i.toNat + n.toNat := by
      rw [BitVec.toNat_setWidth, sum, Nat.mod_eq_of_lt small]
    rw [if_pos small, Option.filter_some]
    simp only [BitVec.lt_def, narrow, decide_eq_true_eq]
    split
    · rw [Option.map_some, narrow]
    · rfl
  · rw [if_neg small, if_neg (by omega)]
    rfl

end Place

namespace Packed

/-- As `shiftBy`, with words for the places and for the amount. -/
def shiftPlaces (place : Place → Place → Bit) (p amount : Packed) : Packed :=
  if p.width = 0 then p
  else match amount.contents.toNat? with
    | some n =>
      let n := Place.least (.clamp n) (.ofNat 32 p.width)
      ofValue ⟨(List.range p.width).map fun i => place n (.ofNat 32 i)⟩
    | none => fill p.width .x

def shlPlaces (p amount : Packed) : Packed :=
  shiftPlaces (fun n i => if n ≤ i then p.get (i - n).toNat else .zero) p amount

def dropPlaces (p : Packed) (fill : Bit) (n i : Place) : Bit :=
  match Place.above? (.ofNat 32 p.width) i n with
  | some j => p.get j.toNat
  | none => fill

def shrPlaces (p amount : Packed) : Packed := shiftPlaces (p.dropPlaces .zero) p amount

def ashrPlaces (p amount : Packed) : Packed :=
  shiftPlaces (p.dropPlaces (p.get (p.width - 1))) p amount

variable {p amount : Packed}

theorem shiftPlaces_eq {place : Place → Place → Bit} {place' : Nat → Nat → Bit}
    (narrow : p.width < 2 ^ 32)
    (agree : ∀ n i : Place, place n i = place' n.toNat i.toNat) :
    shiftPlaces place p amount = shiftBy place' p amount := by
  have width : (BitVec.ofNat 32 p.width).toNat = p.width := by
    rw [BitVec.toNat_ofNat, Nat.mod_eq_of_lt narrow]
  unfold shiftPlaces shiftBy
  split
  · rfl
  · cases amount.contents.toNat? with
    | none => rfl
    | some n =>
      have same : ∀ i ∈ List.range p.width,
          place (.least (.clamp n) (.ofNat 32 p.width)) (.ofNat 32 i) =
            place' (min n p.width) i := by
        intro i member
        have inside := List.mem_range.mp member
        rw [agree, Place.least_clamp, width, BitVec.toNat_ofNat, Nat.mod_eq_of_lt (by omega)]
      exact congrArg (ofValue ⟨·⟩) (List.map_congr_left same)

theorem shlPlaces_eq (narrow : p.width < 2 ^ 32) : p.shlPlaces amount = p.shl amount := by
  apply shiftPlaces_eq narrow
  intro n i
  by_cases above : n ≤ i
  · rw [if_pos above, if_pos (BitVec.le_def.mp above), BitVec.toNat_sub_of_le above]
  · rw [if_neg above, if_neg (mt BitVec.le_def.mpr above)]

theorem dropPlaces_eq (narrow : p.width < 2 ^ 32) (fill : Bit) (n i : Place) :
    p.dropPlaces fill n i = p.dropLow fill n.toNat i.toNat := by
  have found := Place.above?_eq (.ofNat 32 p.width) i n
  rw [BitVec.toNat_ofNat, Nat.mod_eq_of_lt narrow] at found
  unfold dropPlaces dropLow
  cases place : Place.above? (.ofNat 32 p.width) i n with
  | some j =>
    rw [place, Option.map_some] at found
    split at found
    · rw [if_pos ‹_›]
      exact congrArg p.get (Option.some.inj found)
    · nomatch found
  | none =>
    rw [place, Option.map_none] at found
    split at found
    · nomatch found
    · rw [if_neg ‹_›]

theorem shrPlaces_eq (narrow : p.width < 2 ^ 32) : p.shrPlaces amount = p.shr amount :=
  shiftPlaces_eq narrow (dropPlaces_eq narrow .zero)

theorem ashrPlaces_eq (narrow : p.width < 2 ^ 32) : p.ashrPlaces amount = p.ashr amount :=
  shiftPlaces_eq narrow (dropPlaces_eq narrow _)

end Packed

namespace Value

variable {v amount : Value} {move : Nat → List Bit} {i m n : Nat}

theorem shiftBy_known (wide : 1 ≤ v.width) (number : amount.toNat? = some n) :
    shiftBy move v amount = ⟨move (min n v.width)⟩ := by
  have positive : v.width ≠ 0 := by omega
  rw [shiftBy, if_neg positive, number]

theorem shiftBy_unknown (hidden : amount.isKnown = false) :
    shiftBy move v amount = unknown v.width := by
  rw [shiftBy, toNat?_eq_none.mpr hidden]
  split
  · rename_i empty
    obtain ⟨bits⟩ := v
    obtain rfl : bits = [] := List.length_eq_zero_iff.mp empty
    rfl
  · rfl

theorem get?_inside (inside : i < v.width) : ∃ b, v.get? i = some b :=
  ⟨_, List.getElem?_eq_getElem inside⟩

theorem get?_sign (wide : 1 ≤ v.width) : v.get? (v.width - 1) = some v.sign := by
  obtain ⟨b, last⟩ := get?_inside (v := v) (i := v.width - 1) (by omega)
  rw [last, sign, List.getLast?_eq_getElem?]
  rw [get?, width] at last
  rw [last, Option.getD_some]

theorem get?_shl (wide : 1 ≤ v.width) (number : amount.toNat? = some n) (inside : i < v.width) :
    (v.shl amount).get? i = if n ≤ i then v.get? (i - n) else some .zero := by
  rw [shl, shiftBy_known wide number, get?, List.getElem?_append, List.length_replicate]
  unfold get?
  split
  · rw [List.getElem?_replicate, if_pos ‹_›, if_neg (by omega)]
  · rw [List.getElem?_take_of_lt (by omega), if_pos (by omega)]
    congr 1
    omega

theorem get?_dropLow (fill : Bit) (inside : i < v.width) :
    (v.dropLow fill (min n v.width))[i]? =
      if i + n < v.width then v.get? (i + n) else some fill := by
  have length : (v.bits.drop (min n v.width)).length = v.width - min n v.width := List.length_drop
  rw [dropLow, List.getElem?_append, length]
  split
  · rw [if_pos (by omega), List.getElem?_drop, get?]
    congr 1
    omega
  · rw [if_neg (by omega), List.getElem?_replicate, if_pos (by omega)]

theorem get?_shr (wide : 1 ≤ v.width) (number : amount.toNat? = some n) (inside : i < v.width) :
    (v.shr amount).get? i = if i + n < v.width then v.get? (i + n) else some .zero := by
  rw [shr, shiftBy_known wide number]
  exact get?_dropLow .zero inside

/-- The top bit comes in from above. -/
theorem get?_ashr (wide : 1 ≤ v.width) (number : amount.toNat? = some n) (inside : i < v.width) :
    (v.ashr amount).get? i = v.get? (min (i + n) (v.width - 1)) := by
  have moved : (v.ashr amount).get? i =
      if i + n < v.width then v.get? (i + n) else some v.sign := by
    rw [ashr, shiftBy_known wide number]
    exact get?_dropLow v.sign inside
  rw [moved]
  split
  · rw [Nat.min_eq_left (by omega)]
  · rw [Nat.min_eq_right (by omega), get?_sign wide]

/- Shifts of integers. -/

theorem get?_number (number : v.toNat? = some m) (inside : i < v.width) :
    v.get? i = some (.ofBool (m.testBit i)) := by
  rw [← ofNat_toNat? number, get?, ofNat, getElem?_natToBits, if_pos inside]

/-- A value is the integer whose bits it has. -/
theorem toNat?_bits {width : Nat} (wide : v.width = width) (bound : m < 2 ^ width)
    (bits : ∀ i < width, v.get? i = some (.ofBool (m.testBit i))) : v.toNat? = some m := by
  have same : v = ofNat width m := by
    refine congrArg mk (List.ext_getElem? fun i => ?_)
    rw [getElem?_natToBits]
    split
    · exact bits i ‹_›
    · exact List.getElem?_eq_none (by rw [Value.width] at wide; omega)
  rw [same, toNat?_ofNat, modulus_eq, Nat.mod_eq_of_lt bound]

theorem shl_number (wide : 1 ≤ v.width) (number : amount.toNat? = some n)
    (known : v.toNat? = some m) : (v.shl amount).toNat? = some (m * 2 ^ n % 2 ^ v.width) := by
  refine toNat?_bits (width_shl v amount) (Nat.mod_lt _ (Nat.two_pow_pos _)) fun i inside => ?_
  rw [get?_shl wide number inside, Nat.testBit_mod_two_pow, Nat.testBit_mul_two_pow]
  split
  · rw [get?_number known (by omega)]
    simp [*]
  · simp [*, Bit.ofBool]

theorem shr_number (wide : 1 ≤ v.width) (number : amount.toNat? = some n)
    (known : v.toNat? = some m) : (v.shr amount).toNat? = some (m / 2 ^ n) := by
  have bound : m < 2 ^ v.width := toNat?_lt known
  have less : m / 2 ^ n < 2 ^ v.width := Nat.lt_of_le_of_lt (Nat.div_le_self _ _) bound
  refine toNat?_bits (width_shr v amount) less fun i inside => ?_
  rw [get?_shr wide number inside, Nat.testBit_div_two_pow]
  split
  · exact get?_number known ‹_›
  · have past : m < 2 ^ (i + n) :=
      Nat.lt_of_lt_of_le bound (Nat.pow_le_pow_right (by decide) (by omega))
    rw [Nat.testBit_lt_two_pow past]
    rfl

/-- The integer that a value stands for in two's complement. -/
def signed (width m : Nat) : Int := if 2 * m < 2 ^ width then m else m - 2 ^ width

theorem signed_eq {width : Nat} (bound : m < 2 ^ width) :
    signed width m = (BitVec.ofNat width m).toInt := by
  rw [BitVec.toInt_eq_toNat_cond, BitVec.toNat_ofNat, Nat.mod_eq_of_lt bound, signed]
  push_cast
  rfl

theorem ashr_number (wide : 1 ≤ v.width) (number : amount.toNat? = some n)
    (known : v.toNat? = some m) : ∃ r : Nat, (v.ashr amount).toNat? = some r ∧
      (r : Int) = signed v.width m / 2 ^ n % 2 ^ v.width := by
  have bound : m < 2 ^ v.width := toNat?_lt known
  refine ⟨((BitVec.ofNat v.width m).sshiftRight n).toNat, ?_, ?_⟩
  · refine toNat?_bits (width_ashr v amount) (BitVec.isLt _) fun i inside => ?_
    have top : (BitVec.ofNat v.width m).msb = m.testBit (v.width - 1) := by
      rw [BitVec.msb_eq_getLsbD_last, BitVec.getLsbD_ofNat]
      simp
      omega
    have moved : ((BitVec.ofNat v.width m).sshiftRight n).toNat.testBit i =
        m.testBit (min (i + n) (v.width - 1)) := by
      rw [BitVec.testBit_toNat, BitVec.getLsbD_sshiftRight, top, Nat.add_comm n i]
      by_cases low : i + n < v.width
      · rw [if_pos low, BitVec.getLsbD_ofNat, Nat.min_eq_left (by omega)]
        simp [inside, low]
      · rw [if_neg low, Nat.min_eq_right (by omega)]
        simp [inside]
    rw [get?_ashr wide number inside, get?_number known (by omega), moved]
  · set moved := (BitVec.ofNat v.width m).sshiftRight n
    have floor : moved.toInt = signed v.width m / 2 ^ n := by
      rw [BitVec.toInt_sshiftRight, Int.shiftRight_eq_div_pow, signed_eq bound]
      push_cast
      rfl
    rw [← floor, BitVec.toInt_eq_toNat_bmod]
    calc (moved.toNat : Int) = moved.toNat % (2 ^ v.width : Nat) := by
          rw [Int.emod_eq_of_lt (by omega) (by exact_mod_cast moved.isLt)]
      _ = (moved.toNat : Int).bmod (2 ^ v.width) % (2 ^ v.width : Nat) := Int.bmod_emod.symm
      _ = _ := by push_cast; rfl

/-- Amounts of any width are taken at their value, also those that are no words. -/
theorem shifts_exact (wide : 1 ≤ v.width) :
    ((v.shl amount).width = v.width ∧ (v.shr amount).width = v.width ∧
      (v.ashr amount).width = v.width) ∧
    (∀ n, amount.toNat? = some n →
      (∀ i < v.width,
        (v.shl amount).get? i = (if n ≤ i then v.get? (i - n) else some .zero) ∧
        (v.shr amount).get? i = (if i + n < v.width then v.get? (i + n) else some .zero) ∧
        (v.ashr amount).get? i = v.get? (min (i + n) (v.width - 1))) ∧
      ∀ m, v.toNat? = some m →
        (v.shl amount).toNat? = some (m * 2 ^ n % 2 ^ v.width) ∧
        (v.shr amount).toNat? = some (m / 2 ^ n) ∧
        ∃ r : Nat, (v.ashr amount).toNat? = some r ∧
          (r : Int) = signed v.width m / 2 ^ n % 2 ^ v.width) ∧
    (amount.isKnown = false →
      v.shl amount = unknown v.width ∧ v.shr amount = unknown v.width ∧
        v.ashr amount = unknown v.width) ∧
    (v.width < 2 ^ 32 →
      (Packed.ofValue v).shlPlaces (.ofValue amount) = .ofValue (v.shl amount) ∧
      (Packed.ofValue v).shrPlaces (.ofValue amount) = .ofValue (v.shr amount) ∧
      (Packed.ofValue v).ashrPlaces (.ofValue amount) = .ofValue (v.ashr amount)) := by
  refine ⟨⟨width_shl v amount, width_shr v amount, width_ashr v amount⟩, ?_, ?_, ?_⟩
  · intro n number
    constructor
    · intro i inside
      exact ⟨get?_shl wide number inside, get?_shr wide number inside,
        get?_ashr wide number inside⟩
    · intro m known
      exact ⟨shl_number wide number known, shr_number wide number known,
        ashr_number wide number known⟩
  · intro hidden
    exact ⟨shiftBy_unknown hidden, shiftBy_unknown hidden, shiftBy_unknown hidden⟩
  · intro inWords
    have narrow : (Packed.ofValue v).width < 2 ^ 32 := by rwa [Packed.width_ofValue]
    rw [Packed.shlPlaces_eq narrow, Packed.shrPlaces_eq narrow, Packed.ashrPlaces_eq narrow]
    exact ⟨Packed.shl_eq v amount, Packed.shr_eq v amount, Packed.ashr_eq v amount⟩

theorem shifted_far :
    let v : Value := ⟨[.x, .z, .one]⟩
    let far := ofNat 40 (2 ^ 32 + 1)
    far.toNat? = some (2 ^ 32 + 1) ∧ (v.shr far).get? 1 = some .zero ∧
      (v.ashr far).get? 0 = some .one ∧
      (Packed.ofValue v).ashrPlaces (.ofValue far) = .ofValue (v.ashr far) := by
  intro v far
  have number : far.toNat? = some (2 ^ 32 + 1) := toNat?_ofNat 40 (2 ^ 32 + 1)
  obtain ⟨_, moved, _, words⟩ := @shifts_exact v far (by decide)
  obtain ⟨bits, _⟩ := moved (2 ^ 32 + 1) number
  refine ⟨number, ?_, ?_, (words (by decide)).2.2⟩
  · rw [(bits 1 (by decide)).2.1]
    rfl
  · rw [(bits 0 (by decide)).2.2]
    rfl

end Value

end CombLogic
