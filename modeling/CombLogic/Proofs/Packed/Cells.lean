import Mathlib.Order.Defs.LinearOrder
import CombLogic.Value.Packed

/- Cells of stored words. A store changes one cell and leaves all others alone, those of its own word
   too. A stored value is canonical if it has no more words than it needs and its spare cells are
   zero; then its width and its bits decide every word of it. -/
namespace CombLogic.Packed

/-- The two bits of a word that hold one bit of a value. -/
def cell (w : Word) (k : Nat) : Word := (w >>> (2 * k)) &&& 3

section Words

variable {w w' : Word} {j k : Nat} {b : Bit}

theorem getLsbD_three (i : Nat) : (3 : Word).getLsbD i = decide (i < 2) := by
  have ones : (3 : Word) = BitVec.ofNat 64 (2 ^ 2 - 1) := rfl
  rw [ones, BitVec.getLsbD_ofNat, Nat.testBit_two_pow_sub_one, ← Bool.decide_and]
  exact decide_eq_decide.mpr ⟨And.right, fun low => ⟨by omega, low⟩⟩

theorem getLsbD_cell (w : Word) (k i : Nat) :
    (cell w k).getLsbD i = (decide (i < 2) && w.getLsbD (2 * k + i)) := by
  rw [cell, BitVec.getLsbD_and, BitVec.getLsbD_ushiftRight, getLsbD_three, Bool.and_comm]

theorem getLsbD_cellOfBit (b : Bit) {i : Nat} (high : 2 ≤ i) : (cellOfBit b).getLsbD i = false := by
  have masked : cellOfBit b = cellOfBit b &&& 3 := by cases b <;> decide
  rw [masked, BitVec.getLsbD_and, getLsbD_three, decide_eq_false (by omega), Bool.and_false]

@[simp] theorem bitOfCell_cellOfBit (b : Bit) : bitOfCell (cellOfBit b) = b := by
  cases b <;> decide

/-- A cell holds one of the four bits. -/
theorem cellOfBit_bitOfCell (w : Word) (k : Nat) : cellOfBit (bitOfCell (cell w k)) = cell w k := by
  have small : (cell w k).toNat < 4 := by
    rw [cell, BitVec.toNat_and]
    exact Nat.lt_of_le_of_lt Nat.and_le_right (by decide)
  generalize cell w k = c at small
  have cases : c = 0 ∨ c = 1 ∨ c = 2 ∨ c = 3 := by
    simp only [← BitVec.toNat_inj, BitVec.reduceToNat]
    omega
  rcases cases with rfl | rfl | rfl | rfl <;> decide

theorem bitOfCell_zero {c : Word} : bitOfCell c = .zero ↔ c = 0 := by
  unfold bitOfCell
  split
  · simp [*]
  · split
    · simp_all
    · split <;> simp_all

theorem cell_setCell (w : Word) (b : Bit) (left : j < 32) (right : k < 32) :
    cell (setCell w k b) j = if j = k then cellOfBit b else cell w j := by
  apply BitVec.eq_of_getLsbD_eq
  intro i _
  rw [getLsbD_cell, setCell, BitVec.getLsbD_or, BitVec.getLsbD_and, BitVec.getLsbD_not,
    BitVec.getLsbD_shiftLeft, BitVec.getLsbD_shiftLeft, getLsbD_three]
  by_cases low : i < 2
  · have within : 2 * j + i < 64 := by omega
    rcases Nat.lt_trichotomy j k with before | rfl | behind
    · rw [if_neg (by omega), getLsbD_cell]
      simp [low, within, show 2 * j + i < 2 * k by omega]
    · have place : 2 * j + i - 2 * j = i := by omega
      simp [low, within, place, show ¬2 * j + i < 2 * j by omega]
    · have high : 2 ≤ 2 * j + i - 2 * k := by omega
      rw [if_neg (by omega), getLsbD_cell, getLsbD_cellOfBit b high]
      simp [low, within, Nat.not_lt.mpr high]
  · rw [decide_eq_false low, Bool.false_and]
    split
    · rw [getLsbD_cellOfBit b (by omega)]
    · rw [getLsbD_cell, decide_eq_false low, Bool.false_and]

theorem getCell_setCell (w : Word) (b : Bit) (left : j < 32) (right : k < 32) :
    getCell (setCell w k b) j = if j = k then b else getCell w j := by
  change bitOfCell (cell _ j) = _
  rw [cell_setCell w b left right]
  split
  · exact bitOfCell_cellOfBit b
  · rfl

/-- The cells of a word decide it. -/
theorem word_ext (same : ∀ k < 32, getCell w k = getCell w' k) : w = w' := by
  apply BitVec.eq_of_getLsbD_eq
  intro i bound
  have cells : cell w (i / 2) = cell w' (i / 2) := by
    rw [← cellOfBit_bitOfCell w, ← cellOfBit_bitOfCell w']
    exact congrArg cellOfBit (same (i / 2) (by omega))
  have bits := congrArg (·.getLsbD (i % 2)) cells
  have inside : i % 2 < 2 := Nat.mod_lt i (by decide)
  simpa only [getLsbD_cell, inside, decide_true, Bool.true_and, Nat.div_add_mod] using bits

theorem getCell_zero (k : Nat) : getCell 0 k = .zero := by
  change bitOfCell (cell 0 k) = .zero
  rw [bitOfCell_zero]
  simp [cell]

end Words

section Stores

variable {p q : Packed} {i j : Nat} {b : Bit}

@[simp] theorem width_zeros (width : Nat) : (zeros width).width = width := rfl

@[simp] theorem width_set (p : Packed) (i : Nat) (b : Bit) : (p.set i b).width = p.width := rfl

@[simp] theorem size_set (p : Packed) (i : Nat) (b : Bit) :
    (p.set i b).words.size = p.words.size := Array.size_modify

theorem get?_words {w : Word} (found : p.words[i / 32]? = some w) :
    p.get? i = some (getCell w (i % 32)) := by
  rw [get?, found, Option.map_some]

theorem get?_some (stored : i / 32 < p.words.size) : ∃ b, p.get? i = some b :=
  ⟨_, get?_words (Array.getElem?_eq_getElem stored)⟩

theorem get?_set_self (stored : i / 32 < p.words.size) : (p.set i b).get? i = some b := by
  have found : (p.set i b).words[i / 32]? = some (setCell p.words[i / 32] (i % 32) b) := by
    simp [set, stored, Array.getElem_modify_self]
  rw [get?_words found, getCell_setCell _ _ (by omega) (by omega), if_pos rfl]

/-- Another cell may lie in the same word or in another one. -/
theorem get?_set_other (apart : j ≠ i) : (p.set i b).get? j = p.get? j := by
  by_cases same : i / 32 = j / 32
  · have cells : j % 32 ≠ i % 32 := by omega
    simp only [get?, set, Array.getElem?_modify, if_pos same, Option.map_map]
    refine congrArg (Option.map · _) (funext fun w => ?_)
    rw [Function.comp_apply, getCell_setCell w b (by omega) (by omega), if_neg cells]
  · simp [get?, set, Array.getElem?_modify, if_neg same]

end Stores

/-- As many words as the width takes, and nothing in the cells past the width. -/
structure Canonical (p : Packed) : Prop where
  size : p.words.size = wordsFor p.width
  spare : ∀ i w, p.width ≤ i → p.words[i / 32]? = some w → cell w (i % 32) = 0

section Canonical

variable {p q : Packed} {i : Nat} {b : Bit}

theorem Canonical.stored (canonical : p.Canonical) (inside : i < p.width) :
    i / 32 < p.words.size := by
  rw [canonical.size, wordsFor]
  omega

/-- The same in terms of bits. -/
theorem canonical_iff : p.Canonical ↔ p.words.size = wordsFor p.width ∧
    ∀ i, p.width ≤ i → i / 32 < p.words.size → p.get? i = some .zero := by
  constructor
  · rintro ⟨size, spare⟩
    refine ⟨size, fun i outside stored => ?_⟩
    have found := Array.getElem?_eq_getElem stored
    rw [get?_words found, Option.some.injEq]
    exact bitOfCell_zero.mpr (spare i _ outside found)
  · rintro ⟨size, spare⟩
    refine ⟨size, fun i w outside found => ?_⟩
    obtain ⟨stored, -⟩ := Array.getElem?_eq_some_iff.mp found
    have clear := spare i outside stored
    rw [get?_words found, Option.some.injEq] at clear
    exact bitOfCell_zero.mp clear

theorem get?_zeros {width : Nat} (stored : i / 32 < wordsFor width) :
    (zeros width).get? i = some .zero := by
  have found : (zeros width).words[i / 32]? = some 0 := by
    simp [zeros, stored]
  rw [get?_words found, getCell_zero]

theorem canonical_zeros (width : Nat) : (zeros width).Canonical := by
  have size : (zeros width).words.size = wordsFor width := by simp [zeros]
  exact canonical_iff.mpr ⟨size, fun i _ stored => get?_zeros (size ▸ stored)⟩

theorem canonical_set (canonical : p.Canonical) (inside : i < p.width) (b : Bit) :
    (p.set i b).Canonical := by
  obtain ⟨size, spare⟩ := canonical_iff.mp canonical
  refine canonical_iff.mpr ⟨(size_set p i b).trans size, fun j outside stored => ?_⟩
  rw [size_set] at stored
  rw [width_set] at outside
  rw [get?_set_other (by omega)]
  exact spare j outside stored

/-- Canonical values with the same bits are the same words. -/
theorem canonical_ext (left : p.Canonical) (right : q.Canonical) (width : p.width = q.width)
    (same : ∀ i < p.width, p.get? i = q.get? i) : p = q := by
  obtain ⟨size, spare⟩ := canonical_iff.mp left
  obtain ⟨size', spare'⟩ := canonical_iff.mp right
  have sizes : p.words.size = q.words.size := by rw [size, size', width]
  have words : p.words = q.words := by
    refine Array.ext sizes fun k inside inside' => word_ext fun c bound => ?_
    have word : (32 * k + c) / 32 = k := by omega
    have place : (32 * k + c) % 32 = c := by omega
    have bits : p.get? (32 * k + c) = q.get? (32 * k + c) := by
      by_cases within : 32 * k + c < p.width
      · exact same _ within
      · rw [spare _ (by omega) (by omega), spare' _ (by omega) (by omega)]
    simpa [get?, word, place, inside, inside'] using bits
  cases p
  cases q
  simp_all

theorem isZeros_iff (canonical : p.Canonical) :
    p.isZeros = true ↔ ∀ i < p.width, p.get? i = some .zero := by
  constructor
  · intro clear i inside
    have stored := canonical.stored inside
    have none : p.words[i / 32] = 0 := by
      simpa using Array.all_eq_true.mp clear (i / 32) stored
    rw [get?_words (Array.getElem?_eq_getElem stored), none, getCell_zero]
  · intro clear
    have same : p = zeros p.width := by
      refine canonical_ext canonical (canonical_zeros _) rfl fun i inside => ?_
      rw [clear i inside, get?_zeros (canonical.size ▸ canonical.stored inside)]
    rw [same]
    exact Array.all_eq_true.mpr fun k _ => by simp [zeros]

end Canonical

end CombLogic.Packed
