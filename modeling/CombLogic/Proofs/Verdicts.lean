import Mathlib.Data.List.Forall2
import CombLogic.Value.Bitwise

/- Answers about values with unknown bits. A bit that is not known may turn out to be 0 or 1, in any
   combination with the others. A match or a count of ones is answered with 1 or 0 exactly if all
   ways in which the bits may turn out have that answer, and with X exactly if both of them occur. -/
namespace CombLogic

namespace Bit

/-- How a bit may turn out: a known one as it is, any other one as 0 or 1. -/
def MayBe (b w : Bit) : Prop := w.isKnown = true ∧ (b.isKnown = true → w = b)

/-- The same for a bit of a pattern, where a Z stays a wildcard. -/
def MayMean (p q : Bit) : Prop := (p = .z → q = .z) ∧ (p ≠ .z → p.MayBe q)

/-- Equal, unless the place is a wildcard. -/
def Equals (s p : Bit) : Prop := p = .z ∨ s = p

/-- A verdict on a question to which the answers yes and no may occur: 1 rules out a no, 0 rules out
    a yes, and X says that both occur. -/
structure Tells (verdict : Bit) (yes no : Prop) : Prop where
  one : verdict = .one ↔ ¬no
  zero : verdict = .zero ↔ ¬yes
  x : verdict = .x ↔ yes ∧ no

variable {b c s p : Bit} {yes no yes' no' : Prop}

theorem tells_congr (tells : b.Tells yes no) (same : yes ↔ yes') (same' : no ↔ no') :
    b.Tells yes' no' :=
  ⟨tells.one.trans (not_congr same'), tells.zero.trans (not_congr same),
    tells.x.trans (and_congr same same')⟩

theorem tells_ne_z (tells : b.Tells yes no) : b ≠ .z := by
  obtain ⟨one, zero, x⟩ := tells
  cases b <;> simp_all

/-- Of two questions that do not depend on each other, both are answered with yes as far as the
    conjunction of the verdicts says. -/
theorem tells_and (first : b.Tells yes no) (second : c.Tells yes' no') :
    (b.and c).Tells (yes ∧ yes') (no ∨ no') := by
  obtain ⟨one, zero, x⟩ := first
  obtain ⟨one', zero', x'⟩ := second
  constructor
  all_goals cases b <;> cases c <;> simp_all [and]

theorem exists_bit {P : Bit → Prop} : (∃ b, P b) ↔ P zero ∨ P one ∨ P x ∨ P z := by
  constructor
  · rintro ⟨b, holds⟩
    cases b <;> simp [holds]
  · rintro (holds | holds | holds | holds) <;> exact ⟨_, holds⟩

theorem matchBit_tells (s p : Bit) : (Value.matchBit s p).Tells
    (∃ s' p', s.MayBe s' ∧ p.MayMean p' ∧ s'.Equals p')
    (∃ s' p', s.MayBe s' ∧ p.MayMean p' ∧ ¬s'.Equals p') := by
  constructor
  all_goals
    simp only [exists_bit]
    cases s <;> cases p <;> simp [Value.matchBit, MayBe, MayMean, Equals, isKnown]

theorem mayBe_some (b : Bit) : ∃ w, b.MayBe w := by
  simp only [exists_bit]
  cases b <;> simp [MayBe, isKnown]

theorem mayMean_some (p : Bit) : ∃ q, p.MayMean q := by
  simp only [exists_bit]
  cases p <;> simp [MayMean, MayBe, isKnown]

end Bit

namespace Value

def MayBe (v w : Value) : Prop := List.Forall₂ Bit.MayBe v.bits w.bits

def MayMean (p q : Value) : Prop := List.Forall₂ Bit.MayMean p.bits q.bits

def Equals (s p : Value) : Prop := List.Forall₂ Bit.Equals s.bits p.bits

/-- How the bits of a value and of a pattern may turn out. -/
def Ways (ss ps ss' ps' : List Bit) : Prop :=
  List.Forall₂ Bit.MayBe ss ss' ∧ List.Forall₂ Bit.MayMean ps ps'

variable {s p : Bit} {ss ps : List Bit}

theorem ways_cons {P : List Bit → List Bit → Prop} :
    (∃ xs ys, Ways (s :: ss) (p :: ps) xs ys ∧ P xs ys) ↔
      ∃ s' p', s.MayBe s' ∧ p.MayMean p' ∧
        ∃ ss' ps', Ways ss ps ss' ps' ∧ P (s' :: ss') (p' :: ps') := by
  constructor
  · rintro ⟨_, _, ⟨here, there⟩, holds⟩
    cases here with
    | cons first later =>
      cases there with
      | cons first' later' => exact ⟨_, _, first, first', _, _, ⟨later, later'⟩, holds⟩
  · rintro ⟨s', p', first, first', ss', ps', ⟨later, later'⟩, holds⟩
    exact ⟨s' :: ss', p' :: ps', ⟨.cons first later, .cons first' later'⟩, holds⟩

theorem some_way (ss ps : List Bit) : ∃ ss' ps', Ways ss ps ss' ps' := by
  have exists_all : ∀ {R : Bit → Bit → Prop}, (∀ b, ∃ w, R b w) →
      ∀ bs, ∃ ws, List.Forall₂ R bs ws := by
    intro R some bs
    induction bs with
    | nil => exact ⟨[], .nil⟩
    | cons b bs ih =>
      obtain ⟨w, here⟩ := some b
      obtain ⟨ws, later⟩ := ih
      exact ⟨w :: ws, .cons here later⟩
  obtain ⟨ss', first⟩ := exists_all Bit.mayBe_some ss
  obtain ⟨ps', second⟩ := exists_all Bit.mayMean_some ps
  exact ⟨ss', ps', first, second⟩

theorem matchWildBits_tells (long : ss.length = ps.length) : (matchWildBits ss ps).Tells
    (∃ ss' ps', Ways ss ps ss' ps' ∧ List.Forall₂ Bit.Equals ss' ps')
    (∃ ss' ps', Ways ss ps ss' ps' ∧ ¬List.Forall₂ Bit.Equals ss' ps') := by
  induction ss generalizing ps with
  | nil =>
    obtain rfl := List.length_eq_zero_iff.mp long.symm
    constructor <;> simp [matchWildBits, Ways]
  | cons s ss ih =>
    obtain ⟨p, ps, rfl⟩ := List.exists_cons_of_length_eq_add_one long.symm
    have here := Bit.matchBit_tells s p
    have later := ih (by simpa using long)
    refine Bit.tells_congr (Bit.tells_and here later) ?_ ?_
    · rw [ways_cons]
      simp only [List.forall₂_cons]
      constructor
      · rintro ⟨⟨s', p', first, first', equal⟩, ss', ps', way, equals⟩
        exact ⟨s', p', first, first', ss', ps', way, equal, equals⟩
      · rintro ⟨s', p', first, first', ss', ps', way, equal, equals⟩
        exact ⟨⟨s', p', first, first', equal⟩, ss', ps', way, equals⟩
    · rw [ways_cons]
      simp only [List.forall₂_cons, not_and_or]
      constructor
      · rintro (⟨s', p', first, first', differ⟩ | ⟨ss', ps', way, differ⟩)
        · obtain ⟨ss', ps', way⟩ := some_way ss ps
          exact ⟨s', p', first, first', ss', ps', way, .inl differ⟩
        · obtain ⟨s', first⟩ := Bit.mayBe_some s
          obtain ⟨p', first'⟩ := Bit.mayMean_some p
          exact ⟨s', p', first, first', ss', ps', way, .inr differ⟩
      · rintro ⟨s', p', first, first', ss', ps', way, differ⟩
        exact differ.imp (⟨s', p', first, first', ·⟩) (⟨ss', ps', way, ·⟩)

/-- The loop over the bits: a definite difference ends it, whatever was left open before. -/
def scanWild : Bit → List Bit → List Bit → Bit
  | verdict, s :: ss, p :: ps =>
    match matchBit s p with
    | .one => scanWild verdict ss ps
    | .zero => .zero
    | _ => scanWild .x ss ps
  | verdict, _, _ => verdict

theorem scanWild_and {verdict : Bit} (undenied : verdict = .one ∨ verdict = .x) (ss ps : List Bit) :
    scanWild verdict ss ps = verdict.and (matchWildBits ss ps) := by
  induction ss generalizing verdict ps with
  | nil => rcases undenied with rfl | rfl <;> rfl
  | cons s ss ih =>
    cases ps with
    | nil => rcases undenied with rfl | rfl <;> rfl
    | cons p ps =>
      rw [scanWild, matchWildBits]
      cases matchBit s p with
      | one =>
        simp only [ih undenied]
        rcases undenied with rfl | rfl <;> cases matchWildBits ss ps <;> rfl
      | zero => rcases undenied with rfl | rfl <;> rfl
      | x | z =>
        simp only [ih (.inr rfl)]
        rcases undenied with rfl | rfl <;> cases matchWildBits ss ps <;> rfl

/-- Exactly the numbers from that of the ones to that of the bits that may be 1 occur. -/
theorem ones_mayBe (bits : List Bit) (k : Nat) :
    (∃ ws, List.Forall₂ Bit.MayBe bits ws ∧ ws.countP (· == .one) = k) ↔
      bits.countP (· == .one) ≤ k ∧
        k ≤ bits.countP (· == .one) + bits.countP (!·.isKnown) := by
  induction bits generalizing k with
  | nil => simp [eq_comm]
  | cons b bits ih =>
    have split : (∃ ws, List.Forall₂ Bit.MayBe (b :: bits) ws ∧ ws.countP (· == .one) = k) ↔
        ∃ w, b.MayBe w ∧ w.toNat ≤ k ∧ ∃ ws, List.Forall₂ Bit.MayBe bits ws ∧
          ws.countP (· == .one) = k - w.toNat := by
      constructor
      · rintro ⟨_, ways, rfl⟩
        cases ways with
        | @cons _ w _ ws here later =>
          refine ⟨w, here, ?_, ws, later, ?_⟩
          · cases w <;> simp [Bit.toNat]
          · cases w <;> simp [Bit.toNat]
      · rintro ⟨w, here, bound, ws, later, count⟩
        refine ⟨w :: ws, .cons here later, ?_⟩
        rw [List.countP_cons, count]
        cases w <;> simp_all [Bit.toNat]
    rw [split]
    simp only [ih, Bit.exists_bit]
    cases b <;> simp [Bit.MayBe, Bit.isKnown, Bit.toNat] <;> omega

/-- The verdict of a match is what all ways in which the bits may turn out have in common. -/
theorem matchWild_tells {v pattern : Value} (wide : v.width = pattern.width) :
    ∃ verdict, v.matchWild pattern = .ok verdict ∧ verdict.Tells
      (∃ w q, v.MayBe w ∧ pattern.MayMean q ∧ w.Equals q)
      (∃ w q, v.MayBe w ∧ pattern.MayMean q ∧ ¬w.Equals q) := by
  refine ⟨_, if_pos wide, Bit.tells_congr (matchWildBits_tells wide) ?_ ?_⟩
  · constructor
    · rintro ⟨ws, qs, way, equal⟩
      exact ⟨⟨ws⟩, ⟨qs⟩, way.1, way.2, equal⟩
    · rintro ⟨w, q, first, second, equal⟩
      exact ⟨w.bits, q.bits, ⟨first, second⟩, equal⟩
  · constructor
    · rintro ⟨ws, qs, way, differ⟩
      exact ⟨⟨ws⟩, ⟨qs⟩, way.1, way.2, differ⟩
    · rintro ⟨w, q, first, second, differ⟩
      exact ⟨w.bits, q.bits, ⟨first, second⟩, differ⟩

/-- The number of bits that are 1. -/
def hot (v : Value) : Nat := v.bits.countP (· == .one)

theorem multiHot_tells (v : Value) : ∃ verdict, v.multiHot = ofBit verdict ∧
    verdict.Tells (∃ w, v.MayBe w ∧ 2 ≤ w.hot) (∃ w, v.MayBe w ∧ w.hot < 2) := by
  have counts : ∀ P : Nat → Prop, (∃ w, v.MayBe w ∧ P w.hot) ↔
      ∃ k, v.hot ≤ k ∧ k ≤ v.hot + v.bits.countP (!·.isKnown) ∧ P k := by
    intro P
    constructor
    · rintro ⟨w, way, holds⟩
      have range := (ones_mayBe v.bits w.hot).mp ⟨w.bits, way, rfl⟩
      exact ⟨w.hot, range.1, range.2, holds⟩
    · rintro ⟨k, least, most, holds⟩
      obtain ⟨ws, way, count⟩ := (ones_mayBe v.bits k).mpr ⟨least, most⟩
      exact ⟨⟨ws⟩, way, by rwa [hot, count]⟩
  have several : (∃ w, v.MayBe w ∧ 2 ≤ w.hot) ↔ 2 ≤ v.hot + v.bits.countP (!·.isKnown) := by
    rw [counts]
    constructor
    · rintro ⟨k, least, most, holds⟩
      omega
    · intro holds
      exact ⟨_, Nat.le_add_right _ _, Nat.le_refl _, holds⟩
  have few : (∃ w, v.MayBe w ∧ w.hot < 2) ↔ v.hot < 2 := by
    rw [counts (· < 2)]
    constructor
    · rintro ⟨k, least, most, holds⟩
      omega
    · intro holds
      exact ⟨v.hot, Nat.le_refl _, Nat.le_add_right _ _, holds⟩
  refine ⟨_, rfl, Bit.tells_congr ?_ several.symm few.symm⟩
  rw [← hot]
  constructor
  all_goals
    split
    · simp; omega
    · split
      · simp; omega
      · simp; omega

/-- Verdicts say neither too much nor too little. The loop over the bits, which a definite
    difference ends, comes to the same verdict. -/
theorem verdicts_exact :
    (∀ v pattern : Value, v.width = pattern.width →
      ∃ verdict, v.matchWild pattern = .ok verdict ∧ scanWild .one v.bits pattern.bits = verdict ∧
        (verdict = .one ↔ ∀ w q, v.MayBe w → pattern.MayMean q → w.Equals q) ∧
        (verdict = .zero ↔ ∀ w q, v.MayBe w → pattern.MayMean q → ¬w.Equals q) ∧
        (verdict = .x ↔ (∃ w q, v.MayBe w ∧ pattern.MayMean q ∧ w.Equals q) ∧
          ∃ w q, v.MayBe w ∧ pattern.MayMean q ∧ ¬w.Equals q)) ∧
    ∀ v : Value, ∃ verdict, v.multiHot = ofBit verdict ∧
      (verdict = .one ↔ ∀ w, v.MayBe w → 2 ≤ w.hot) ∧
      (verdict = .zero ↔ ∀ w, v.MayBe w → w.hot < 2) ∧
      (verdict = .x ↔ (∃ w, v.MayBe w ∧ 2 ≤ w.hot) ∧ ∃ w, v.MayBe w ∧ w.hot < 2) := by
  constructor
  · intro v pattern wide
    obtain ⟨verdict, matched, tells⟩ := matchWild_tells wide
    refine ⟨verdict, matched, ?_, ?_, ?_, tells.x⟩
    · obtain rfl : matchWildBits v.bits pattern.bits = verdict := by
        simpa [matchWild, wide] using matched
      rw [scanWild_and (.inl rfl)]
      cases here : matchWildBits v.bits pattern.bits with
      | z => exact (Bit.tells_ne_z tells here).elim
      | _ => rfl
    · simp only [tells.one, not_exists, not_and, not_not]
    · simp only [tells.zero, not_exists, not_and]
  · intro v
    obtain ⟨verdict, counted, tells⟩ := multiHot_tells v
    refine ⟨verdict, counted, ?_, ?_, tells.x⟩
    · simp only [tells.one, not_exists, not_and, Nat.not_lt]
    · simp only [tells.zero, not_exists, not_and, Nat.not_le]

/-- A 1 in place of the X of the pattern differs from the value, and a 0 does not. -/
theorem open_match :
    let v : Value := ⟨[.zero, .one, .one]⟩
    let pattern : Value := ⟨[.x, .z, .one]⟩
    v.matchWild pattern = .ok .x ∧
      ((∃ w q, v.MayBe w ∧ pattern.MayMean q ∧ w.Equals q) ∧
        ∃ w q, v.MayBe w ∧ pattern.MayMean q ∧ ¬w.Equals q) ∧
      (∃ w, MayBe ⟨[.one, .x, .zero]⟩ w ∧ 2 ≤ w.hot) := by
  intro v pattern
  obtain ⟨verdict, matched, scanned, _, _, both⟩ := verdicts_exact.1 v pattern rfl
  obtain ⟨verdict', counted, _, _, both'⟩ := verdicts_exact.2 ⟨[.one, .x, .zero]⟩
  obtain rfl : verdict = .x := scanned.symm.trans rfl
  obtain rfl : verdict' = .x := by
    have same : ofBit .x = ofBit verdict' := counted
    simpa [ofBit] using same.symm
  exact ⟨matched, both.mp rfl, (both'.mp rfl).1⟩

end Value

end CombLogic
