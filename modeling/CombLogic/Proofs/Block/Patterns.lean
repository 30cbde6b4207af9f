import Mathlib.Data.List.Forall2
import CombLogic.Proofs.Block.Overlap

/- Selectors for patterns. Whether a selector is matched for sure is settled at each bit on its own;
   so one that two patterns match, or that only one of them matches, can be put together from bits. -/
namespace CombLogic

namespace Bit

/-- A bit that meets two bits of patterns, if there is one. -/
def common (p q : Bit) : Bit := if p = .z then (if q = .z then .zero else q) else p

/-- A bit that meets the later of two bits of patterns and the earlier one only if it must. -/
def escape (earlier later : Bit) : Bit :=
  if later = .z then (if earlier = .zero then .one else .zero) else later

variable {s p q : Bit}

theorem meets_known (meets : s.Meets p) : p ≠ .x := by
  rintro rfl
  obtain impossible | ⟨known, rfl⟩ := meets
  · cases impossible
  · cases known

/-- Overlapping bits are met by one bit unless one of them is unknown. -/
theorem common_meets (overlap : Coverage.bitsOverlap p q = true) (known : p ≠ .x)
    (known' : q ≠ .x) : (common p q).Meets p ∧ (common p q).Meets q := by
  cases p <;> cases q <;> simp_all [Coverage.bitsOverlap, common, Meets, isKnown]

/-- A bit that covers another one is met wherever that is. -/
theorem covers_meets (covers : Coverage.bitCovers p q = true) (meets : s.Meets q) : s.Meets p := by
  cases s <;> cases p <;> cases q <;> simp_all [Coverage.bitCovers, Meets, isKnown]

theorem escape_meets (known : q ≠ .x) : (escape p q).Meets q := by
  cases p <;> cases q <;> simp_all [escape, Meets, isKnown]

theorem escape_covers (meets : (escape p q).Meets p) : Coverage.bitCovers p q = true := by
  cases p <;> cases q <;> simp_all [escape, Coverage.bitCovers, Meets, isKnown]

end Bit

namespace Coverage

variable {wildcard : Bool} {s p q : Value}

theorem covers_wild : valueCovers true p q = true ↔
    List.Forall₂ (fun a b => bitCovers a b = true) p.bits q.bits := by
  rw [valueCovers, if_pos rfl, all_zipWith]

/-- A pattern with an unknown bit matches nothing for sure. -/
theorem accepts_known (accepts : Accepts true s p) : .x ∉ p.bits := by
  intro unknown
  obtain ⟨b, -, meets⟩ := forall₂_right (accepts_wild.mp accepts) .x unknown
  exact Bit.meets_known meets rfl

/-- Known bits that overlap are met by one list of bits. -/
theorem overlap_met {ps qs : List Bit}
    (overlap : List.Forall₂ (fun p q => bitsOverlap p q = true) ps qs) (known : .x ∉ ps)
    (known' : .x ∉ qs) : ∃ ss, List.Forall₂ Bit.Meets ss ps ∧ List.Forall₂ Bit.Meets ss qs := by
  induction overlap with
  | nil => exact ⟨[], .nil, .nil⟩
  | cons here _ ih =>
    obtain ⟨first, later⟩ := List.ne_and_not_mem_of_not_mem_cons known
    obtain ⟨first', later'⟩ := List.ne_and_not_mem_of_not_mem_cons known'
    obtain ⟨meets, meets'⟩ := Bit.common_meets here first.symm first'.symm
    obtain ⟨ss, met, met'⟩ := ih later later'
    exact ⟨_ :: ss, .cons meets met, .cons meets' met'⟩

/-- Two patterns have a selector in common exactly if they overlap and, as far as they have wildcards,
    no unknown bits. -/
theorem common_iff : (∃ s, Accepts wildcard s p ∧ Accepts wildcard s q) ↔
    valuesOverlap wildcard p q = true ∧ (wildcard = true → .x ∉ p.bits ∧ .x ∉ q.bits) := by
  constructor
  · rintro ⟨s, first, second⟩
    refine ⟨accepts_overlap first second, ?_⟩
    rintro rfl
    exact ⟨accepts_known first, accepts_known second⟩
  · rintro ⟨overlap, known⟩
    cases wildcard with
    | false =>
      have same : p = q := by simpa [valuesOverlap] using overlap
      exact ⟨p, rfl, same⟩
    | true =>
      obtain ⟨known, known'⟩ := known rfl
      obtain ⟨ss, met, met'⟩ := overlap_met (overlap_wild.mp overlap) known known'
      exact ⟨⟨ss⟩, accepts_wild.mpr met, accepts_wild.mpr met'⟩

theorem known_met {qs : List Bit} (known : .x ∉ qs) : ∃ ss, List.Forall₂ Bit.Meets ss qs := by
  refine ⟨qs.map (Bit.escape .zero), List.forall₂_map_left_iff.mpr (List.forall₂_same.mpr ?_)⟩
  intro q listed
  exact Bit.escape_meets (ne_of_mem_of_not_mem listed known)

/-- If a pattern is met wherever a known one is, then its bits cover those of the other, since some
    selector would escape it at any bit that does not. -/
theorem covers_of_follows {ps qs : List Bit} (known : .x ∉ qs)
    (follows : ∀ ss, List.Forall₂ Bit.Meets ss qs → List.Forall₂ Bit.Meets ss ps) :
    List.Forall₂ (fun p q => bitCovers p q = true) ps qs := by
  induction qs generalizing ps with
  | nil =>
    cases follows [] .nil
    exact .nil
  | cons q qs ih =>
    obtain ⟨first, later⟩ := List.ne_and_not_mem_of_not_mem_cons known
    have extend : ∀ (p : Bit) (ss : List Bit), List.Forall₂ Bit.Meets ss qs →
        List.Forall₂ Bit.Meets (p.escape q :: ss) ps :=
      fun p ss met => follows _ (.cons (Bit.escape_meets first.symm) met)
    obtain ⟨ss, met⟩ := known_met later
    cases ps with
    | nil => cases extend .zero ss met
    | cons p ps =>
      obtain ⟨here, -⟩ := List.forall₂_cons.mp (extend p ss met)
      refine .cons (Bit.escape_covers here) (ih later fun ss' met' => ?_)
      exact (List.forall₂_cons.mp (extend p ss' met')).2

/-- What a later pattern matches for sure, one that covers it matches too. -/
theorem covers_accepts (covers : valueCovers wildcard p q = true)
    (accepts : Accepts wildcard s q) : Accepts wildcard s p := by
  cases wildcard with
  | false =>
    obtain rfl : p = q := by simpa [valueCovers] using covers
    exact accepts
  | true =>
    have met := accepts_wild.mp accepts
    refine accepts_wild.mpr ((forall₂_join met.flip (covers_wild.mp covers).flip).imp ?_)
    rintro b c ⟨d, -, meets, here⟩
    exact Bit.covers_meets here meets

/-- Covering is matching wherever the later pattern does, if that matches anything. -/
theorem covers_iff (known : wildcard = true → .x ∉ q.bits) : valueCovers wildcard p q = true ↔
    ∀ s, Accepts wildcard s q → Accepts wildcard s p := by
  refine ⟨fun covers s => covers_accepts covers, fun follows => ?_⟩
  cases wildcard with
  | false =>
    have same : q = p := follows q rfl
    simp [valueCovers, same]
  | true =>
    refine covers_wild.mpr (covers_of_follows (known rfl) fun ss met => ?_)
    exact accepts_wild.mp (follows ⟨ss⟩ (accepts_wild.mpr met))

end Coverage

end CombLogic
