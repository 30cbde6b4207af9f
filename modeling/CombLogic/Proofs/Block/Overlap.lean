import CombLogic.Proofs.Block.Watches

/- Overlap of constant patterns against matching. Two patterns that match one selector value for sure
   overlap, whatever is unknown in them or in the value. So where no two items of a case overlap, no two
   of its match bits are 1. -/
namespace CombLogic

open Expr

namespace Bit

variable {s p q : Bit}

/-- A bit of a selector meets one of a pattern for sure. -/
def Meets (s p : Bit) : Prop := p = .z ∨ s.isKnown = true ∧ s = p

theorem matchBit_one : Value.matchBit s p = .one ↔ s.Meets p := by
  cases s <;> cases p <;> simp [Value.matchBit, Meets, isKnown]

theorem meets_overlap (first : s.Meets p) (second : s.Meets q) :
    Coverage.bitsOverlap p q = true := by
  cases s <;> cases p <;> cases q <;> simp_all [Coverage.bitsOverlap, Meets, isKnown]

end Bit

namespace Coverage

/-- A pattern matches a selector value for sure. -/
def Accepts (wildcard : Bool) (selector pattern : Value) : Prop :=
  if wildcard then selector.matchWild pattern = .ok .one else selector = pattern

variable {wildcard : Bool} {s p q : Value} {item item' : List (Option Value)}

theorem matchWildBits_one {ss ps : List Bit} (long : ss.length = ps.length) :
    Value.matchWildBits ss ps = .one ↔ List.Forall₂ Bit.Meets ss ps := by
  have both : ∀ a b : Bit, a.and b = .one ↔ a = .one ∧ b = .one := by
    intro a b
    cases a <;> cases b <;> decide
  induction ss generalizing ps with
  | nil =>
    obtain rfl := List.length_eq_zero_iff.mp long.symm
    simp [Value.matchWildBits]
  | cons s ss ih =>
    obtain ⟨p, ps, rfl⟩ := List.exists_cons_of_length_eq_add_one long.symm
    have later : Value.matchWildBits ss ps = .one ↔ List.Forall₂ Bit.Meets ss ps :=
      ih (by simpa using long)
    rw [Value.matchWildBits, both, Bit.matchBit_one, List.forall₂_cons]
    exact and_congr_right fun _ => later

/-- With wildcards, a selector is matched if all its bits are met. -/
theorem accepts_wild : Accepts true s p ↔ List.Forall₂ Bit.Meets s.bits p.bits := by
  have wild : Accepts true s p ↔ s.matchWild p = .ok .one := Iff.rfl
  rw [wild, Value.matchWild]
  constructor
  · intro matched
    split at matched
    · exact (matchWildBits_one ‹_›).mp (Except.ok.inj matched)
    · nomatch matched
  · intro meets
    have long : s.width = p.width := meets.length_eq
    rw [if_pos long, (matchWildBits_one long).mpr meets]

theorem all_zipWith {f : Bit → Bit → Bool} : (p.width == q.width &&
    (List.zipWith f p.bits q.bits).all id) = true ↔
      List.Forall₂ (fun a b => f a b = true) p.bits q.bits := by
  rw [List.forall₂_iff_zip, Bool.and_eq_true, beq_iff_eq, List.all_eq_true]
  refine and_congr_right fun _ => ?_
  rw [← List.map_uncurry_zip_eq_zipWith]
  simp

theorem overlap_wild : valuesOverlap true p q = true ↔
    List.Forall₂ (fun a b => bitsOverlap a b = true) p.bits q.bits := by
  rw [valuesOverlap, if_pos rfl, all_zipWith]

theorem accepts_overlap (first : Accepts wildcard s p) (second : Accepts wildcard s q) :
    valuesOverlap wildcard p q = true := by
  cases wildcard with
  | false =>
    obtain rfl : s = p := first
    obtain rfl : s = q := second
    simp [valuesOverlap]
  | true =>
    have paired := forall₂_join (accepts_wild.mp first) (accepts_wild.mp second)
    refine overlap_wild.mpr (paired.imp ?_)
    rintro b c ⟨d, -, meets, meets'⟩
    exact Bit.meets_overlap meets meets'

/-- Some constant pattern of an item matches a selector value for sure. -/
def Takes (wildcard : Bool) (s : Value) (item : List (Option Value)) : Prop :=
  ∃ p, some p ∈ item ∧ Accepts wildcard s p

theorem itemsOverlap_iff : itemsOverlap wildcard item item' = true ↔
    ∃ p q, some p ∈ item ∧ some q ∈ item' ∧ valuesOverlap wildcard p q = true := by
  unfold itemsOverlap
  constructor
  · intro overlap
    obtain ⟨_ | p, first, overlap⟩ := List.any_eq_true.mp overlap
    · nomatch overlap
    · obtain ⟨_ | q, second, overlap⟩ := List.any_eq_true.mp overlap
      · nomatch overlap
      · exact ⟨p, q, first, second, overlap⟩
  · intro ⟨p, q, first, second, overlap⟩
    apply List.any_eq_true.mpr
    exact ⟨some p, first, List.any_eq_true.mpr ⟨some q, second, overlap⟩⟩

theorem takes_overlap (first : Takes wildcard s item) (second : Takes wildcard s item') :
    itemsOverlap wildcard item item' = true := by
  obtain ⟨p, inside, here⟩ := first
  obtain ⟨q, inside', there⟩ := second
  exact itemsOverlap_iff.mpr ⟨p, q, inside, inside', accepts_overlap here there⟩

theorem overlapsFrom_nil {items : List (List (Option Value) × Nat)} :
    overlapsFrom wildcard items = [] ↔
      (items.map Prod.fst).Pairwise fun a b => itemsOverlap wildcard a b = false := by
  induction items with
  | nil => simp [overlapsFrom]
  | cons first rest ih =>
    obtain ⟨item, place⟩ := first
    simp [overlapsFrom, ih, List.filter_eq_nil_iff]

/-- No pair is found exactly if no two items overlap. -/
theorem overlaps_nil {shape : Shape} : overlaps shape = [] ↔
    shape.items.Pairwise fun a b => itemsOverlap shape.kind.wildcard a b = false := by
  rw [overlaps, overlapsFrom_nil, List.zipIdx_map_fst]

/-- Then no value is taken by two of them. -/
theorem taken_once {shape : Shape} (apart : overlaps shape = []) (s : Value) :
    shape.items.Pairwise fun a b =>
      ¬(Takes shape.kind.wildcard s a ∧ Takes shape.kind.wildcard s b) := by
  refine (overlaps_nil.mp apart).imp fun {a b} none both => ?_
  cases none.symm.trans (takes_overlap both.1 both.2)

section

variable {shape : Shape} {settings : BlockSettings} {i j : Nat}

theorem mem_overlapsFrom {rows : List (List (Option Value) × Nat)}
    (ordered : rows.Pairwise fun p q => p.2 < q.2) : (i, j) ∈ overlapsFrom wildcard rows ↔
      i < j ∧ ∃ a b, (a, i) ∈ rows ∧ (b, j) ∈ rows ∧ itemsOverlap wildcard a b = true := by
  induction rows with
  | nil => simp [overlapsFrom]
  | cons first rest ih =>
    obtain ⟨item, place⟩ := first
    obtain ⟨below, later⟩ := List.pairwise_cons.mp ordered
    rw [overlapsFrom, List.mem_append, ih later]
    constructor
    · rintro (own | ⟨less, a, b, here, there, overlap⟩)
      · obtain ⟨⟨b, j'⟩, kept, same⟩ := List.mem_map.mp own
        obtain ⟨there, overlap⟩ := List.mem_filter.mp kept
        cases same
        exact ⟨below _ there, item, b, List.mem_cons_self, List.mem_cons_of_mem _ there, overlap⟩
      · exact ⟨less, a, b, List.mem_cons_of_mem _ here, List.mem_cons_of_mem _ there, overlap⟩
    · rintro ⟨less, a, b, here, there, overlap⟩
      rcases List.mem_cons.mp there with same | behind
      · -- nothing stands before the first item
        cases same
        rcases List.mem_cons.mp here with same | here
        · cases same
          omega
        · have after := below _ here
          omega
      · rcases List.mem_cons.mp here with same | here
        · cases same
          exact .inl (List.mem_map.mpr ⟨(b, j), List.mem_filter.mpr ⟨behind, overlap⟩, rfl⟩)
        · exact .inr ⟨less, a, b, here, behind, overlap⟩

/-- Any two items that overlap are found. -/
theorem mem_overlaps : (i, j) ∈ overlaps shape ↔ i < j ∧ ∃ a b, shape.items[i]? = some a ∧
    shape.items[j]? = some b ∧ itemsOverlap shape.kind.wildcard a b = true := by
  have ordered : shape.items.zipIdx.Pairwise fun p q => p.2 < q.2 := by
    rw [← List.pairwise_map, List.zipIdx_map_snd]
    exact List.pairwise_lt_range'
  simp only [overlaps, mem_overlapsFrom ordered, List.mk_mem_zipIdx_iff_getElem?]

theorem check_error {x : BlockError} (failed : check settings shape = .error x) :
    shape.kind.unique = true ∧ settings.overlapRule = .deny ∧
      ∃ i j, (i, j) ∈ overlaps shape ∧ x = .overlap shape.selector i j := by
  unfold check at failed
  split at failed
  · rename_i unique
    split at failed
    · cases failed
    · rename_i i j rest denied found
      cases failed
      exact ⟨unique, denied, i, j, found ▸ List.mem_cons_self, rfl⟩
    · cases failed
  · split at failed <;> cases failed

end

end Coverage

end CombLogic
