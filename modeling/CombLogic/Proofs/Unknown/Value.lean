import Mathlib.Data.List.Forall2
import CombLogic.Proofs.Netlist.Lookup
import CombLogic.Proofs.Width.Value

/- Values with unknown bits. A value is below another one if it is the same but for bits that it leaves
   unknown. No operation gives a bit that it would not give if more bits of its operands were known. -/
namespace CombLogic

/-- An unknown bit, or the same bit. -/
def Bit.Below (a b : Bit) : Prop := a = .x ∨ a = b

instance (a b : Bit) : Decidable (a.Below b) := inferInstanceAs (Decidable (_ ∨ _))

def Value.Below (a b : Value) : Prop := List.Forall₂ Bit.Below a.bits b.bits

instance (a b : Value) : Decidable (a.Below b) :=
  inferInstanceAs (Decidable (List.Forall₂ Bit.Below a.bits b.bits))

namespace Bit

variable {a b a' b' : Bit}

theorem below_refl (b : Bit) : b.Below b := .inr rfl

theorem known_below (below : a.Below b) (known : a.isKnown = true) : a = b := by
  rcases below with rfl | same
  · simp [isKnown] at known
  · exact same

theorem not_below (below : a.Below b) : a.not.Below b.not := by
  rcases below with rfl | rfl
  · exact .inl rfl
  · exact below_refl _

theorem and_below (left : a.Below a') (right : b.Below b') : (a.and b).Below (a'.and b') := by
  cases a <;> cases b <;> cases a' <;> cases b' <;> simp_all [and, Below]

theorem or_below (left : a.Below a') (right : b.Below b') : (a.or b).Below (a'.or b') := by
  cases a <;> cases b <;> cases a' <;> cases b' <;> simp_all [or, Below]

theorem xor_below (left : a.Below a') (right : b.Below b') : (a.xor b).Below (a'.xor b') := by
  cases a <;> cases b <;> cases a' <;> cases b' <;> simp_all [xor, Below]

/-- Only a Z of the pattern itself is a wildcard, and a bit below a Z is unknown. -/
theorem matchBit_below (left : a.Below a') (right : b.Below b') :
    (Value.matchBit a b).Below (Value.matchBit a' b') := by
  cases a <;> cases b <;> cases a' <;> cases b' <;> simp_all [Value.matchBit, Below]

end Bit

namespace Value

variable {a b a' b' v v' : Value}

theorem below_refl (v : Value) : v.Below v :=
  List.forall₂_same.mpr fun b _ => Bit.below_refl b

theorem width_below (below : a.Below b) : a.width = b.width := below.length_eq

theorem ofBit_below {b b' : Bit} (below : b.Below b') : (ofBit b).Below (ofBit b') :=
  .cons below .nil

theorem fill_below {b b' : Bit} (below : b.Below b') (width : Nat) :
    (fill width b).Below (fill width b') := by
  refine List.forall₂_iff_get.mpr ⟨by simp [fill], fun i _ _ => ?_⟩
  simpa [fill] using below

theorem unknown_below {width : Nat} (wide : v.width = width) : (unknown width).Below v := by
  refine List.forall₂_iff_get.mpr ⟨?_, fun i _ _ => .inl ?_⟩
  · simpa [unknown, fill, Value.width] using wide.symm
  · simp [unknown, fill]

/-- A value without unknown bits is below no other one. -/
theorem known_below (below : a.Below b) (known : a.isKnown = true) : a = b := by
  obtain ⟨as⟩ := a
  obtain ⟨bs⟩ := b
  simp only [isKnown, List.all_eq_true] at known
  have same : List.Forall₂ (· = ·) as bs := by
    have each := (List.forall₂_and_left as bs).mpr ⟨known, below⟩
    exact each.imp fun _ _ here => Bit.known_below here.2 here.1
  rw [List.forall₂_eq_eq_eq] at same
  rw [same]

theorem toNat?_below (below : a.Below b) {n : Nat} (known : a.toNat? = some n) :
    b.toNat? = some n := by
  have every : a.isKnown = true := by
    by_contra unknown
    simp [toNat?, unknown] at known
  exact known_below below every ▸ known

/-- A result that is unknown unless a number is known. -/
theorem decided_below {m n : Option Nat} {f g : Nat → Value} {width : Nat}
    (each : ∀ k, (f k).Below (g k)) (wide : ∀ k, (g k).width = width) :
    (∀ k, m = some k → n = some k) →
      (match m with | some k => f k | none => unknown width).Below
        (match n with | some k => g k | none => unknown width) := by
  intro later
  cases m with
  | some k =>
    rw [later k rfl]
    exact each k
  | none =>
    refine unknown_below ?_
    cases n with
    | none => exact width_unknown width
    | some k => exact wide k

theorem align_alignable {operation : String} {p q : Value}
    (done : align operation a b = .ok (p, q)) : Alignable a.width b.width := by
  unfold align at done
  split at done
  · rename_i same
    exact .inl same
  · split at done
    · rename_i bit bits
      exact .inr (.inl (single_bit.mpr ⟨bit, bits⟩))
    · rename_i bit bits _
      exact .inr (.inr (single_bit.mpr ⟨bit, bits⟩))
    · cases done

theorem align_below {operation : String} {p q p' q' : Value} (left : a.Below a')
    (right : b.Below b') (done : align operation a b = .ok (p, q))
    (done' : align operation a' b' = .ok (p', q')) : p.Below p' ∧ q.Below q' := by
  have wide := width_below left
  have wide' := width_below right
  by_cases same : a.width = b.width
  · rw [align_same _ same] at done
    rw [align_same _ (by omega)] at done'
    cases done
    cases done'
    exact ⟨left, right⟩
  · by_cases single : a.width = 1
    · obtain ⟨bit, bits⟩ := single_bit.mp single
      obtain ⟨bit', bits'⟩ := single_bit.mp (wide ▸ single)
      have below : bit.Below bit' := by simpa [Below, bits, bits'] using left
      rw [align_left _ same bits] at done
      rw [align_left _ (by omega) bits'] at done'
      cases done
      cases done'
      exact ⟨wide' ▸ fill_below below _, right⟩
    · have single' := ((align_alignable done).resolve_left same).resolve_left single
      obtain ⟨bit, bits⟩ := single_bit.mp single'
      obtain ⟨bit', bits'⟩ := single_bit.mp (wide' ▸ single')
      have below : bit.Below bit' := by simpa [Below, bits, bits'] using right
      rw [align_right _ same single bits] at done
      rw [align_right _ (by omega) (by omega) bits'] at done'
      cases done
      cases done'
      exact ⟨left, wide ▸ fill_below below _⟩

theorem zipWith_below {f : Bit → Bit → Bit}
    (each : ∀ {a b a' b' : Bit}, a.Below a' → b.Below b' → (f a b).Below (f a' b'))
    {as as' bs bs' : List Bit} (left : List.Forall₂ Bit.Below as as')
    (right : List.Forall₂ Bit.Below bs bs') :
    List.Forall₂ Bit.Below (List.zipWith f as bs) (List.zipWith f as' bs') := by
  induction left generalizing bs bs' with
  | nil => exact .nil
  | cons first _ ih =>
    cases right with
    | nil => exact .nil
    | cons second later => exact .cons (each first second) (ih later)

theorem bitwise_below {operation : String} {f : Bit → Bit → Bit}
    (each : ∀ {a b a' b' : Bit}, a.Below a' → b.Below b' → (f a b).Below (f a' b'))
    (left : a.Below a') (right : b.Below b') (done : bitwise operation f a b = .ok v)
    (done' : bitwise operation f a' b' = .ok v') : v.Below v' := by
  obtain ⟨⟨p, q⟩, aligned, done⟩ := bind_ok done
  obtain ⟨⟨p', q'⟩, aligned', done'⟩ := bind_ok done'
  cases done
  cases done'
  obtain ⟨first, second⟩ := align_below left right aligned aligned'
  exact zipWith_below each first second

theorem wrapping_below {operation : String} {f : Nat → Nat → Nat → Option Nat}
    (left : a.Below a') (right : b.Below b') (done : wrapping operation f a b = .ok v)
    (done' : wrapping operation f a' b' = .ok v') : v.Below v' := by
  obtain ⟨⟨p, q⟩, aligned, done⟩ := bind_ok done
  obtain ⟨⟨p', q'⟩, aligned', done'⟩ := bind_ok done'
  obtain ⟨first, second⟩ := align_below left right aligned aligned'
  have later : ∀ k, (do f (← p.toNat?) (← q.toNat?) (modulus p.width)) = some k →
      (do f (← p'.toNat?) (← q'.toNat?) (modulus p'.width)) = some k := by
    intro k known
    obtain ⟨m, here, known⟩ := Option.bind_eq_some_iff.mp known
    obtain ⟨n, there, known⟩ := Option.bind_eq_some_iff.mp known
    simp [toNat?_below first here, toNat?_below second there, ← width_below first, known]
  cases done
  cases done'
  rw [← width_below first] at later ⊢
  exact decided_below (fun k => below_refl (ofNat p.width k)) (width_ofNat p.width) later

theorem relate_below {operation : String} {holds : Nat → Nat → Bool} (left : a.Below a')
    (right : b.Below b') (done : relate operation holds a b = .ok v)
    (done' : relate operation holds a' b' = .ok v') : v.Below v' := by
  obtain ⟨⟨p, q⟩, aligned, done⟩ := bind_ok done
  obtain ⟨⟨p', q'⟩, aligned', done'⟩ := bind_ok done'
  obtain ⟨first, second⟩ := align_below left right aligned aligned'
  cases done
  cases done'
  cases here : p.toNat? with
  | none =>
    refine unknown_below ?_
    split <;> rfl
  | some m =>
    cases there : q.toNat? with
    | none =>
      refine unknown_below ?_
      split <;> rfl
    | some n =>
      rw [toNat?_below first here, toNat?_below second there]
      exact below_refl _

theorem shiftBy_below {move move' : Nat → List Bit} (left : a.Below a') (right : b.Below b')
    (each : ∀ n, List.Forall₂ Bit.Below (move n) (move' n))
    (keeps : ∀ n ≤ a'.width, (move' n).length = a'.width) :
    (shiftBy move a b).Below (shiftBy move' a' b') := by
  unfold shiftBy
  rw [width_below left]
  by_cases empty : a'.width = 0
  · rw [if_pos empty, if_pos empty]
    exact left
  · rw [if_neg empty, if_neg empty]
    exact decided_below (fun k => each (min k a'.width)) (fun k => keeps _ (Nat.min_le_right k _))
      fun _ => toNat?_below right

theorem sign_below (below : a.Below b) : a.sign.Below b.sign := by
  have last := List.rel_reverse below
  rw [sign, sign, ← List.head?_reverse, ← List.head?_reverse]
  revert last
  generalize a.bits.reverse = as
  generalize b.bits.reverse = bs
  intro last
  cases last with
  | nil => exact Bit.below_refl _
  | cons here _ => exact here

theorem shl_below (left : a.Below a') (right : b.Below b') : (a.shl b).Below (a'.shl b') := by
  refine shiftBy_below left right (fun n => ?_) fun _ => length_pushLow
  rw [width_below left]
  exact List.rel_append (fill_below (Bit.below_refl _) n) (List.forall₂_take _ left)

theorem dropLow_below {fill fill' : Bit} (below : a.Below a') (same : fill.Below fill') (n : Nat) :
    List.Forall₂ Bit.Below (a.dropLow fill n) (a'.dropLow fill' n) :=
  List.rel_append (List.forall₂_drop _ below) (fill_below same n)

theorem shr_below (left : a.Below a') (right : b.Below b') : (a.shr b).Below (a'.shr b') :=
  shiftBy_below left right (dropLow_below left (Bit.below_refl _)) fun _ => length_dropLow .zero

theorem ashr_below (left : a.Below a') (right : b.Below b') : (a.ashr b).Below (a'.ashr b') :=
  shiftBy_below left right (dropLow_below left (sign_below left)) fun _ => length_dropLow a'.sign

theorem slice_below {high low : Nat} (below : a.Below a') (done : a.slice high low = .ok v)
    (done' : a'.slice high low = .ok v') : v.Below v' := by
  simp only [slice] at done done'
  split at done <;> split at done' <;> cases done <;> cases done'
  exact List.forall₂_take _ (List.forall₂_drop _ below)

theorem padWith_below {fill fill' : Bit} {width : Nat} (below : a.Below a')
    (same : fill.Below fill') (done : padWith fill a width = .ok v)
    (done' : padWith fill' a' width = .ok v') : v.Below v' := by
  unfold padWith at done done'
  split at done <;> split at done' <;> cases done <;> cases done'
  rw [← width_below below]
  exact List.rel_append below (fill_below same _)

theorem concat_below {parts parts' : List Value} (each : List.Forall₂ Value.Below parts parts') :
    (concat parts).Below (concat parts') :=
  List.rel_flatMap (List.rel_reverse each) fun _ _ below => below

theorem matchWildBits_below {as as' bs bs' : List Bit} (left : List.Forall₂ Bit.Below as as')
    (right : List.Forall₂ Bit.Below bs bs') :
    (matchWildBits as bs).Below (matchWildBits as' bs') := by
  induction left generalizing bs bs' with
  | nil => exact Bit.below_refl _
  | cons first _ ih =>
    cases right with
    | nil => exact Bit.below_refl _
    | cons second later => exact Bit.and_below (Bit.matchBit_below first second) (ih later)

theorem matchWild_below {b₁ b₂ : Bit} (left : a.Below a') (right : b.Below b')
    (done : a.matchWild b = .ok b₁) (done' : a'.matchWild b' = .ok b₂) : b₁.Below b₂ := by
  unfold matchWild at done done'
  split at done <;> split at done' <;> cases done <;> cases done'
  exact matchWildBits_below left right

theorem neg_below (below : a.Below b) : a.neg.Below b.neg := by
  rw [neg, neg, width_below below]
  exact decided_below (fun k => below_refl _) (fun k => width_ofNat b.width _)
    fun _ => toNat?_below below

theorem not_below (below : a.Below b) : a.not.Below b.not :=
  List.rel_map (fun _ _ here => Bit.not_below here) below

theorem reduceXor_below (below : a.Below b) : a.reduceXor.Below b.reduceXor :=
  ofBit_below (List.rel_foldl (P := Bit.Below) (R := Bit.Below)
    (fun _ _ left _ _ right => Bit.xor_below left right) (Bit.below_refl _) below)

/-- A reduction that is unknown as soon as one bit is. -/
theorem reduced_below {f : List Bit → Bit} (below : a.Below b) :
    (if a.isKnown then ofBit (f a.bits) else unknown 1).Below
      (if b.isKnown then ofBit (f b.bits) else unknown 1) := by
  by_cases known : a.isKnown = true
  · rw [known_below below known]
    exact below_refl _
  · rw [if_neg known]
    refine unknown_below ?_
    split <;> simp

theorem counts_below {as bs : List Bit} (below : List.Forall₂ Bit.Below as bs) :
    as.countP (· == .one) ≤ bs.countP (· == .one) ∧
      bs.countP (· == .one) + bs.countP (!·.isKnown) ≤
        as.countP (· == .one) + as.countP (!·.isKnown) := by
  induction below with
  | nil => simp
  | @cons a b _ _ first _ ih =>
    simp only [List.countP_cons]
    rcases first with rfl | rfl
    · cases b <;> simp +decide <;> omega
    · omega

theorem multiHot_below (below : a.Below b) : a.multiHot.Below b.multiHot := by
  obtain ⟨ones, undecided⟩ := counts_below below
  refine ofBit_below ?_
  split
  · rw [if_pos (by omega)]
    exact Bit.below_refl _
  · split
    · rw [if_neg (by omega), if_pos (by omega)]
      exact Bit.below_refl _
    · exact .inl rfl

end Value

theorem UnaryOp.apply_below (op : UnaryOp) {a b : Value} (below : a.Below b) :
    (op.apply a).Below (op.apply b) := by
  cases op with
  | not => exact Value.not_below below
  | neg => exact Value.neg_below below
  | redAnd => exact Value.reduced_below (f := List.foldl Bit.and .one) below
  | redOr => exact Value.reduced_below (f := List.foldl Bit.or .zero) below
  | redXor => exact Value.reduceXor_below below
  | multiHot => exact Value.multiHot_below below

theorem BinaryOp.apply_below (op : BinaryOp) {a b a' b' v v' : Value} (left : a.Below a')
    (right : b.Below b') (done : op.apply a b = .ok v) (done' : op.apply a' b' = .ok v') :
    v.Below v' := by
  cases op with
  | add | sub | mul | div | mod | pow =>
    simp only [apply, Value.add, Value.sub, Value.mul, Value.div, Value.mod, Value.pow] at done done'
    exact Value.wrapping_below left right done done'
  | and => exact Value.bitwise_below Bit.and_below left right done done'
  | or => exact Value.bitwise_below Bit.or_below left right done done'
  | xor => exact Value.bitwise_below Bit.xor_below left right done done'
  | shl =>
    cases done
    cases done'
    exact Value.shl_below left right
  | shr =>
    cases done
    cases done'
    exact Value.shr_below left right
  | ashr =>
    cases done
    cases done'
    exact Value.ashr_below left right
  | eq | ne | lt | le | gt | ge => exact Value.relate_below left right done done'

end CombLogic
