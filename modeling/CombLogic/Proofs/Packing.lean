import CombLogic.Proofs.Packed.Operations

/- Everything that the constructors and the operations of values make, in whatever order they are
   combined, is stored canonically. So two stored values are the same words if and only if they have
   the same width and the same bits, and words of zeros are bits of zero. -/
namespace CombLogic

/-- A combination of constructors and operations. -/
inductive Recipe where
  | zeros (width : Nat)
  | fill (width : Nat) (b : Bit)
  | bits (list : List Bit)
  | word (width : Nat) (w : Word)
  | number (width n : Nat)
  | pattern (text : String)
  | unary (op : UnaryOp) (v : Recipe)
  | binary (op : BinaryOp) (a b : Recipe)
  | choose (condition whenTrue whenFalse : Recipe)
  | slice (high low : Nat) (v : Recipe)
  | zeroExtend (width : Nat) (v : Recipe)
  | signExtend (width : Nat) (v : Recipe)
  | concat (parts : List Recipe)
  | concatLowFirst (parts : List Recipe)

namespace Recipe

mutual

/-- What it makes of words. -/
def pack : Recipe → Except ValueError Packed
  | .zeros width => .ok (.zeros width)
  | .fill width b => .ok (.fill width b)
  | .bits list => .ok (.ofValue ⟨list⟩)
  | .word width w => .ok (.ofWord width w)
  | .number width n => .ok (.ofNat width n)
  | .pattern text => (Value.ofPattern text).map .ofValue
  | .unary op v => do return op.pack (← v.pack)
  | .binary op a b => do op.pack (← a.pack) (← b.pack)
  | .choose condition whenTrue whenFalse => do
    Packed.choose (← condition.pack) (← whenTrue.pack) (← whenFalse.pack)
  | .slice high low v => do (← v.pack).slice high low
  | .zeroExtend width v => do (← v.pack).zeroExtend width
  | .signExtend width v => do (← v.pack).signExtend width
  | .concat parts => do return Packed.concat (← packAll parts)
  | .concatLowFirst parts => do return Packed.concatLowFirst (← packAll parts)

def packAll : List Recipe → Except ValueError (List Packed)
  | [] => .ok []
  | v :: rest => do return (← v.pack) :: (← packAll rest)

end

mutual

/-- What it makes of lists of bits. -/
def value : Recipe → Except ValueError Value
  | .zeros width => .ok (.zeros width)
  | .fill width b => .ok (.fill width b)
  | .bits list => .ok ⟨list⟩
  | .word width w => .ok (.ofNat width w.toNat)
  | .number width n => .ok (.ofNat width n)
  | .pattern text => Value.ofPattern text
  | .unary op v => do return op.apply (← v.value)
  | .binary op a b => do op.apply (← a.value) (← b.value)
  | .choose condition whenTrue whenFalse => do
    Value.choose (← condition.value) (← whenTrue.value) (← whenFalse.value)
  | .slice high low v => do (← v.value).slice high low
  | .zeroExtend width v => do (← v.value).zeroExtend width
  | .signExtend width v => do (← v.value).signExtend width
  | .concat parts => do return Value.concat (← values parts)
  | .concatLowFirst parts => do return Value.concatLowFirst (← values parts)

def values : List Recipe → Except ValueError (List Value)
  | [] => .ok []
  | v :: rest => do return (← v.value) :: (← values rest)

end

theorem bind_map {α β γ δ : Type} {x : Except ValueError α} {f : α → β} {k : γ → δ}
    {g : β → Except ValueError δ} {h : α → Except ValueError γ}
    (agree : ∀ a, g (f a) = (h a).map k) : (x.map f >>= g) = (x >>= h).map k := by
  cases x with
  | error e => rfl
  | ok a => exact agree a

open Packed in
mutual

/-- Words hold the bits that the lists hold, and an operation fails on words as it does on lists. -/
theorem pack_eq (r : Recipe) : r.pack = r.value.map ofValue := by
  cases r with
  | zeros width =>
    rw [pack, value, zeros_eq]
    rfl
  | fill width b =>
    rw [pack, value, fill_eq]
    rfl
  | bits list =>
    rw [pack, value]
    rfl
  | word width w =>
    rw [pack, value, ofWord_eq, ofNat_eq]
    rfl
  | number width n =>
    rw [pack, value, ofNat_eq]
    rfl
  | pattern text => rw [pack, value]
  | unary op v =>
    rw [pack, value, pack_eq v]
    exact bind_map fun a => congrArg Except.ok (op.pack_eq a)
  | binary op a b =>
    rw [pack, value, pack_eq a, pack_eq b]
    exact bind_map fun x => bind_map fun y => op.pack_eq x y
  | choose condition whenTrue whenFalse =>
    rw [pack, value, pack_eq condition, pack_eq whenTrue, pack_eq whenFalse]
    exact bind_map fun c => bind_map fun t => bind_map fun f => choose_eq c t f
  | slice high low v =>
    rw [pack, value, pack_eq v]
    exact bind_map fun a => slice_eq a high low
  | zeroExtend width v =>
    rw [pack, value, pack_eq v]
    exact bind_map fun a => padWith_eq .zero a width
  | signExtend width v =>
    rw [pack, value, pack_eq v]
    exact bind_map fun a => signExtend_eq a width
  | concat parts =>
    rw [pack, value, packAll_eq parts]
    exact bind_map fun vs => congrArg Except.ok (concat_eq vs)
  | concatLowFirst parts =>
    rw [pack, value, packAll_eq parts]
    exact bind_map fun vs => congrArg Except.ok (concatLowFirst_eq vs)

theorem packAll_eq (parts : List Recipe) :
    packAll parts = (values parts).map (List.map ofValue) := by
  cases parts with
  | nil =>
    rw [packAll, values]
    rfl
  | cons v rest =>
    rw [packAll, values, pack_eq v, packAll_eq rest]
    exact bind_map fun a => bind_map fun vs => rfl

end

end Recipe

namespace Packed

/-- Made by some combination of constructors and operations. -/
def Produced (p : Packed) : Prop := ∃ r : Recipe, r.pack = .ok p

variable {p q : Packed} {i : Nat}

theorem Produced.of_value (produced : p.Produced) : ∃ v, p = ofValue v := by
  obtain ⟨r, packed⟩ := produced
  rw [Recipe.pack_eq] at packed
  cases made : r.value with
  | error e => simp [made, Except.map] at packed
  | ok v =>
    simp only [made, Except.map, Except.ok.injEq] at packed
    exact ⟨v, packed.symm⟩

theorem Produced.canonical (produced : p.Produced) : p.Canonical := by
  obtain ⟨v, rfl⟩ := produced.of_value
  exact canonical_ofValue v

theorem Canonical.get (canonical : p.Canonical) (inside : i < p.width) :
    p.get? i = some (p.get i) := by
  obtain ⟨b, found⟩ := get?_some (canonical.stored inside)
  rw [Packed.get, found, Option.getD_some]

theorem get_storeAll (canonical : p.Canonical) (stores : List (Nat × Bit))
    (inside : ∀ store ∈ stores, store.1 < p.width) (i : Nat) :
    (p.storeAll stores).get i = (lastStored stores i).getD (p.get i) := by
  rw [Packed.get, get?_storeAll canonical stores inside, Packed.get]
  cases lastStored stores i <;> rfl

/-- What is produced has no word too many and nothing in its spare cells. A store is read back and
    leaves the other places alone, also after further stores. Equality of words is equality of
    widths and bits, and the test for zero words tests the bits. -/
theorem produced_canonical (left : p.Produced) (right : q.Produced) :
    (p.words.size = (p.width + 31) / 32 ∧
      ∀ i w, p.width ≤ i → p.words[i / 32]? = some w → cell w (i % 32) = 0) ∧
    (∀ i < p.width, ∀ b, (p.set i b).get i = b ∧ ∀ j, j ≠ i → (p.set i b).get j = p.get j) ∧
    (∀ stores : List (Nat × Bit), (∀ store ∈ stores, store.1 < p.width) →
      ∀ i, (p.storeAll stores).get i = (lastStored stores i).getD (p.get i)) ∧
    (p = q ↔ p.width = q.width ∧ ∀ i < p.width, p.get i = q.get i) ∧
    (p.isZeros = true ↔ ∀ i < p.width, p.get i = .zero) := by
  have canonical := left.canonical
  refine ⟨⟨canonical.size, canonical.spare⟩, ?_, get_storeAll canonical, ?_, ?_⟩
  · intro i inside b
    refine ⟨?_, fun j apart => ?_⟩
    · rw [Packed.get, get?_set_self (canonical.stored inside), Option.getD_some]
    · rw [Packed.get, get?_set_other apart, Packed.get]
  · constructor
    · rintro rfl
      exact ⟨rfl, fun _ _ => rfl⟩
    · rintro ⟨width, same⟩
      refine canonical_ext canonical right.canonical width fun i inside => ?_
      rw [canonical.get inside, right.canonical.get (width ▸ inside), same i inside]
  · rw [isZeros_iff canonical]
    refine forall_congr' fun i => imp_congr_right fun inside => ?_
    rw [canonical.get inside, Option.some.injEq]

/-- Two ways to make 33 unknown bits end in the same two words. -/
theorem unknowns_same_words :
    UnaryOp.not.pack (fill 33 .z) = fill 33 .x ∧ (fill 33 .x).words.size = 2 ∧
      ((fill 33 .x).set 32 .one).get 31 = .x := by
  have negated : (UnaryOp.not.pack (fill 33 .z)).Produced := ⟨.unary .not (.fill 33 .z), rfl⟩
  have filled : (fill 33 .x).Produced := ⟨.fill 33 .x, rfl⟩
  have same := (produced_canonical negated filled).2.2.2.1.mpr (by decide +kernel)
  have facts := produced_canonical filled filled
  exact ⟨same, facts.1.1, ((facts.2.1 32 (by decide) .one).2 31 (by decide)).trans (by decide +kernel)⟩

end Packed

end CombLogic
