import CombLogic.Expr.Op
import CombLogic.Value.Layout
import CombLogic.Value.Bitwise
import CombLogic.Proofs.Integers
import CombLogic.Proofs.Packed.Stores

/- The operations on stored values: each one reads single bits of its operands and makes its result
   by stores into zeros. On stored forms every one of them does what the operation on bit lists
   does. -/
namespace CombLogic

namespace Packed

section Reading

/-- A bit inside the width. -/
def get (p : Packed) (i : Nat) : Bit := (p.get? i).getD .zero

def contents (p : Packed) : Value := ⟨(List.range p.width).map p.get⟩

variable {v : Value} {i : Nat}

theorem get_ofValue (inside : i < v.width) : (ofValue v).get i = v.bits[i] := by
  rw [get, get?_ofValue inside, List.getElem?_eq_getElem inside, Option.getD_some]

@[simp] theorem contents_ofValue (v : Value) : (ofValue v).contents = v := by
  have same : (ofValue v).contents.bits = v.bits := by
    refine List.ext_getElem (by simp [contents, Value.width]) fun i bound inside => ?_
    simpa [contents] using get_ofValue (v := v) inside
  cases v
  simpa [contents] using same

end Reading

section Writing

/-- Zeros need no store. -/
def fill (width : Nat) (b : Bit) : Packed :=
  if b = .zero then zeros width else storedAt width (List.range width) fun _ => b

variable {width : Nat}

def ofNat (width n : Nat) : Packed :=
  storedAt width ((List.range width).filter n.testBit) fun _ => .one

/-- The low bits of a machine word; places past it stay zero. -/
def ofWord (width : Nat) (w : Word) : Packed :=
  storedAt width ((List.range (min width 64)).filter w.getLsbD) fun _ => .one

theorem zeros_eq (width : Nat) : zeros width = ofValue (Value.zeros width) := by
  refine eq_ofValue (canonical_zeros width) (by simp) fun i inside => ?_
  rw [Value.width_zeros] at inside
  have stored := (canonical_zeros width).stored inside
  rw [get?_zeros ((canonical_zeros width).size ▸ stored)]
  simp [Value.zeros, Value.fill, inside]

theorem filter_inside {limit : Nat} (keep : Nat → Bool) (within : limit ≤ width) :
    ∀ place ∈ (List.range limit).filter keep, place < width := by
  intro place member
  have bound := List.mem_range.mp (List.mem_filter.mp member).1
  omega

theorem fill_eq (width : Nat) (b : Bit) : fill width b = ofValue (Value.fill width b) := by
  unfold fill
  split
  · rename_i zero
    rw [zero, zeros_eq, Value.zeros]
  · have places : ∀ place ∈ List.range width, place < width := fun _ => List.mem_range.mp
    refine eq_ofValue (canonical_storedAt _ places) (by simp) fun i inside => ?_
    rw [Value.width_fill] at inside
    rw [get?_storedAt _ places inside]
    simp [Value.fill, inside]

theorem ofNat_eq (width n : Nat) : ofNat width n = ofValue (Value.ofNat width n) := by
  have places := filter_inside n.testBit (Nat.le_refl width)
  have width : (ofNat width n).width = (Value.ofNat width n).width := by
    rw [ofNat, width_storedAt, Value.width_ofNat]
  refine eq_ofValue (canonical_storedAt _ places) width fun i inside => ?_
  rw [Value.width_ofNat] at inside
  rw [ofNat, get?_storedAt _ places inside, Value.ofNat, Value.getElem?_natToBits]
  cases bit : n.testBit i <;> simp [inside, bit, Bit.ofBool]

theorem ofWord_eq (width : Nat) (w : Word) : ofWord width w = ofNat width w.toNat := by
  have places := filter_inside w.getLsbD (Nat.min_le_left width 64)
  have places' := filter_inside w.toNat.testBit (Nat.le_refl width)
  rw [ofWord, ofNat]
  refine canonical_ext (canonical_storedAt _ places) (canonical_storedAt _ places') (by simp) ?_
  intro i inside
  rw [width_storedAt] at inside
  have bit : w.getLsbD i = w.toNat.testBit i := rfl
  have same : i ∈ (List.range (min width 64)).filter w.getLsbD ↔
      i ∈ (List.range width).filter w.toNat.testBit := by
    simp only [List.mem_filter, List.mem_range, Nat.lt_min, inside, true_and, bit]
    refine ⟨And.right, fun set => ⟨?_, set⟩⟩
    by_contra high
    rw [← bit, BitVec.getLsbD_of_ge w i (by omega)] at set
    cases set
  rw [get?_storedAt _ places inside, get?_storedAt _ places' inside]
  simp only [same]

end Writing

section Pairs

def align (operation : String) (p q : Packed) : Except ValueError (Packed × Packed) :=
  if p.width = q.width then .ok (p, q)
  else if p.width = 1 then .ok (fill q.width (p.get 0), q)
  else if q.width = 1 then .ok (p, fill p.width (q.get 0))
  else .error (.widthMismatch operation p.width q.width)

def bitwise (operation : String) (f : Bit → Bit → Bit) (p q : Packed) :
    Except ValueError Packed := do
  let (p, q) ← align operation p q
  return ofValue ⟨List.zipWith f p.contents.bits q.contents.bits⟩

def wrapping (operation : String) (f : Nat → Nat → Nat → Option Nat) (p q : Packed) :
    Except ValueError Packed := do
  let (p, q) ← align operation p q
  let result := do
    f (← p.contents.toNat?) (← q.contents.toNat?) (Value.modulus p.width)
  return match result with
    | some n => ofNat p.width (n % Value.modulus p.width)
    | none => fill p.width .x

def relate (operation : String) (holds : Nat → Nat → Bool) (p q : Packed) :
    Except ValueError Packed := do
  let (p, q) ← align operation p q
  return match p.contents.toNat?, q.contents.toNat? with
    | some m, some n => fill 1 (.ofBool (holds m n))
    | _, _ => fill 1 .x

variable {a b : Value}

theorem get_single {bit : Bit} (single : a.bits = [bit]) : (ofValue a).get 0 = bit := by
  have inside : 0 < a.width := by simp [Value.width, single]
  rw [get_ofValue inside]
  simp [single]

theorem align_eq (operation : String) (a b : Value) :
    align operation (ofValue a) (ofValue b) =
      (Value.align operation a b).map fun pair => (ofValue pair.1, ofValue pair.2) := by
  rw [align, width_ofValue, width_ofValue]
  by_cases same : a.width = b.width
  · rw [if_pos same, Value.align_same operation same]
    rfl
  rw [if_neg same]
  by_cases left : a.width = 1
  · obtain ⟨bit, bits⟩ := Value.single_bit.mp left
    rw [if_pos left, Value.align_left operation same bits, get_single bits, fill_eq]
    rfl
  rw [if_neg left]
  by_cases right : b.width = 1
  · obtain ⟨bit, bits⟩ := Value.single_bit.mp right
    rw [if_pos right, Value.align_right operation same left bits, get_single bits, fill_eq]
    rfl
  · rw [if_neg right, Value.align_apart operation same left right]
    rfl

theorem bitwise_eq (operation : String) (f : Bit → Bit → Bit) (a b : Value) :
    bitwise operation f (ofValue a) (ofValue b) = (Value.bitwise operation f a b).map ofValue := by
  rw [bitwise, Value.bitwise, align_eq]
  cases Value.align operation a b with
  | error e => rfl
  | ok pair =>
    simp only [Except.map, bind, Except.bind, contents_ofValue]
    rfl

theorem wrapping_eq (operation : String) (f : Nat → Nat → Nat → Option Nat) (a b : Value) :
    wrapping operation f (ofValue a) (ofValue b) =
      (Value.wrapping operation f a b).map ofValue := by
  rw [wrapping, Value.wrapping, align_eq]
  cases Value.align operation a b with
  | error e => rfl
  | ok pair =>
    simp only [Except.map, bind, Except.bind, contents_ofValue, width_ofValue, pure, Except.pure]
    split <;> simp only [*, ofNat_eq, Value.ofNat_mod, fill_eq, Value.unknown]

theorem relate_eq (operation : String) (holds : Nat → Nat → Bool) (a b : Value) :
    relate operation holds (ofValue a) (ofValue b) =
      (Value.relate operation holds a b).map ofValue := by
  rw [relate, Value.relate, align_eq]
  cases Value.align operation a b with
  | error e => rfl
  | ok pair =>
    simp only [Except.map, bind, Except.bind, contents_ofValue, pure, Except.pure]
    cases pair.1.toNat? <;> cases pair.2.toNat? <;> simp only [fill_eq] <;> rfl

end Pairs

section Shifts

/-- The bits of the result by their places; the amount is never larger than the width. -/
def shiftBy (place : Nat → Nat → Bit) (p amount : Packed) : Packed :=
  if p.width = 0 then p
  else match amount.contents.toNat? with
    | some n => ofValue ⟨(List.range p.width).map (place (min n p.width))⟩
    | none => fill p.width .x

def shl (p amount : Packed) : Packed :=
  shiftBy (fun n i => if n ≤ i then p.get (i - n) else .zero) p amount

def dropLow (p : Packed) (fill : Bit) (n i : Nat) : Bit :=
  if i + n < p.width then p.get (i + n) else fill

def shr (p amount : Packed) : Packed := shiftBy (p.dropLow .zero) p amount

def ashr (p amount : Packed) : Packed := shiftBy (p.dropLow (p.get (p.width - 1))) p amount

variable {v : Value}

theorem shiftBy_eq {place : Nat → Nat → Bit} {move : Nat → List Bit} {v : Value}
    (agree : 0 < v.width → ∀ n ≤ v.width, (List.range v.width).map (place n) = move n)
    (amount : Value) :
    shiftBy place (ofValue v) (ofValue amount) = ofValue (Value.shiftBy move v amount) := by
  rw [shiftBy, Value.shiftBy, width_ofValue, contents_ofValue]
  split
  · rfl
  · rename_i wide
    cases amount.toNat? with
    | some n =>
      have moved := agree (Nat.pos_of_ne_zero wide) _ (Nat.min_le_right n v.width)
      exact congrArg (ofValue ⟨·⟩) moved
    | none => exact fill_eq v.width .x

theorem shl_eq (v amount : Value) :
    shl (ofValue v) (ofValue amount) = ofValue (Value.shl v amount) := by
  refine shiftBy_eq (fun _ n le => ?_) amount
  refine List.ext_getElem (by rw [Value.length_pushLow le]; simp) fun i bound _ => ?_
  have inside : i < v.width := by simpa using bound
  rw [List.getElem_map, List.getElem_range, List.getElem_append]
  by_cases low : i < n
  · simp [low, Nat.not_le.mpr low]
  · have place : i - n < v.width := by omega
    simp only [if_pos (Nat.not_lt.mp low), get_ofValue place, List.length_replicate, low,
      dite_false, List.getElem_take]
    rfl

theorem dropLow_eq (fill : Bit) {n : Nat} (le : n ≤ v.width) :
    (List.range v.width).map ((ofValue v).dropLow fill n) = v.dropLow fill n := by
  refine List.ext_getElem (by rw [Value.length_dropLow fill le]; simp) fun i bound _ => ?_
  have inside : i < v.width := by simpa using bound
  have length : (v.bits.drop n).length = v.width - n := List.length_drop
  simp only [List.getElem_map, List.getElem_range, dropLow, Value.dropLow, width_ofValue,
    List.getElem_append, length, List.getElem_drop, List.getElem_replicate]
  by_cases high : i + n < v.width
  · rw [if_pos high, dif_pos (by omega), get_ofValue high]
    exact getElem_congr_idx (Nat.add_comm i n)
  · rw [if_neg high, dif_neg (by omega)]

theorem get_last (wide : 0 < v.width) : (ofValue v).get (v.width - 1) = v.sign := by
  have inside : v.width - 1 < v.width := by omega
  have last : v.bits.getLast? = some v.bits[v.width - 1] := by
    rw [List.getLast?_eq_getElem?]
    exact List.getElem?_eq_getElem inside
  rw [get_ofValue inside, Value.sign, last, Option.getD_some]

theorem shr_eq (v amount : Value) :
    shr (ofValue v) (ofValue amount) = ofValue (Value.shr v amount) :=
  shiftBy_eq (fun _ _ => dropLow_eq .zero) amount

theorem ashr_eq (v amount : Value) :
    ashr (ofValue v) (ofValue amount) = ofValue (Value.ashr v amount) := by
  refine shiftBy_eq (fun wide n le => ?_) amount
  rw [width_ofValue, get_last wide, dropLow_eq _ le]

end Shifts

section Shaping

def choose (condition whenTrue whenFalse : Packed) : Except ValueError Packed :=
  if condition.width ≠ 1 then .error (.widthMismatch "mux condition" condition.width 1)
  else if whenTrue.width ≠ whenFalse.width then
    .error (.widthMismatch "mux" whenTrue.width whenFalse.width)
  else match condition.get 0 with
    | .one => .ok whenTrue
    | .zero => .ok whenFalse
    | _ => .ok (fill whenTrue.width .x)

def slice (p : Packed) (high low : Nat) : Except ValueError Packed :=
  if high < low ∨ p.width ≤ high then .error (.invalidSlice high low p.width)
  else .ok (ofValue ⟨(List.range' low (high + 1 - low)).map p.get⟩)

def padWith (fill : Bit) (p : Packed) (width : Nat) : Except ValueError Packed :=
  if width < p.width then .error (.invalidExtension p.width width)
  else .ok (ofValue ⟨p.contents.bits ++ List.replicate (width - p.width) fill⟩)

def zeroExtend (p : Packed) (width : Nat) : Except ValueError Packed := padWith .zero p width

def signExtend (p : Packed) (width : Nat) : Except ValueError Packed :=
  padWith (if p.width = 0 then .zero else p.get (p.width - 1)) p width

def concatLowFirst (parts : List Packed) : Packed :=
  ofValue ⟨parts.flatMap fun p => p.contents.bits⟩

def concat (parts : List Packed) : Packed :=
  ofValue ⟨parts.reverse.flatMap fun p => p.contents.bits⟩

theorem choose_eq (condition whenTrue whenFalse : Value) :
    choose (ofValue condition) (ofValue whenTrue) (ofValue whenFalse) =
      (Value.choose condition whenTrue whenFalse).map ofValue := by
  rw [choose, width_ofValue, width_ofValue, width_ofValue]
  by_cases single : condition.width = 1
  · obtain ⟨bit, bits⟩ := Value.single_bit.mp single
    rw [if_neg (not_not.mpr single), get_single bits, Value.choose, bits]
    by_cases same : whenTrue.width = whenFalse.width
    · cases bit <;> simp [same, fill_eq, Value.unknown, Except.map]
    · simp [same, Except.map]
  · rw [if_pos single, Value.choose]
    split
    · rename_i bits
      exact (single (Value.single_bit.mpr ⟨_, bits⟩)).elim
    · rfl

theorem slice_eq (v : Value) (high low : Nat) :
    slice (ofValue v) high low = (Value.slice v high low).map ofValue := by
  rw [slice, width_ofValue]
  by_cases fits : high < low ∨ v.width ≤ high
  · rw [if_pos fits, Value.slice_error fits]
    rfl
  · rw [if_neg fits]
    obtain ⟨ordered, inside⟩ := not_or.mp fits
    rw [Value.slice_bits (Nat.not_lt.mp ordered) (Nat.not_le.mp inside)]
    refine congrArg (fun bits => Except.ok (ofValue ⟨bits⟩)) ?_
    have length : (v.bits.drop low).length = v.width - low := List.length_drop
    refine List.ext_getElem (by simp [length]; omega) fun i bound _ => ?_
    have place : low + i < v.width := by
      simp only [List.length_map, List.length_range'] at bound
      omega
    simp only [List.getElem_map, List.getElem_range', Nat.one_mul, List.getElem_take,
      List.getElem_drop]
    exact get_ofValue place

theorem padWith_eq (fill : Bit) (v : Value) (width : Nat) :
    padWith fill (ofValue v) width = (Value.padWith fill v width).map ofValue := by
  rw [padWith, Value.padWith, width_ofValue, contents_ofValue]
  split <;> rfl

theorem signExtend_eq (v : Value) (width : Nat) :
    signExtend (ofValue v) width = (Value.signExtend v width).map ofValue := by
  rw [signExtend, Value.signExtend, width_ofValue, padWith_eq]
  split
  · rename_i empty
    rw [Value.sign, List.length_eq_zero_iff.mp empty]
    rfl
  · rename_i wide
    rw [get_last (Nat.pos_of_ne_zero wide)]

theorem concatLowFirst_eq (parts : List Value) :
    concatLowFirst (parts.map ofValue) = ofValue (Value.concatLowFirst parts) := by
  simp [concatLowFirst, Value.concatLowFirst, List.flatMap_map]

theorem concat_eq (parts : List Value) :
    concat (parts.map ofValue) = ofValue (Value.concat parts) := by
  rw [concat, ← List.map_reverse]
  exact concatLowFirst_eq parts.reverse

end Shaping

end Packed

/-- The operators on stored values. -/
def UnaryOp.pack (op : UnaryOp) (p : Packed) : Packed :=
  match op with
  | not => .ofValue ⟨p.contents.bits.map Bit.not⟩
  | neg =>
    match p.contents.toNat? with
    | some n => .ofNat p.width ((Value.modulus p.width - n) % Value.modulus p.width)
    | none => .fill p.width .x
  | redAnd =>
    if p.contents.isKnown then .fill 1 (p.contents.bits.foldl Bit.and .one) else .fill 1 .x
  | redOr =>
    if p.contents.isKnown then .fill 1 (p.contents.bits.foldl Bit.or .zero) else .fill 1 .x
  | redXor => .fill 1 (p.contents.bits.foldl Bit.xor .zero)
  | multiHot =>
    let ones := p.contents.bits.countP (· == .one)
    let undecided := p.contents.bits.countP (!·.isKnown)
    .fill 1 (if 2 ≤ ones then .one else if ones + undecided ≤ 1 then .zero else .x)

open Packed in
def BinaryOp.pack : BinaryOp → Packed → Packed → Except ValueError Packed
  | add => wrapping "add" fun m n _ => some (m + n)
  | sub => wrapping "sub" fun m n modulus => some (m + modulus - n)
  | mul => wrapping "mul" fun m n _ => some (m * n)
  | div => wrapping "div" fun m n _ => if n = 0 then none else some (m / n)
  | mod => wrapping "mod" fun m n _ => if n = 0 then none else some (m % n)
  | pow => wrapping "pow" fun m n modulus => some (Value.powMod m n modulus)
  | and => bitwise "and" Bit.and
  | or => bitwise "or" Bit.or
  | xor => bitwise "xor" Bit.xor
  | shl => fun p amount => .ok (p.shl amount)
  | shr => fun p amount => .ok (p.shr amount)
  | ashr => fun p amount => .ok (p.ashr amount)
  | eq => relate "eq" fun m n => m == n
  | ne => relate "neq" fun m n => m != n
  | lt => relate "lt" fun m n => decide (m < n)
  | le => relate "lte" fun m n => decide (m ≤ n)
  | gt => relate "gt" fun m n => decide (m > n)
  | ge => relate "gte" fun m n => decide (m ≥ n)

open Packed in
theorem UnaryOp.pack_eq (op : UnaryOp) (v : Value) : op.pack (ofValue v) = ofValue (op.apply v) := by
  have single : ∀ b, Packed.fill 1 b = ofValue (Value.ofBit b) := fill_eq 1
  cases op with
  | not => simp only [pack, apply, contents_ofValue, Value.not]
  | neg =>
    simp only [pack, apply, contents_ofValue, width_ofValue, Value.neg]
    cases v.toNat? with
    | some n => exact ofNat_eq _ _
    | none => exact fill_eq _ _
  | redAnd | redOr =>
    simp only [pack, apply, contents_ofValue, Value.reduceAnd, Value.reduceOr, single]
    split <;> rfl
  | redXor | multiHot =>
    simp only [pack, apply, contents_ofValue, single, Value.reduceXor, Value.multiHot]

open Packed in
theorem BinaryOp.pack_eq (op : BinaryOp) (a b : Value) :
    op.pack (ofValue a) (ofValue b) = (op.apply a b).map ofValue := by
  cases op with
  | add | sub | mul | div | mod | pow =>
    simp only [pack, apply, wrapping_eq]
    rfl
  | and | or | xor => exact bitwise_eq _ _ a b
  | eq | ne | lt | le | gt | ge => exact relate_eq _ _ a b
  | shl => exact congrArg Except.ok (shl_eq a b)
  | shr => exact congrArg Except.ok (shr_eq a b)
  | ashr => exact congrArg Except.ok (ashr_eq a b)

end CombLogic
