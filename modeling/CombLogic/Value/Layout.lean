import CombLogic.Value.Basic

/- Moving the bits of values, cutting values apart and putting them together. The amount of a shift has
   any width. Unknown bits move like known ones; an unknown bit in the amount makes every bit of the
   result unknown. -/
namespace CombLogic.Value

/-- Applies a move by a known amount, which is never larger than the width. -/
def shiftBy (move : Nat → List Bit) (v amount : Value) : Value :=
  if v.width = 0 then v
  else match amount.toNat? with
    | some n => ⟨move (min n v.width)⟩
    | none => unknown v.width

def shl (v amount : Value) : Value :=
  shiftBy (fun n => List.replicate n .zero ++ v.bits.take (v.width - n)) v amount

/-- Drops low bits and fills up with copies of the given bit. -/
def dropLow (v : Value) (fill : Bit) (n : Nat) : List Bit :=
  v.bits.drop n ++ List.replicate n fill

def shr (v amount : Value) : Value := shiftBy (v.dropLow .zero) v amount

/-- The most significant bit, 0 for the empty value. -/
def sign (v : Value) : Bit := v.bits.getLast?.getD .zero

def ashr (v amount : Value) : Value := shiftBy (v.dropLow v.sign) v amount

/-- The bits from `low` to `high`, both included. -/
def slice (v : Value) (high low : Nat) : Except ValueError Value :=
  let rest := v.bits.drop low
  if high < low ∨ rest[high - low]?.isNone then .error (.invalidSlice high low v.width)
  else .ok ⟨rest.take (high + 1 - low)⟩

def padWith (fill : Bit) (v : Value) (width : Nat) : Except ValueError Value :=
  if width < v.width then .error (.invalidExtension v.width width)
  else .ok ⟨v.bits ++ List.replicate (width - v.width) fill⟩

def zeroExtend (v : Value) (width : Nat) : Except ValueError Value := padWith .zero v width

def signExtend (v : Value) (width : Nat) : Except ValueError Value := padWith v.sign v width

/-- Joins values, the first one lowest. -/
def concatLowFirst (parts : List Value) : Value := ⟨parts.flatMap bits⟩

/-- Joins values, the first one highest. -/
def concat (parts : List Value) : Value := concatLowFirst parts.reverse

end CombLogic.Value
