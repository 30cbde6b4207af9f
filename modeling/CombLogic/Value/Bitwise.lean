import CombLogic.Value.Basic

/- Operations that work bit by bit, the matching of values against patterns, and the choice between
   two values by a condition. The two operands of a binary operation have one width, or one of them
   is a single bit, which then stands for as many copies as the other one is wide. -/
namespace CombLogic.Value

/-- Brings two operands to one width. -/
def align (operation : String) (a b : Value) : Except ValueError (Value × Value) :=
  if a.width = b.width then .ok (a, b)
  else match a.bits, b.bits with
    | [bit], _ => .ok (fill b.width bit, b)
    | _, [bit] => .ok (a, fill a.width bit)
    | _, _ => .error (.widthMismatch operation a.width b.width)

def bitwise (operation : String) (f : Bit → Bit → Bit) (a b : Value) : Except ValueError Value := do
  let (a, b) ← align operation a b
  return ⟨List.zipWith f a.bits b.bits⟩

def and (a b : Value) : Except ValueError Value := bitwise "and" Bit.and a b

def or (a b : Value) : Except ValueError Value := bitwise "or" Bit.or a b

def xor (a b : Value) : Except ValueError Value := bitwise "xor" Bit.xor a b

def not (v : Value) : Value := ⟨v.bits.map Bit.not⟩

/-- Unknown as soon as one bit is, even beside a 0. -/
def reduceAnd (v : Value) : Value :=
  if v.isKnown then ofBit (v.bits.foldl Bit.and .one) else unknown 1

/-- Unknown as soon as one bit is, even beside a 1. -/
def reduceOr (v : Value) : Value :=
  if v.isKnown then ofBit (v.bits.foldl Bit.or .zero) else unknown 1

def reduceXor (v : Value) : Value := ofBit (v.bits.foldl Bit.xor .zero)

/-- Whether two or more bits are 1, as far as the unknown bits let it be told. -/
def multiHot (v : Value) : Value :=
  let ones := v.bits.countP (· == .one)
  let undecided := v.bits.countP (!·.isKnown)
  ofBit (if 2 ≤ ones then .one else if ones + undecided ≤ 1 then .zero else .x)

/-- How one bit meets one pattern bit: a Z in the pattern is a wildcard, two known bits decide, and
    any other pair leaves the answer open. -/
def matchBit : Bit → Bit → Bit
  | _, .z => .one
  | .zero, .zero => .one
  | .one, .one => .one
  | .zero, .one => .zero
  | .one, .zero => .zero
  | _, _ => .x

/-- The joint verdict on all bits: one definite difference decides. -/
def matchWildBits : List Bit → List Bit → Bit
  | s :: ss, p :: ps => Bit.and (matchBit s p) (matchWildBits ss ps)
  | _, _ => .one

def matchWild (v pattern : Value) : Except ValueError Bit :=
  if v.width = pattern.width then .ok (matchWildBits v.bits pattern.bits)
  else .error (.widthMismatch "casez" v.width pattern.width)

/-- Chooses by a single bit; under an unknown condition every bit of the result is unknown. -/
def choose (condition whenTrue whenFalse : Value) : Except ValueError Value :=
  match condition.bits with
  | [bit] =>
    if whenTrue.width = whenFalse.width then
      match bit with
      | .one => .ok whenTrue
      | .zero => .ok whenFalse
      | _ => .ok (unknown whenTrue.width)
    else .error (.widthMismatch "mux" whenTrue.width whenFalse.width)
  | _ => .error (.widthMismatch "mux condition" condition.width 1)

end CombLogic.Value
