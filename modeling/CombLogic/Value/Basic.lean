import CombLogic.Bit

/- Values of signals: vectors of four-state bits of any width, the empty one included. Bit 0 is
   the least significant one and comes first in the list. A value all of whose bits are known is
   an unsigned integer below two to its width. The text of a value has its bits from the most
   significant one on; reading also takes capital letters and skips underscores. -/
namespace CombLogic

inductive ValueError where
  | widthMismatch (operation : String) (left right : Nat)
  | invalidSlice (high low width : Nat)
  | invalidExtension (width target : Nat)
  | invalidPattern (text : String)
deriving DecidableEq, Repr

def ValueError.message : ValueError → String
  | widthMismatch operation left right =>
    s!"width mismatch in {operation}: {left} bits vs {right} bits"
  | invalidSlice high low width => s!"invalid slice [{high}:{low}] of a {width}-bit value"
  | invalidExtension width target => s!"cannot extend a {width}-bit value to {target} bits"
  | invalidPattern text => s!"invalid bit pattern '{text}'"

structure Value where
  bits : List Bit
deriving DecidableEq, Repr, Inhabited

namespace Value

def width (v : Value) : Nat := v.bits.length

def fill (width : Nat) (b : Bit) : Value := ⟨List.replicate width b⟩

def zeros (width : Nat) : Value := fill width .zero

def ones (width : Nat) : Value := fill width .one

def unknown (width : Nat) : Value := fill width .x

def undriven (width : Nat) : Value := fill width .z

def ofBit (b : Bit) : Value := ⟨[b]⟩

def ofBool (b : Bool) : Value := ofBit (.ofBool b)

def get? (v : Value) (i : Nat) : Option Bit := v.bits[i]?

def isKnown (v : Value) : Bool := v.bits.all Bit.isKnown

def isZeros (v : Value) : Bool := v.bits.all (· == .zero)

def isOnes (v : Value) : Bool := v.bits.all (· == .one)

/-- A value is true if it is known and not zero. -/
def isTrue (v : Value) : Bool := v.isKnown && !v.isZeros

def bitsToNat : List Bit → Nat
  | [] => 0
  | b :: rest => b.toNat + 2 * bitsToNat rest

def natToBits : Nat → Nat → List Bit
  | 0, _ => []
  | width + 1, n => .ofBool (n % 2 == 1) :: natToBits width (n / 2)

/-- The unsigned integer that the bits write, if all of them are known. -/
def toNat? (v : Value) : Option Nat :=
  if v.isKnown then some (bitsToNat v.bits) else none

/-- The low bits of an unsigned integer. -/
def ofNat (width n : Nat) : Value := ⟨natToBits width n⟩

/-- How many values of a width have known bits only: two to the width. -/
def modulus (width : Nat) : Nat := Nat.pow 2 width

/-- The low bits of a two's-complement integer. -/
def ofInt (width : Nat) (n : Int) : Value := ofNat width (n % Int.ofNat (modulus width)).toNat

def patternChars (s : List Char) : Option (List Bit) :=
  (s.filter (· != '_')).reverse.mapM Bit.ofChar?

def ofPattern (s : String) : Except ValueError Value :=
  match patternChars s.toList with
  | some bits => .ok ⟨bits⟩
  | none => .error (.invalidPattern s)

def chars (v : Value) : List Char := v.bits.reverse.map Bit.toChar

def text (v : Value) : String := String.ofList v.chars

/-- The text together with the width. -/
def sizedText (v : Value) : String := s!"LogicVec({v.width}'b{v.text})"

end Value

end CombLogic
