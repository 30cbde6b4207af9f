/- One bit of a four-state value: the two known states 0 and 1, the unknown state X and the
   undriven state Z, with the truth tables of the gates. -/
namespace CombLogic

inductive Bit where
  | zero
  | one
  | x
  | z
deriving DecidableEq, Repr, Inhabited

namespace Bit

/-- Known bits are 0 and 1. -/
def isKnown : Bit → Bool
  | zero | one => true
  | x | z => false

def ofBool : Bool → Bit
  | false => zero
  | true => one

def toNat : Bit → Nat
  | one => 1
  | _ => 0

/-- A 0 decides the conjunction; otherwise an unknown or undriven operand leaves it unknown. -/
def and : Bit → Bit → Bit
  | zero, _ => zero
  | _, zero => zero
  | one, one => one
  | _, _ => x

/-- A 1 decides the disjunction; otherwise an unknown or undriven operand leaves it unknown. -/
def or : Bit → Bit → Bit
  | one, _ => one
  | _, one => one
  | zero, zero => zero
  | _, _ => x

def xor : Bit → Bit → Bit
  | zero, zero => zero
  | one, one => zero
  | zero, one => one
  | one, zero => one
  | _, _ => x

def not : Bit → Bit
  | zero => one
  | one => zero
  | _ => x

def toChar : Bit → Char
  | zero => '0'
  | one => '1'
  | x => 'x'
  | z => 'z'

/-- Letters are read in either case. -/
def ofChar? : Char → Option Bit
  | '0' => some zero
  | '1' => some one
  | 'x' | 'X' => some x
  | 'z' | 'Z' => some z
  | _ => none

end Bit

end CombLogic
