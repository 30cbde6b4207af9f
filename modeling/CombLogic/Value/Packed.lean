import CombLogic.Value.Basic

/- The storage form of a value: two bits a cell, 32 cells a word, bit 0 of the value in the lowest
   cell of the first word. Cells past the width are zero in every packed value; words read from a
   file may hold anything there. -/
namespace CombLogic

abbrev Word := BitVec 64

structure Packed where
  width : Nat
  words : Array Word
deriving DecidableEq, Repr

namespace Packed

def cellOfBit : Bit → Word
  | .zero => 0
  | .one => 1
  | .x => 2
  | .z => 3

def bitOfCell (cell : Word) : Bit :=
  if cell = 0 then .zero else if cell = 1 then .one else if cell = 2 then .x else .z

def wordsFor (width : Nat) : Nat := (width + 31) / 32

def getCell (w : Word) (k : Nat) : Bit := bitOfCell ((w >>> (2 * k)) &&& 3)

def setCell (w : Word) (k : Nat) (b : Bit) : Word :=
  (w &&& ~~~((3 : Word) <<< (2 * k))) ||| (cellOfBit b <<< (2 * k))

def zeros (width : Nat) : Packed := ⟨width, Array.replicate (wordsFor width) 0⟩

/-- No cell is stored past the last word. -/
def get? (p : Packed) (i : Nat) : Option Bit :=
  (p.words[i / 32]?).map (getCell · (i % 32))

def set (p : Packed) (i : Nat) (b : Bit) : Packed :=
  { p with words := p.words.modify (i / 32) (setCell · (i % 32) b) }

def setFrom (p : Packed) (i : Nat) : List Bit → Packed
  | [] => p
  | b :: rest => (p.set i b).setFrom (i + 1) rest

def ofValue (v : Value) : Packed := (zeros v.width).setFrom 0 v.bits

/-- The value in the first cells, unless there are fewer cells than the width says. -/
def toValue? (p : Packed) : Option Value :=
  if wordsFor p.width ≤ p.words.size then
    ((List.range p.width).mapM p.get?).map Value.mk
  else none

def isZeros (p : Packed) : Bool := p.words.all (· == 0)

end Packed

end CombLogic
