/- Reading of text from the left. A step gives what it read and the rest of the text, or fails. -/
namespace CombLogic

abbrev Scan := StateT (List Char) Option

namespace Scan

variable {α : Type}

def peek : Scan (Option Char) := return (← get).head?

def satisfy (p : Char → Bool) : Scan Char := fun
  | c :: rest => if p c then some (c, rest) else none
  | [] => none

def char (c : Char) : Scan Unit := discard <| satisfy (· == c)

def word : List Char → Scan Unit
  | [] => return
  | c :: rest => do
    char c
    word rest

def takeWhile (p : Char → Bool) : Scan (List Char) := fun text =>
  some (text.takeWhile p, text.dropWhile p)

/-- As many characters of a kind as there are, and at least one. -/
def takeWhile1 (p : Char → Bool) : Scan (List Char) :=
  return (← satisfy p) :: (← takeWhile p)

def times (p : Scan α) : Nat → Scan (List α)
  | 0 => return []
  | n + 1 => return (← p) :: (← times p n)

/-- Nothing is read where the step fails. -/
def opt (p : Scan α) : Scan (Option α) := (some <$> p) <|> pure none

/-- Repeats a step until it fails, at most once for each character of the bound. -/
def manyWithin (p : Scan α) : List Char → Scan (List α)
  | [] => return []
  | _ :: bound => do
    match ← opt p with
    | some a => return a :: (← manyWithin p bound)
    | none => return []

/-- Repeats a step, which reads something every time, until it fails. The text itself bounds the
    number of times. -/
def many (p : Scan α) : Scan (List α) := do
  manyWithin p (← get)

/-- Items with separators between them. -/
def separated1 (p : Scan α) (separator : Scan Unit) : Scan (List α) :=
  return (← p) :: (← many do separator; p)

def separated (p : Scan α) (separator : Scan Unit) : Scan (List α) :=
  return (← opt (separated1 p separator)).getD []

def finish : Scan Unit := fun
  | [] => some ((), [])
  | _ :: _ => none

/-- Reads a whole text. -/
def run? (p : Scan α) (text : String) : Option α :=
  (StateT.run (do let a ← p; finish; return a) text.toList).map Prod.fst

end Scan

/-- The value of a digit in bases up to sixteen. -/
def digitValue? (c : Char) : Option Nat :=
  if '0' ≤ c ∧ c ≤ '9' then some (c.toNat - '0'.toNat)
  else if 'a' ≤ c ∧ c ≤ 'f' then some (c.toNat - 'a'.toNat + 10)
  else if 'A' ≤ c ∧ c ≤ 'F' then some (c.toNat - 'A'.toNat + 10)
  else none

def isDigitOf (base : Nat) (c : Char) : Bool :=
  match digitValue? c with
  | some n => n < base
  | none => false

def isDecimal (c : Char) : Bool := isDigitOf 10 c

/-- The number that digits write, most significant digit first. -/
def numberOf (base : Nat) (digits : List Char) : Nat :=
  digits.foldl (fun n c => n * base + (digitValue? c).getD 0) 0

end CombLogic
