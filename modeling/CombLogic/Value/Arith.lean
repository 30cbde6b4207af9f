import CombLogic.Value.Bitwise

/- Unsigned arithmetic modulo two to the width, and comparisons. An unknown bit in an operand makes
   every bit of the result unknown, and so does a zero divisor. -/
namespace CombLogic.Value

/-- Repeated squaring. -/
def powMod (a b m : Nat) : Nat :=
  if b = 0 then 1 % m
  else
    let half := powMod (a * a % m) (b / 2) m
    if b % 2 = 1 then a * half % m else half
termination_by b

def wrapping (operation : String) (f : Nat → Nat → Nat → Option Nat) (a b : Value) :
    Except ValueError Value := do
  let (a, b) ← align operation a b
  let result := do f (← a.toNat?) (← b.toNat?) (modulus a.width)
  return match result with
    | some n => ofNat a.width n
    | none => unknown a.width

def neg (v : Value) : Value :=
  match v.toNat? with
  | some n => ofNat v.width ((modulus v.width - n) % modulus v.width)
  | none => unknown v.width

def add (a b : Value) : Except ValueError Value := wrapping "add" (fun m n _ => some (m + n)) a b

def sub (a b : Value) : Except ValueError Value :=
  wrapping "sub" (fun m n modulus => some (m + modulus - n)) a b

def mul (a b : Value) : Except ValueError Value := wrapping "mul" (fun m n _ => some (m * n)) a b

def div (a b : Value) : Except ValueError Value :=
  wrapping "div" (fun m n _ => if n = 0 then none else some (m / n)) a b

def mod (a b : Value) : Except ValueError Value :=
  wrapping "mod" (fun m n _ => if n = 0 then none else some (m % n)) a b

def pow (a b : Value) : Except ValueError Value :=
  wrapping "pow" (fun m n modulus => some (powMod m n modulus)) a b

def relate (operation : String) (holds : Nat → Nat → Bool) (a b : Value) :
    Except ValueError Value := do
  let (a, b) ← align operation a b
  return match a.toNat?, b.toNat? with
    | some m, some n => ofBool (holds m n)
    | _, _ => unknown 1

def eq (a b : Value) : Except ValueError Value := relate "eq" (fun m n => m == n) a b

def ne (a b : Value) : Except ValueError Value := relate "neq" (fun m n => m != n) a b

def lt (a b : Value) : Except ValueError Value := relate "lt" (fun m n => decide (m < n)) a b

def le (a b : Value) : Except ValueError Value := relate "lte" (fun m n => decide (m ≤ n)) a b

def gt (a b : Value) : Except ValueError Value := relate "gt" (fun m n => decide (m > n)) a b

def ge (a b : Value) : Except ValueError Value := relate "gte" (fun m n => decide (m ≥ n)) a b

end CombLogic.Value
