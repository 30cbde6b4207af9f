import CombLogic.Value.Arith
import CombLogic.Value.Layout

/- The operators of expressions and what they compute on values. -/
namespace CombLogic

inductive UnaryOp where
  | not
  | neg
  | redAnd
  | redOr
  | redXor
  | multiHot
deriving DecidableEq, Repr

namespace UnaryOp

def all : List UnaryOp := [not, neg, redAnd, redOr, redXor, multiHot]

/-- Reductions have a result of one bit. -/
def isReduction : UnaryOp → Bool
  | redAnd | redOr | redXor | multiHot => true
  | not | neg => false

def title : UnaryOp → String
  | not => "Not"
  | neg => "Neg"
  | redAnd => "RedAnd"
  | redOr => "RedOr"
  | redXor => "RedXor"
  | multiHot => "MultiHot"

def ofTitle? (s : String) : Option UnaryOp := all.find? (·.title == s)

def apply : UnaryOp → Value → Value
  | not => Value.not
  | neg => Value.neg
  | redAnd => Value.reduceAnd
  | redOr => Value.reduceOr
  | redXor => Value.reduceXor
  | multiHot => Value.multiHot

end UnaryOp

inductive BinaryOp where
  | add
  | sub
  | mul
  | div
  | mod
  | pow
  | and
  | or
  | xor
  | shl
  | shr
  | ashr
  | eq
  | ne
  | lt
  | le
  | gt
  | ge
deriving DecidableEq, Repr

namespace BinaryOp

def all : List BinaryOp :=
  [add, sub, mul, div, mod, pow, and, or, xor, shl, shr, ashr, eq, ne, lt, le, gt, ge]

/-- Comparisons have a result of one bit. -/
def isComparison : BinaryOp → Bool
  | eq | ne | lt | le | gt | ge => true
  | _ => false

/-- The amount of a shift has a width of its own. -/
def isShift : BinaryOp → Bool
  | shl | shr | ashr => true
  | _ => false

def name : BinaryOp → String
  | add => "add"
  | sub => "sub"
  | mul => "mul"
  | div => "div"
  | mod => "mod"
  | pow => "pow"
  | and => "and"
  | or => "or"
  | xor => "xor"
  | shl => "shl"
  | shr => "shr"
  | ashr => "ashr"
  | eq => "eq"
  | ne => "ne"
  | lt => "lt"
  | le => "le"
  | gt => "gt"
  | ge => "ge"

def title : BinaryOp → String
  | add => "Add"
  | sub => "Sub"
  | mul => "Mul"
  | div => "Div"
  | mod => "Mod"
  | pow => "Pow"
  | and => "And"
  | or => "Or"
  | xor => "Xor"
  | shl => "Shl"
  | shr => "Shr"
  | ashr => "Ashr"
  | eq => "Eq"
  | ne => "Ne"
  | lt => "Lt"
  | le => "Le"
  | gt => "Gt"
  | ge => "Ge"

def ofTitle? (s : String) : Option BinaryOp := all.find? (·.title == s)

def apply : BinaryOp → Value → Value → Except ValueError Value
  | add => Value.add
  | sub => Value.sub
  | mul => Value.mul
  | div => Value.div
  | mod => Value.mod
  | pow => Value.pow
  | and => Value.and
  | or => Value.or
  | xor => Value.xor
  | shl => fun v amount => .ok (v.shl amount)
  | shr => fun v amount => .ok (v.shr amount)
  | ashr => fun v amount => .ok (v.ashr amount)
  | eq => Value.eq
  | ne => Value.ne
  | lt => Value.lt
  | le => Value.le
  | gt => Value.gt
  | ge => Value.ge

end BinaryOp

end CombLogic
