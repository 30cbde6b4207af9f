import CombLogic.Netlist.Sizing
import CombLogic.Value.Bitwise

/- Evaluation of sized expressions. Values are kept by node number, so a node that several drivers
   share is evaluated once. Of a choice only the taken branch is evaluated, and under an unknown
   condition only the first one, for its width. -/
namespace CombLogic

/-- What evaluation needs from outside: values of leaves, and names for its errors. -/
structure Env where
  value : LeafId → Except NetlistError Value
  name : Ref → Except NetlistError String

abbrev ValueMemo := Std.TreeMap Nat Value

abbrev Evaluating := StateT ValueMemo (Except NetlistError)

namespace Evaluating

def ask {α : Type} (r : Except NetlistError α) : Evaluating α := liftM r

def valueOf {α : Type} (r : Except ValueError α) : Evaluating α := ask (r.mapError .value)

/-- The error for a node that only stands in for a value. -/
def placeholder (env : Env) (target : Ref) : Evaluating Value := do
  throw (.placeholder (← ask (env.name target)))

@[inline] def remember (node : Nat) (find : Evaluating Value) : Evaluating Value := do
  match (← get)[node]? with
  | some value => return value
  | none =>
    let value ← find
    modify (·.insert node value)
    return value

end Evaluating

open Evaluating

mutual

def Expr.evaluate (env : Env) : Expr → Evaluating Value
  | .signal n leaf => remember n (ask (env.value leaf))
  | .literal _ value => return value
  | .integer _ value => throw (.unsizedLiteral value)
  | .read _ target => placeholder env target
  | .unassigned _ leaf => placeholder env (.leaf leaf)
  | .unary n op a => remember n do return op.apply (← evaluate env a)
  | .binary n op a b => remember n do
    let a ← evaluate env a
    let b ← evaluate env b
    valueOf (op.apply a b)
  | .mux n c t f => remember n do
    let c ← evaluate env c
    match c.bits with
    | [.one] => evaluate env t
    | [.zero] => evaluate env f
    | [_] => return .unknown (← evaluate env t).width
    | _ => throw (.conditionWidth c.width)
  | .concat n parts => remember n do return .concat (← evaluateAll env parts)
  | .slice n a high low => remember n do valueOf ((← evaluate env a).slice high low)
  | .extend n a width signed => remember n do
    let a ← evaluate env a
    valueOf (if signed then a.signExtend width else a.zeroExtend width)
  | .caseMatch n s p wildcard => remember n do
    let s ← evaluate env s
    let p ← evaluate env p
    if wildcard then return .ofBit (← valueOf (s.matchWild p))
    else return .ofBool (s == p)

def Expr.evaluateAll (env : Env) : List Expr → Evaluating (List Value)
  | [] => return []
  | e :: rest => do
    let value ← evaluate env e
    return value :: (← evaluateAll env rest)

end

/-- Values found so far in a pass. A leaf has its new value here from the moment it is set; what
    was evaluated before stays as it was found. -/
structure Evaluation where
  values : Std.TreeMap LeafId Value
  memo : ValueMemo

namespace Evaluation

def start : Evaluation := ⟨{}, {}⟩

def set (ev : Evaluation) (id : LeafId) (value : Value) : Evaluation :=
  { ev with values := ev.values.insert id value }

def env (ev : Evaluation) (g : Netlist) : Env where
  value id := match ev.values[id]? with
    | some value => .ok value
    | none => g.value id
  name := g.nameOf

def run (ev : Evaluation) (g : Netlist) (e : Expr) : Except NetlistError (Value × Evaluation) := do
  let (value, memo) ← (e.evaluate (ev.env g)).run ev.memo
  return (value, { ev with memo := memo })

end Evaluation

/-- The value of an expression, which is sized first, on the present values of the leaves. -/
def Netlist.evaluate (g : Netlist) (e : Expr) : Numbering (Except NetlistError) Value := do
  let (sized, _) ← g.sizeFor e none
  return (← Evaluation.start.run g sized).1

end CombLogic
