import CombLogic.Netlist.Eval
import CombLogic.Proofs.Shape

/- Evaluation without a memo, on the structure of an expression alone, and what it means that evaluation
   with a memo gives the same: the memo is right, which is to say that what it keeps for a node is what
   plain evaluation gives for that node. -/
namespace CombLogic

open Expr Evaluating

mutual

/-- Evaluation where reads of targets are answered from outside. -/
def Expr.valueOn (env : Env) (answer : Ref → Except NetlistError Value) :
    Expr → Except NetlistError Value
  | .signal _ leaf => env.value leaf
  | .literal _ value => .ok value
  | .integer _ value => .error (.unsizedLiteral value)
  | .read _ target => answer target
  | .unassigned _ leaf => do throw (.placeholder (← env.name (.leaf leaf)))
  | .unary _ op a => do return op.apply (← valueOn env answer a)
  | .binary _ op a b => do
    let a ← valueOn env answer a
    let b ← valueOn env answer b
    (op.apply a b).mapError .value
  | .mux _ c t f => do
    let c ← valueOn env answer c
    match c.bits with
    | [.one] => valueOn env answer t
    | [.zero] => valueOn env answer f
    | [_] => return .unknown (← valueOn env answer t).width
    | _ => throw (.conditionWidth c.width)
  | .concat _ parts => do return .concat (← valuesOn env answer parts)
  | .slice _ a high low => do ((← valueOn env answer a).slice high low).mapError .value
  | .extend _ a width signed => do
    let a ← valueOn env answer a
    (if signed then a.signExtend width else a.zeroExtend width).mapError .value
  | .caseMatch _ s p wildcard => do
    let s ← valueOn env answer s
    let p ← valueOn env answer p
    if wildcard then return .ofBit (← (s.matchWild p).mapError .value)
    else return .ofBool (s == p)

def Expr.valuesOn (env : Env) (answer : Ref → Except NetlistError Value) :
    List Expr → Except NetlistError (List Value)
  | [] => return []
  | e :: rest => do
    let value ← valueOn env answer e
    return value :: (← valuesOn env answer rest)

end

namespace Env

/-- Outside a block no target can be read. -/
def unreadable (env : Env) (target : Ref) : Except NetlistError Value := do
  throw (.placeholder (← env.name target))

end Env

/-- The value of an expression by itself. -/
def Expr.value (env : Env) (e : Expr) : Except NetlistError Value := e.valueOn env env.unreadable

theorem Expr.valuesOn_map {env env' : Env} {answer answer' : Ref → Except NetlistError Value}
    {f : Expr → Expr} {es : List Expr}
    (same : ∀ a ∈ es, (f a).valueOn env answer = a.valueOn env' answer') :
    valuesOn env answer (es.map f) = valuesOn env' answer' es := by
  induction es with
  | nil => rfl
  | cons e rest ih =>
    have head := same e (by simp)
    have tail := ih fun a later => same a (by simp [later])
    simp only [List.map_cons, valuesOn, head, tail]

theorem Expr.valueOn_shape (env : Env) (answer : Ref → Except NetlistError Value) (e : Expr) :
    e.shape.valueOn env answer = e.valueOn env answer := by
  induction e using operand_induction with
  | step e ih =>
    cases e with
    | signal | literal | integer | read | unassigned => rfl
    | unary _ _ a | slice _ a | extend _ a =>
      simp only [shape, valueOn, ih a (by simp [children])]
    | binary _ _ a b | caseMatch _ a b =>
      simp only [shape, valueOn, ih a (by simp [children]), ih b (by simp [children])]
    | mux _ c t f =>
      simp only [shape, valueOn, ih c (by simp [children]), ih t (by simp [children]),
        ih f (by simp [children])]
    | concat _ parts =>
      simp only [shape, valueOn, shapes_eq_map,
        valuesOn_map fun a operand => ih a (by simpa [children] using operand)]

theorem Expr.value_alike {env : Env} {a b : Expr} (alike : a.shape = b.shape) :
    a.value env = b.value env := by
  rw [value, value, ← valueOn_shape, alike, valueOn_shape]

/-- Only the leaves that an expression reads matter for its value, and the names in its errors. -/
theorem Expr.valueOn_same {env env' : Env} {answer answer' : Ref → Except NetlistError Value}
    (e : Expr) (values : ∀ leaf, e.Reads leaf → env.value leaf = env'.value leaf)
    (reads : ∀ node target, e.Contains (.read node target) → answer target = answer' target)
    (names : ∀ node leaf, e.Contains (.unassigned node leaf) →
      env.name (.leaf leaf) = env'.name (.leaf leaf)) :
    e.valueOn env answer = e.valueOn env' answer' := by
  induction e using operand_induction with
  | step e ih =>
    have operand : ∀ a ∈ e.children, a.valueOn env answer = a.valueOn env' answer' :=
      fun a member => ih a member (fun leaf read => values leaf (reads_operand member read))
        (fun node target inside => reads node target (.within member inside))
        (fun node leaf inside => names node leaf (.within member inside))
    cases e with
    | signal node leaf => exact values leaf ⟨node, .root _⟩
    | read node target => exact reads node target (.root _)
    | literal | integer => rfl
    | unassigned node leaf => simp only [valueOn, names node leaf (.root _)]
    | unary _ _ a | slice _ a | extend _ a =>
      simp only [valueOn, operand a (by simp [children])]
    | binary _ _ a b | caseMatch _ a b =>
      simp only [valueOn, operand a (by simp [children]), operand b (by simp [children])]
    | mux _ c t f =>
      simp only [valueOn, operand c (by simp [children]), operand t (by simp [children]),
        operand f (by simp [children])]
    | concat _ parts =>
      have same : valuesOn env answer (parts.map id) = valuesOn env' answer' parts :=
        valuesOn_map operand
      rw [List.map_id] at same
      simp only [valueOn, same]

theorem Expr.valueOn_congr {env env' : Env} {answer answer' : Ref → Except NetlistError Value}
    (e : Expr) (assigned : e.Assigned)
    (values : ∀ leaf, e.Reads leaf → env.value leaf = env'.value leaf)
    (reads : ∀ node target, e.Contains (.read node target) → answer target = answer' target) :
    e.valueOn env answer = e.valueOn env' answer' := by
  refine valueOn_same e values reads fun node leaf inside => ?_
  cases assigned _ inside

theorem Expr.unread_of_resolved {e : Expr} (resolved : e.Resolved) {node : Nat} {target : Ref} :
    ¬e.Contains (.read node target) := by
  intro inside
  cases resolved _ inside

theorem Expr.value_congr {env env' : Env} {e : Expr} (resolved : e.Resolved)
    (values : ∀ leaf, e.Reads leaf → env.value leaf = env'.value leaf) :
    e.value env = e.value env' :=
  valueOn_congr e (assigned_of_resolved resolved) values
    fun _ _ inside => (unread_of_resolved resolved inside).elim

/-- The same for evaluation with a memo. -/
theorem Expr.evaluate_congr {env env' : Env} (e : Expr) (resolved : e.Resolved)
    (values : ∀ leaf, e.Reads leaf → env.value leaf = env'.value leaf) :
    e.evaluate env = e.evaluate env' := by
  induction e using operand_induction with
  | step e ih =>
    have operand : ∀ a ∈ e.children, a.evaluate env = a.evaluate env' :=
      fun a member => ih a member ((all_iff.mp resolved).2 a member)
        (fun leaf read => values leaf (reads_operand member read))
    cases e with
    | signal node leaf => simp only [evaluate, values leaf ⟨node, .root _⟩]
    | literal | integer => rfl
    | read node target | unassigned node leaf => cases resolved _ (.root _)
    | unary _ _ a | slice _ a | extend _ a =>
      simp only [evaluate, operand a (by simp [children])]
    | binary _ _ a b | caseMatch _ a b =>
      simp only [evaluate, operand a (by simp [children]), operand b (by simp [children])]
    | mux _ c t f =>
      simp only [evaluate, operand c (by simp [children]), operand t (by simp [children]),
        operand f (by simp [children])]
    | concat _ parts =>
      have same : ∀ es : List Expr, (∀ a ∈ es, a.evaluate env = a.evaluate env') →
          evaluateAll env es = evaluateAll env' es := by
        intro es each
        induction es with
        | nil => rfl
        | cons e rest ih =>
          simp only [evaluateAll, each e (by simp), ih fun a later => each a (by simp [later])]
      simp only [evaluate, same parts operand]

/-- A computation with a memo gives what a plain one gives, and leaves the memo right. -/
def Computes {α : Type} (right : ValueMemo → Prop) (m : Evaluating α)
    (p : Except NetlistError α) : Prop :=
  ∀ memo, right memo → match p with
    | .ok a => ∃ after, m memo = .ok (a, after) ∧ right after
    | .error x => m memo = .error x

/-- What is kept for a node is its value. -/
def MemoRight (K : Set Expr) (env : Env) (memo : ValueMemo) : Prop :=
  ∀ e ∈ K, ∀ v, memo[e.node]? = some v → e.value env = .ok v

end CombLogic
