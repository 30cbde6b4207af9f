import CombLogic.Proofs.Evaluation
import CombLogic.Proofs.Netlist.Lookup

/- Evaluation that goes on after a failure. What was found before the failure stays in the memo, and
   later evaluations use it. From a right memo it gives what an evaluation without a memo gives, and so
   does the evaluation that gives up its memo when it fails. -/
namespace CombLogic

open Expr

/-- Evaluation that keeps its memo when it fails. -/
abbrev Attempting := ExceptT NetlistError (StateM ValueMemo)

namespace Attempting

def ask {α : Type} (r : Except NetlistError α) : Attempting α := fun memo => (r, memo)

def valueOf {α : Type} (r : Except ValueError α) : Attempting α := ask (r.mapError .value)

def remember (node : Nat) (find : Attempting Value) : Attempting Value := do
  match (← getThe ValueMemo)[node]? with
  | some known => return known
  | none =>
    let found ← find
    modifyThe ValueMemo (·.insert node found)
    return found

end Attempting

open Attempting in
mutual

def Expr.attempt (env : Env) : Expr → Attempting Value
  | .signal n leaf => remember n (ask (env.value leaf))
  | .literal _ value => return value
  | .integer _ value => throw (.unsizedLiteral value)
  | .read _ target => ask (env.unreadable target)
  | .unassigned _ leaf => ask (env.unreadable (.leaf leaf))
  | .unary n op a => remember n do return op.apply (← attempt env a)
  | .binary n op a b => remember n do
    let a ← attempt env a
    let b ← attempt env b
    valueOf (op.apply a b)
  | .mux n c t f => remember n do
    let c ← attempt env c
    match c.bits with
    | [.one] => attempt env t
    | [.zero] => attempt env f
    | [_] => return .unknown (← attempt env t).width
    | _ => throw (.conditionWidth c.width)
  | .concat n parts => remember n do return .concat (← attemptAll env parts)
  | .slice n a high low => remember n do valueOf ((← attempt env a).slice high low)
  | .extend n a width signed => remember n do
    let a ← attempt env a
    valueOf (if signed then a.signExtend width else a.zeroExtend width)
  | .caseMatch n s p wildcard => remember n do
    let s ← attempt env s
    let p ← attempt env p
    if wildcard then return .ofBit (← valueOf (s.matchWild p))
    else return .ofBool (s == p)

def Expr.attemptAll (env : Env) : List Expr → Attempting (List Value)
  | [] => return []
  | e :: rest => do
    let value ← attempt env e
    return value :: (← attemptAll env rest)

end

section Agreement

/- An attempt goes the way of an evaluation, which gives up its memo when it fails. -/

variable {α β : Type} {env : Env}

def Agrees (m : Attempting α) (m' : Evaluating α) : Prop :=
  ∀ memo, m' memo = (m memo).1.map fun a => (a, (m memo).2)

theorem agrees_pure (a : α) : Agrees (pure a) (pure a) := fun _ => rfl

theorem agrees_throw (x : NetlistError) :
    Agrees (throw x : Attempting α) (throw x : Evaluating α) := fun _ => rfl

theorem agrees_ask (r : Except NetlistError α) : Agrees (Attempting.ask r) (Evaluating.ask r) := by
  intro memo
  cases r <;> rfl

theorem agrees_bind {m : Attempting α} {m' : Evaluating α} {f : α → Attempting β}
    {f' : α → Evaluating β} (first : Agrees m m') (rest : ∀ a, Agrees (f a) (f' a)) :
    Agrees (m >>= f) (m' >>= f') := by
  intro memo
  have here := first memo
  cases run : m memo with
  | mk result after =>
    rw [run] at here
    cases result with
    | error x =>
      rw [step_error run]
      simp only [bind, StateT.bind, here]
      rfl
    | ok a =>
      rw [step_ok run, ← rest a after]
      simp only [bind, StateT.bind, here]
      rfl

theorem agrees_remember (node : Nat) {find : Attempting Value} {find' : Evaluating Value}
    (found : Agrees find find') :
    Agrees (Attempting.remember node find) (Evaluating.remember node find') := by
  refine agrees_bind (fun _ => rfl) fun memo => ?_
  cases memo[node]? with
  | some v => exact agrees_pure v
  | none =>
    refine agrees_bind found fun v => ?_
    exact agrees_bind (fun _ => rfl) fun _ => agrees_pure v

theorem agrees_unreadable (env : Env) (target : Ref) :
    Agrees (Attempting.ask (env.unreadable target)) (Evaluating.placeholder env target) := by
  intro memo
  rw [Evaluating.placeholder, Attempting.ask, Env.unreadable]
  cases env.name target <;> rfl

theorem agrees_all {es : List Expr} (each : ∀ a ∈ es, Agrees (a.attempt env) (a.evaluate env)) :
    Agrees (attemptAll env es) (evaluateAll env es) := by
  induction es with
  | nil => exact agrees_pure []
  | cons e rest ih =>
    simp only [attemptAll, evaluateAll]
    refine agrees_bind (each e (by simp)) fun v => ?_
    exact agrees_bind (ih fun a later => each a (by simp [later])) fun vs => agrees_pure _

theorem attempt_agrees (env : Env) (e : Expr) : Agrees (e.attempt env) (e.evaluate env) := by
  induction e using operand_induction with
  | step e ih =>
    cases e with
    | signal node leaf => exact agrees_remember node (agrees_ask _)
    | literal node value => exact agrees_pure value
    | integer node value => exact agrees_throw _
    | read node target => exact agrees_unreadable env target
    | unassigned node leaf => exact agrees_unreadable env (.leaf leaf)
    | unary node op a =>
      refine agrees_remember node ?_
      exact agrees_bind (ih a (by simp [children])) fun v => agrees_pure _
    | binary node op a b =>
      refine agrees_remember node (agrees_bind (ih a (by simp [children])) fun v => ?_)
      exact agrees_bind (ih b (by simp [children])) fun w => agrees_ask _
    | mux node c t f =>
      refine agrees_remember node (agrees_bind (ih c (by simp [children])) fun v => ?_)
      have whenTrue := ih t (by simp [children])
      have whenFalse := ih f (by simp [children])
      obtain ⟨_ | ⟨bit, _ | ⟨second, rest⟩⟩⟩ := v
      · exact agrees_throw _
      · cases bit with
        | one => exact whenTrue
        | zero => exact whenFalse
        | x | z => exact agrees_bind whenTrue fun w => agrees_pure _
      · cases bit <;> exact agrees_throw _
    | concat node parts =>
      refine agrees_remember node (agrees_bind ?_ fun vs => agrees_pure _)
      exact agrees_all fun a operand => ih a (by simpa [children] using operand)
    | slice node a high low =>
      refine agrees_remember node ?_
      exact agrees_bind (ih a (by simp [children])) fun v => agrees_ask _
    | extend node a width signed =>
      refine agrees_remember node ?_
      exact agrees_bind (ih a (by simp [children])) fun v => agrees_ask _
    | caseMatch node s p wildcard =>
      refine agrees_remember node (agrees_bind (ih s (by simp [children])) fun v => ?_)
      refine agrees_bind (ih p (by simp [children])) fun w => ?_
      split
      · exact agrees_bind (agrees_ask _) fun bit => agrees_pure _
      · exact agrees_pure _

end Agreement

section Rightness

/- An attempt from a right memo has the plain answer and leaves the memo right, also if it fails. -/

variable {α β : Type} {env : Env} {right : ValueMemo → Prop}

def Attempts (right : ValueMemo → Prop) (m : Attempting α) (p : Except NetlistError α) : Prop :=
  ∀ memo, right memo → ∃ after, m memo = (p, after) ∧ right after

theorem attempts_pure (a : α) : Attempts right (pure a) (.ok a) := fun memo here => ⟨memo, rfl, here⟩

theorem attempts_throw (x : NetlistError) : Attempts (α := α) right (throw x) (.error x) :=
  fun memo here => ⟨memo, rfl, here⟩

theorem attempts_ask (r : Except NetlistError α) : Attempts right (Attempting.ask r) r :=
  fun memo here => ⟨memo, rfl, here⟩

theorem attempts_bind {m : Attempting α} {p : Except NetlistError α} {f : α → Attempting β}
    {q : α → Except NetlistError β} (first : Attempts right m p)
    (rest : ∀ a, Attempts right (f a) (q a)) : Attempts right (m >>= f) (p >>= q) := by
  intro memo here
  obtain ⟨after, run, still⟩ := first memo here
  cases p with
  | error x => exact ⟨after, step_error run, still⟩
  | ok a =>
    obtain ⟨last, done, there⟩ := rest a after still
    exact ⟨last, (step_ok run).trans done, there⟩

/-- What is kept for a node is its value, and the node is one of some nodes. -/
def MemoOf (p : Expr → Prop) (K : Set Expr) (env : Env) (memo : ValueMemo) : Prop :=
  ∀ e ∈ K, ∀ v, memo[e.node]? = some v → p e ∧ e.value env = .ok v

variable {p : Expr → Prop} {K : Set Expr} {next : Nat}

theorem attempts_remember (sharing : Sharing K next) {e : Expr} (member : e ∈ K) (here : p e)
    {find : Attempting Value} (found : Attempts (MemoOf p K env) find (e.value env)) :
    Attempts (MemoOf p K env) (Attempting.remember e.node find) (e.value env) := by
  intro memo kept
  cases known : memo[e.node]? with
  | some v =>
    refine ⟨memo, ?_, kept⟩
    rw [(kept e member v known).2]
    exact (step_ok rfl).trans (by rw [known]; rfl)
  | none =>
    obtain ⟨after, run, still⟩ := found memo kept
    have start : Attempting.remember e.node find memo =
        (find >>= fun v => do modifyThe ValueMemo (·.insert e.node v); return v : Attempting Value)
          memo := (step_ok rfl).trans (by rw [known])
    cases plain : e.value env with
    | error x =>
      rw [plain] at run
      exact ⟨after, start.trans (step_error run), still⟩
    | ok v =>
      rw [plain] at run
      refine ⟨after.insert e.node v, start.trans ((step_ok run).trans rfl), ?_⟩
      intro a inside w stored
      rw [Std.TreeMap.getElem?_insert] at stored
      by_cases same : e.node = a.node
      · obtain rfl := sharing.one_node e member a inside same
        simp_all
      · rw [if_neg (by simpa using same)] at stored
        exact still a inside w stored

theorem attempts_all {es : List Expr}
    (each : ∀ a ∈ es, Attempts right (a.attempt env) (a.value env)) :
    Attempts right (attemptAll env es) (valuesOn env env.unreadable es) := by
  induction es with
  | nil => exact attempts_pure []
  | cons e rest ih =>
    simp only [attemptAll, valuesOn]
    refine attempts_bind (each e (by simp)) fun v => ?_
    exact attempts_bind (ih fun a later => each a (by simp [later])) fun vs => attempts_pure _

theorem attempt_right (sharing : Sharing K next) (below : ∀ e a, p e → a ∈ e.children → p a)
    (e : Expr) : e ∈ K → p e → Attempts (MemoOf p K env) (e.attempt env) (e.value env) := by
  induction e using operand_induction with
  | step e ih =>
    intro member here
    have operand : ∀ a ∈ e.children, Attempts (MemoOf p K env) (a.attempt env) (a.value env) :=
      fun a inside => ih a inside (sharing.operands e member a inside) (below e a here inside)
    have remembered : ∀ find, Attempts (MemoOf p K env) find (e.value env) →
        Attempts (MemoOf p K env) (Attempting.remember e.node find) (e.value env) :=
      fun find => attempts_remember sharing member here
    cases e with
    | signal node leaf => exact remembered _ (attempts_ask _)
    | literal node value => exact attempts_pure value
    | integer node value => exact attempts_throw _
    | read node target | unassigned node leaf => exact attempts_ask _
    | unary node op a =>
      exact remembered _ (attempts_bind (operand a (by simp [children])) fun v => attempts_pure _)
    | binary node op a b =>
      refine remembered _ (attempts_bind (operand a (by simp [children])) fun v => ?_)
      exact attempts_bind (operand b (by simp [children])) fun w => attempts_ask _
    | mux node c t f =>
      refine remembered _ (attempts_bind (operand c (by simp [children])) fun v => ?_)
      have whenTrue := operand t (by simp [children])
      have whenFalse := operand f (by simp [children])
      obtain ⟨_ | ⟨bit, _ | ⟨second, rest⟩⟩⟩ := v
      · exact attempts_throw _
      · cases bit with
        | one => exact whenTrue
        | zero => exact whenFalse
        | x | z => exact attempts_bind whenTrue fun w => attempts_pure _
      · cases bit <;> exact attempts_throw _
    | concat node parts =>
      exact remembered _ (attempts_bind (attempts_all operand) fun vs => attempts_pure _)
    | slice node a high low =>
      exact remembered _ (attempts_bind (operand a (by simp [children])) fun v => attempts_ask _)
    | extend node a width signed =>
      exact remembered _ (attempts_bind (operand a (by simp [children])) fun v => attempts_ask _)
    | caseMatch node s p wildcard =>
      refine remembered _ (attempts_bind (operand s (by simp [children])) fun v => ?_)
      refine attempts_bind (operand p (by simp [children])) fun w => ?_
      split
      · exact attempts_bind (attempts_ask _) fun bit => attempts_pure _
      · exact attempts_pure _

/-- The memo cannot be told from the outside. -/
theorem evaluate_computes (sharing : Sharing K next) (e : Expr) (member : e ∈ K) :
    Computes (MemoRight K env) (e.evaluate env) (e.value env) := by
  intro memo right
  have kept : MemoOf (fun _ => True) K env memo := fun a inside v known =>
    ⟨trivial, right a inside v known⟩
  obtain ⟨after, run, still⟩ :=
    attempt_right sharing (fun _ _ _ _ => trivial) e member trivial memo kept
  have agrees := attempt_agrees env e memo
  rw [run] at agrees
  cases plain : e.value env with
  | error x =>
    rw [plain] at agrees
    exact agrees
  | ok v =>
    rw [plain] at agrees
    exact ⟨after, agrees, fun a inside w known => (still a inside w known).2⟩

end Rightness

end CombLogic
