import CombLogic.Proofs.Attempts
import CombLogic.Proofs.Netlist.Pass
import CombLogic.Proofs.Shared

/- Calls on one evaluator, which set leaves and evaluate expressions in any order. The memo outlives
   the setting of a leaf. It stays right as long as no expression was evaluated before that reads
   the leaf, whether its read of the leaf was ever evaluated or not. -/
namespace CombLogic

open Expr Netlist

inductive EvalCall where
  | set (id : LeafId) (value : Value)
  | eval (e : Expr)

namespace EvalCall

/-- A leaf is set that an expression evaluated before reads. -/
def Disturbs : EvalCall → EvalCall → Prop
  | .eval e, .set id _ => e.Reads id
  | _, _ => False

def expr? : EvalCall → Option Expr
  | .eval e => some e
  | .set .. => none

/-- No leaf is set after the evaluation of an expression that reads it. -/
def Timely (calls : List EvalCall) : Prop := calls.Pairwise fun first later => ¬first.Disturbs later

def evaluated (calls : List EvalCall) : List Expr := calls.filterMap expr?

instance (e : Expr) (id : LeafId) : Decidable (e.Reads id) :=
  decidable_of_iff (∃ n ∈ e.everyNode, n = .signal n.node id) <| by
    constructor
    · rintro ⟨n, member, equal⟩
      exact ⟨n.node, equal ▸ (mem_everyNode e n).mp member⟩
    · rintro ⟨node, inside⟩
      exact ⟨_, (mem_everyNode e _).mpr inside, rfl⟩

instance : (first later : EvalCall) → Decidable (first.Disturbs later)
  | .eval e, .set id _ => inferInstanceAs (Decidable (e.Reads id))
  | .eval _, .eval _ | .set .., _ => isFalse fun disturbs => disturbs

instance (calls : List EvalCall) : Decidable (Timely calls) :=
  inferInstanceAs (Decidable (calls.Pairwise _))

theorem mem_evaluated {calls : List EvalCall} {e : Expr} :
    e ∈ evaluated calls ↔ .eval e ∈ calls := by
  rw [evaluated, List.mem_filterMap]
  constructor
  · rintro ⟨call, member, found⟩
    cases call with
    | set => cases found
    | eval =>
      cases found
      exact member
  · exact fun member => ⟨_, member, rfl⟩

/-- An expression that reads none of the leaves that are still to be set. -/
def Untouched (calls : List EvalCall) (e : Expr) : Prop :=
  ∀ id value, .set id value ∈ calls → ¬e.Reads id

end EvalCall

namespace Evaluation

open EvalCall

/-- One evaluation, whether it succeeds or not. -/
def attempt (ev : Evaluation) (g : Netlist) (e : Expr) : Except NetlistError Value × Evaluation :=
  let (answer, memo) := (e.attempt (ev.env g)).run.run ev.memo
  (answer, { ev with memo := memo })

/-- What the evaluations among some calls answer. -/
def answers (g : Netlist) : Evaluation → List EvalCall → List (Except NetlistError Value)
  | _, [] => []
  | ev, .set id v :: rest => answers g (ev.set id v) rest
  | ev, .eval e :: rest => (ev.attempt g e).1 :: answers g (ev.attempt g e).2 rest

/-- What evaluations without a memo answer. -/
def plainAnswers (g : Netlist) : Evaluation → List EvalCall → List (Except NetlistError Value)
  | _, [] => []
  | ev, .set id v :: rest => plainAnswers g (ev.set id v) rest
  | ev, .eval e :: rest => e.value (ev.env g) :: plainAnswers g ev rest

variable {g : Netlist} {ev : Evaluation} {calls rest : List EvalCall} {K : Set Expr} {next : Nat}

theorem run_attempt (ev : Evaluation) (g : Netlist) (e : Expr) :
    ev.run g e = (ev.attempt g e).1.map fun v => (v, (ev.attempt g e).2) := by
  have agrees := attempt_agrees (ev.env g) e ev.memo
  cases run : e.attempt (ev.env g) ev.memo with
  | mk answer memo =>
    have same : ev.attempt g e = (answer, { ev with memo := memo }) := by
      simp only [attempt, ExceptT.run, StateT.run, run]
    rw [run] at agrees
    rw [same, Evaluation.run, StateT.run, agrees]
    cases answer <;> rfl

theorem env_values {ev ev' : Evaluation} (same : ev.values = ev'.values) : ev.env g = ev'.env g := by
  simp only [Evaluation.env, same]

/-- A memo does not matter without a memo. -/
theorem plainAnswers_values (calls : List EvalCall) {ev ev' : Evaluation}
    (same : ev.values = ev'.values) : ev.plainAnswers g calls = ev'.plainAnswers g calls := by
  induction calls generalizing ev ev' with
  | nil => rfl
  | cons call rest ih =>
    cases call with
    | set id v => exact ih (congrArg (·.insert id v) same)
    | eval e => rw [plainAnswers, plainAnswers, env_values same, ih same]

/-- The values of nodes that read no other leaf than before stay right when a leaf is set. -/
theorem memoOf_set {id : LeafId} {value : Value}
    (right : MemoOf (Untouched (.set id value :: rest)) K (ev.env g) ev.memo) :
    MemoOf (Untouched rest) K ((ev.set id value).env g) (ev.set id value).memo := by
  intro e member v known
  obtain ⟨untouched, plain⟩ := right e member v known
  refine ⟨fun other w later => untouched other w (List.mem_cons_of_mem _ later), ?_⟩
  rw [← plain]
  refine Expr.valueOn_same e (fun leaf read => ?_) (fun _ _ _ => rfl) fun _ _ _ => rfl
  have apart : id ≠ leaf := by
    rintro rfl
    exact untouched id value List.mem_cons_self read
  refine env_alike ?_
  rw [values_set, if_neg apart]

/-- One evaluation answers right and leaves a right memo. -/
theorem attempt_step (sharing : Sharing K next) {e : Expr} (member : e ∈ K)
    (untouched : Untouched rest e)
    (right : MemoOf (Untouched rest) K (ev.env g) ev.memo) :
    (ev.attempt g e).1 = e.value (ev.env g) ∧ (ev.attempt g e).2.values = ev.values ∧
      MemoOf (Untouched rest) K (ev.env g) (ev.attempt g e).2.memo := by
  have below : ∀ n a, Untouched rest n → a ∈ n.children → Untouched rest a :=
    fun n a outside operand id value later read =>
      outside id value later (reads_operand operand read)
  obtain ⟨after, run, still⟩ := attempt_right sharing below e member untouched ev.memo right
  have same : ev.attempt g e = (e.value (ev.env g), { ev with memo := after }) := by
    simp only [attempt, ExceptT.run, StateT.run, run]
  rw [same]
  exact ⟨rfl, rfl, still⟩

/-- The run lemma: every answer is right. -/
theorem answers_plain (sharing : Sharing K next) (members : ∀ e, .eval e ∈ calls → e ∈ K)
    (timely : Timely calls) (right : MemoOf (Untouched calls) K (ev.env g) ev.memo) :
    ev.answers g calls = ev.plainAnswers g calls := by
  induction calls generalizing ev with
  | nil => rfl
  | cons call rest ih =>
    obtain ⟨ahead, timely'⟩ : _ ∧ Timely rest := List.pairwise_cons.mp timely
    have members' : ∀ e, .eval e ∈ rest → e ∈ K :=
      fun e later => members e (List.mem_cons_of_mem _ later)
    cases call with
    | set id value => exact ih members' timely' (memoOf_set right)
    | eval e =>
      have untouched : Untouched rest e := fun id value later => ahead _ later
      have right' : MemoOf (Untouched rest) K (ev.env g) ev.memo := by
        intro n member v known
        obtain ⟨outside, plain⟩ := right n member v known
        exact ⟨fun id value later => outside id value (List.mem_cons_of_mem _ later), plain⟩
      obtain ⟨answer, values, still⟩ :=
        attempt_step sharing (members e List.mem_cons_self) untouched right'
      have later : (ev.attempt g e).2.answers g rest = (ev.attempt g e).2.plainAnswers g rest :=
        ih members' timely' (env_values values ▸ still)
      rw [answers, plainAnswers, answer, later, plainAnswers_values rest values]

end Evaluation

end CombLogic
