import Mathlib.Data.Set.Card
import CombLogic.Proofs.Cycles
import CombLogic.Proofs.Netlist.Links
import CombLogic.Proofs.Netlist.Widths

/- What a pass comes to, and what becomes of it. It comes to everything downstream of what changed. If
   that is too much, or if there is a loop in it, the pass fails for this and evaluates nothing;
   evaluation never fails for either of them. -/
namespace CombLogic

open Expr Netlist Evaluating

namespace Netlist

/-- Leaves that wait for a pass or are staged with another value, and all leaves whose drivers read
    one of those. -/
inductive Downstream (g : Netlist) : LeafId → Prop where
  | waiting {id : LeafId} (dirty : id ∈ g.dirty.keys) : Downstream g id
  | changing {id : LeafId} {value : Value} {leaf : Leaf} (staged : g.staged.get? id = some value)
      (found : g.leaves.get? id = some leaf) (differs : leaf.value ≠ value) : Downstream g id
  | reader {id source : LeafId} (reads : g.DependsOn id source) (above : Downstream g source) :
      Downstream g id

/-- How many leaves a pass comes to. -/
noncomputable def downstreamCount (g : Netlist) : Nat := {id | g.Downstream id}.ncard

/-- Leaves that all depend on each other, one of them on itself, and all leaves that do so. -/
def Component (g : Netlist) (ids : List LeafId) : Prop :=
  ∃ id, Relation.TransGen g.DependsOn id id ∧ ∀ other, other ∈ ids ↔
    Relation.ReflTransGen g.DependsOn id other ∧ Relation.ReflTransGen g.DependsOn other id

section

variable {g : Netlist} {made : List ConflictCheck} {K : Set Expr}

theorem seeds_downstream {id : LeafId} (seed : id ∈ g.seeds.keys) : g.Downstream id := by
  rcases mem_seeds.mp seed with ⟨value, leaf, staged, found, differs⟩ | dirty
  · exact .changing staged found differs
  · exact .waiting dirty

theorem mem_affected (kept : g.Kept made K) (linked : g.Linked) (id : LeafId) :
    id ∈ g.affected.keys ↔ g.Downstream id := by
  constructor
  · refine Order.reachable_within (fun source above id reads => ?_)
      (fun id seed => seeds_downstream seed) id
    exact .reader (linked.reader source id reads) above
  · intro downstream
    induction downstream with
    | waiting dirty => exact Order.seed_reachable (mem_seeds.mpr (.inr dirty))
    | changing staged found differs =>
      exact Order.seed_reachable (mem_seeds.mpr (.inl ⟨_, _, staged, found, differs⟩))
    | reader reads _ ih => exact affected_closed kept _ ih _ (dependsOn_listed kept reads)

theorem downstream_count (kept : g.Kept made K) (linked : g.Linked) :
    {id | g.Downstream id}.Finite ∧ g.downstreamCount = g.affected.size := by
  have same : {id | g.Downstream id} = (g.affected.keys.toFinset : Set LeafId) := by
    ext id
    simp [mem_affected kept linked]
  rw [downstreamCount, same, Set.ncard_coe_finset, List.toFinset_card_of_nodup g.affected.nodup_keys]
  exact ⟨Finset.finite_toSet _, by simp [OrderedMap.keys, OrderedMap.size]⟩

end

section Cycles

variable {g : Netlist} {made : List ConflictCheck} {K : Set Expr}

theorem edge_swap (kept : g.Kept made K) (linked : g.Linked) :
    Order.Edge g.readersOf = Function.swap g.DependsOn := by
  funext source id
  exact propext (readersOf_iff kept linked id source)

theorem walk_iff (kept : g.Kept made K) (linked : g.Linked) (id other : LeafId) :
    Order.Walk g.readersOf id other ↔ Relation.ReflTransGen g.DependsOn other id := by
  rw [Order.Walk, edge_swap kept linked, Relation.reflTransGen_swap]

theorem onCycle_iff (kept : g.Kept made K) (linked : g.Linked) (id : LeafId) :
    Order.OnCycle g.readersOf id ↔ Relation.TransGen g.DependsOn id id := by
  rw [Order.OnCycle, edge_swap kept linked, Relation.transGen_swap]

theorem chain_iff {α : Type} {r : α → α → Prop} {a b : α} :
    (∃ between, List.IsChain r (a :: between ++ [b])) ↔ Relation.TransGen r a b := by
  constructor
  · rintro ⟨between, chain⟩
    induction between generalizing a with
    | nil => exact .single (by simpa using chain)
    | cons c rest ih =>
      obtain ⟨edge, later⟩ := List.isChain_cons_cons.mp chain
      exact .head edge (ih later)
  · intro walk
    induction walk using Relation.TransGen.head_induction_on with
    | single edge => exact ⟨[], by simpa using edge⟩
    | head edge _ ih =>
      obtain ⟨between, chain⟩ := ih
      exact ⟨_ :: between, List.isChain_cons_cons.mpr ⟨edge, chain⟩⟩

/-- A loop downstream is a cycle that the walk of a pass comes to. -/
theorem loop_iff (kept : g.Kept made K) (linked : g.Linked) :
    (∃ ids, g.Loop ids ∧ ∀ id ∈ ids, g.Downstream id) ↔
      ∃ id ∈ g.affected.keys, Order.OnCycle g.readersOf id := by
  simp only [mem_affected kept linked, onCycle_iff kept linked]
  constructor
  · rintro ⟨ids, loop, below⟩
    cases ids with
    | nil => exact loop.elim
    | cons id rest => exact ⟨id, below id (by simp), chain_iff.mp ⟨rest, loop⟩⟩
  · rintro ⟨id, below, cycle⟩
    obtain ⟨rest, chain⟩ := chain_iff.mpr cycle
    have loop : g.Loop (id :: rest) := chain
    exact ⟨id :: rest, loop,
      loop_closed loop (fun _ _ reads above => .reader reads above) (by simp) below⟩

end Cycles

section Evaluation

/-- Whatever fails here fails neither for an order nor for its size. -/
def Orderless {α : Type} (m : Evaluating α) : Prop :=
  ∀ memo x, m memo = .error x → ¬PassError x

variable {α β : Type}

theorem orderless_pure (a : α) : Orderless (pure a) := by
  intro memo x failed
  cases failed

theorem orderless_ask {r : Except NetlistError α} (plain : ∀ x, r = .error x → ¬PassError x) :
    Orderless (ask r) := by
  intro memo x failed
  cases r with
  | ok => cases failed
  | error y =>
    obtain rfl : y = x := by cases failed; rfl
    exact plain y rfl

theorem orderless_valueOf (r : Except ValueError α) : Orderless (valueOf r) := by
  refine orderless_ask fun x failed large => ?_
  cases r <;> cases failed
  cases large

theorem orderless_throw {x : NetlistError} (plain : ¬PassError x) :
    Orderless (throw x : Evaluating α) := by
  intro memo y failed
  cases failed
  exact plain

theorem orderless_bind {m : Evaluating α} {f : α → Evaluating β} (first : Orderless m)
    (rest : ∀ a, Orderless (f a)) : Orderless (m >>= f) := by
  intro memo x failed
  cases here : m memo with
  | error y =>
    simp only [bind, StateT.bind, here, Except.bind, Except.error.injEq] at failed
    exact failed ▸ first memo y here
  | ok found =>
    simp only [bind, StateT.bind, here, Except.bind] at failed
    exact rest found.1 found.2 x failed

theorem orderless_remember {node : Nat} {find : Evaluating Value} (found : Orderless find) :
    Orderless (remember node find) := by
  refine orderless_bind (fun memo x failed => by cases failed) fun memo => ?_
  split
  · exact orderless_pure _
  · exact orderless_bind found fun v => orderless_bind (fun memo x failed => by cases failed)
      fun _ => orderless_pure v

theorem orderless_evaluateAll {env : Env} {es : List Expr}
    (each : ∀ a ∈ es, Orderless (a.evaluate env)) : Orderless (evaluateAll env es) := by
  induction es with
  | nil => exact orderless_pure []
  | cons e rest ih =>
    exact orderless_bind (each e (by simp)) fun v =>
      orderless_bind (ih fun a later => each a (by simp [later])) fun _ => orderless_pure _

theorem evaluate_orderless {env : Env}
    (values : ∀ leaf x, env.value leaf = .error x → ¬PassError x)
    (names : ∀ target x, env.name target = .error x → ¬PassError x) (e : Expr) :
    Orderless (e.evaluate env) := by
  have placed : ∀ target, Orderless (placeholder env target) := fun target =>
    orderless_bind (orderless_ask (names target)) fun _ => orderless_throw nofun
  induction e using operand_induction with
  | step e ih =>
    cases e with
    | signal node leaf => exact orderless_remember (orderless_ask (values leaf))
    | literal node value => exact orderless_pure value
    | integer node value => exact orderless_throw nofun
    | read node target => exact placed target
    | unassigned node leaf => exact placed (.leaf leaf)
    | unary node op a =>
      exact orderless_remember
        (orderless_bind (ih a (by simp [children])) fun _ => orderless_pure _)
    | binary node op a b =>
      exact orderless_remember (orderless_bind (ih a (by simp [children])) fun _ =>
        orderless_bind (ih b (by simp [children])) fun _ => orderless_valueOf _)
    | mux node c t f =>
      refine orderless_remember (orderless_bind (ih c (by simp [children])) fun _ => ?_)
      split
      · exact ih t (by simp [children])
      · exact ih f (by simp [children])
      · exact orderless_bind (ih t (by simp [children])) fun _ => orderless_pure _
      · exact orderless_throw (by rintro ⟨⟩)
    | concat node parts =>
      exact orderless_remember (orderless_bind
        (orderless_evaluateAll fun a operand => ih a (by simpa [children] using operand))
        fun _ => orderless_pure _)
    | slice node a high low =>
      exact orderless_remember
        (orderless_bind (ih a (by simp [children])) fun _ => orderless_valueOf _)
    | extend node a width signed =>
      exact orderless_remember
        (orderless_bind (ih a (by simp [children])) fun _ => orderless_valueOf _)
    | caseMatch node s p wildcard =>
      refine orderless_remember (orderless_bind (ih s (by simp [children])) fun _ =>
        orderless_bind (ih p (by simp [children])) fun _ => ?_)
      split
      · exact orderless_bind (orderless_valueOf _) fun _ => orderless_pure _
      · exact orderless_pure _

variable {g : Netlist} {ev : Evaluation} {x : NetlistError}

theorem leaf_error {id : LeafId} (failed : g.leaf id = .error x) : ¬PassError x := by
  unfold leaf at failed
  split at failed
  · cases failed
  · cases failed
    exact nofun

theorem nameText_error {number : Nat} (failed : g.nameText number = .error x) : ¬PassError x := by
  unfold nameText at failed
  split at failed
  · cases failed
  · cases failed
    exact nofun

theorem nameOf_error {target : Ref} (failed : g.nameOf target = .error x) : ¬PassError x := by
  cases target with
  | leaf id =>
    rcases bind_error failed with lost | ⟨leaf, -, failed⟩
    · exact leaf_error lost
    · exact nameText_error failed
  | bundle id =>
    rcases bind_error failed with lost | ⟨bundle, -, failed⟩
    · unfold Netlist.bundle at lost
      split at lost
      · cases lost
      · cases lost
        exact nofun
    · exact nameText_error failed

theorem run_error {e : Expr} (failed : ev.run g e = .error x) : ¬PassError x := by
  rcases bind_error failed with failed | ⟨found, -, done⟩
  · refine evaluate_orderless (fun leaf y lost => ?_) (fun target y lost => nameOf_error lost) e
      ev.memo x failed
    cases known : ev.values[leaf]? with
    | some value => simp [env_of_value known] at lost
    | none =>
      rw [env_of_none known] at lost
      rcases bind_error lost with lost | ⟨leaf, -, done⟩
      · exact leaf_error lost
      · cases done
  · cases done

theorem evaluateDrivers_error {order : List LeafId} {count : Nat}
    (failed : g.evaluateDrivers ev count order = .error x) : ¬PassError x := by
  induction order generalizing ev count with
  | nil => cases failed
  | cons id rest ih =>
    rw [evaluateDrivers] at failed
    rcases bind_error failed with lost | ⟨leaf, -, failed⟩
    · exact leaf_error lost
    · cases drive : leaf.drive with
      | driven driver =>
        rw [drive] at failed
        rcases bind_error failed with here | ⟨found, -, later⟩
        · exact run_error here
        · exact ih later
      | undriven | root =>
        rw [drive] at failed
        exact ih failed

theorem evaluateChecks_error {reached : OrderedSet} {checks : List ConflictCheck} {index : Nat}
    (failed : g.evaluateChecks reached ev index checks = .error x) : ¬PassError x := by
  induction checks generalizing ev index with
  | nil => cases failed
  | cons check rest ih =>
    rw [evaluateChecks] at failed
    split at failed
    · rcases bind_error failed with here | ⟨found, -, failed⟩
      · exact run_error here
      · rcases bind_error failed with later | ⟨conflicts, -, done⟩
        · exact ih later
        · split at done <;> cases done
    · exact ih failed

end Evaluation

section

variable {g : Netlist} {made : List ConflictCheck} {K : Set Expr}

/-- What becomes of a pass. -/
inductive Outcome (g : Netlist) (outcome : Except NetlistError PassResult) : Prop where
  | large (excess : g.maxPassNodes < g.affected.size)
      (failed : outcome = .error (.passTooLarge g.affected.size g.maxPassNodes))
  | loop (fits : g.affected.size ≤ g.maxPassNodes) {start : LeafId} {names : List String}
      (unsorted : Order.sort g.readersOf g.affected.keys = .error start)
      (named : (g.loopOf g.affected.keys start).mapM g.leafName = .ok names)
      (failed : outcome = .error (.combinationalLoop (g.loopOf g.affected.keys start) names))
  | sorted (fits : g.affected.size ≤ g.maxPassNodes) {order : List LeafId}
      (sorted : Order.sort g.readersOf g.affected.keys = .ok order)
      (other : ∀ x, outcome = .error x → ¬PassError x)

theorem runPass_outcome (kept : g.Kept made K) : g.Outcome g.runPass := by
  by_cases excess : g.maxPassNodes < g.affected.size
  · exact .large excess (by simp [runPass, excess]; rfl)
  · have fits := Nat.le_of_not_lt excess
    cases sorted : Order.sort g.readersOf g.affected.keys with
    | error start =>
      obtain ⟨names, named⟩ := leafNames_ok kept (loopOf_bounded kept sorted)
      refine .loop fits sorted named ?_
      simp [runPass, excess, orderOf, sorted, named, bind, Except.bind]
      rfl
    | ok order =>
      refine .sorted fits sorted fun x failed => ?_
      simp only [runPass, if_neg excess, orderOf, sorted] at failed
      rcases bind_error failed with lost | ⟨_, -, failed⟩
      · cases lost
      rcases bind_error failed with lost | ⟨_, -, failed⟩
      · exact evaluateDrivers_error lost
      rcases bind_error failed with lost | ⟨_, -, done⟩
      · exact evaluateChecks_error lost
      · cases done

end

end Netlist

end CombLogic
