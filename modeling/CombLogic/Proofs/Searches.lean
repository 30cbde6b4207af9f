import CombLogic.Proofs.Traversal

/- Searches of expressions. The loop over a stack asks at the nodes in the order of the visit by
   recursion, each node once, up to the first find; what an expression reads, and whether a node in it
   only stands in for a value, is told by such searches. -/
namespace CombLogic

namespace Expr

/-- A question that notes the nodes at which it is asked. -/
def noted {β : Type} (f : Expr → Option β) (n : Expr) : StateM (List Expr) (Option β) := do
  modify (· ++ [n])
  return f n

/-- What is found among the nodes of an expression, and by which questions. -/
structure Searched (e : Expr) : Prop where
  /-- The visit by recursion passes over all places but the first one of each node. -/
  order : e.nodes = e.everyNode.eraseDups
  once : e.nodes.Nodup
  reach : ∀ n, n ∈ e.nodes ↔ e.Contains n
  /-- The loop asks at these nodes one after the other, whatever effects the questions have. -/
  search : ∀ (m : Type → Type) [Monad m] (β : Type) (ask : Expr → m (Option β)),
    e.search ask = e.nodes.findSomeM? ask
  /-- The last question is that with the first find. Without a find there is one question for each
      node. -/
  calls : ∀ (β : Type) (f : Expr → Option β), (e.search (noted f)).run [] =
    (e.nodes.findSome? f, e.nodes.take (e.nodes.findIdx (fun n => (f n).isSome) + 1))
  find : ∀ (β : Type) (f : Expr → Option β), e.find? f = e.nodes.findSome? f
  signals : e.signals = (e.nodes.filterMap signal?).eraseDups
  signalsOnce : e.signals.Nodup
  reads : ∀ leaf, leaf ∈ e.signals ↔ ∃ node, e.Contains (.signal node leaf)
  unassigned : e.firstUnassigned?.isSome = true ↔ ∃ node leaf, e.Contains (.unassigned node leaf)
  placeholder : e.hasPlaceholder = true ↔
    (∃ node target, e.Contains (.read node target)) ∨ ∃ node leaf, e.Contains (.unassigned node leaf)

section

variable {K : Set Expr} {next : Nat} {β : Type}

theorem noted_all (f : Expr → Option β) (ns before : List Expr) :
    (ns.findSomeM? (noted f)).run before =
      (ns.findSome? f, before ++ ns.take (ns.findIdx (fun n => (f n).isSome) + 1)) := by
  induction ns generalizing before with
  | nil =>
    simp only [List.findSome?_nil, List.take_nil, List.append_nil]
    rfl
  | cons n rest ih =>
    rw [List.findSomeM?_cons]
    cases here : f n with
    | some found =>
      have asked : (noted f n).run before = (some found, before ++ [n]) := by rw [← here]; rfl
      simp only [List.findSome?_cons, List.findIdx_cons, here, StateT.run_bind, asked]
      rfl
    | none => simp [noted, here, ih, List.findIdx_cons]

theorem find_isSome (sharing : Sharing K next) {e : Expr} (member : e ∈ K) (f : Expr → Option β) :
    (e.find? f).isSome = true ↔ ∃ n, e.Contains n ∧ (f n).isSome = true := by
  rw [find_nodes, List.isSome_findSome?, List.any_eq_true]
  simp only [mem_nodes sharing member]

theorem unassigned?_isSome {n : Expr} :
    n.unassigned?.isSome = true ↔ ∃ node leaf, n = .unassigned node leaf := by
  cases n <;> simp [unassigned?]

theorem placeholder?_isSome {n : Expr} : n.placeholder?.isSome = true ↔
    (∃ node target, n = .read node target) ∨ ∃ node leaf, n = .unassigned node leaf := by
  cases n <;> simp [placeholder?]

end

end Expr

open Expr

/-- In every expression whose nodes were numbered once each, the loop visits the nodes depth first. -/
theorem search_depth_first {e : Expr} {next : Nat} (numbered : WellNumbered [e] next) :
    e.Searched := by
  obtain ⟨K, sharing, members⟩ := (wellNumbered_iff [e] next).mp numbered
  have member : e ∈ K := members e (by simp)
  have order := nodes_eq sharing member
  exact {
    order := order
    once := order ▸ nodup_eraseDups _
    reach := fun n => mem_nodes sharing member
    search := fun m _ β ask => search_nodes ask e
    calls := fun β f => by rw [search_nodes, noted_all, List.nil_append]
    find := fun β f => find_nodes f e
    signals := signals_eq e
    signalsOnce := signals_eq e ▸ nodup_eraseDups _
    reads := fun leaf => mem_signals sharing member
    unassigned := by
      rw [firstUnassigned?, find_isSome sharing member]
      simp only [unassigned?_isSome]
      constructor
      · rintro ⟨_, inside, node, leaf, rfl⟩
        exact ⟨node, leaf, inside⟩
      · rintro ⟨node, leaf, inside⟩
        exact ⟨_, inside, node, leaf, rfl⟩
    placeholder := by
      rw [hasPlaceholder, firstPlaceholder?, find_isSome sharing member]
      simp only [placeholder?_isSome]
      constructor
      · rintro ⟨_, inside, ⟨node, target, rfl⟩ | ⟨node, leaf, rfl⟩⟩
        · exact .inl ⟨node, target, inside⟩
        · exact .inr ⟨node, leaf, inside⟩
      · rintro (⟨node, target, inside⟩ | ⟨node, leaf, inside⟩)
        · exact ⟨_, inside, .inl ⟨node, target, rfl⟩⟩
        · exact ⟨_, inside, .inr ⟨node, leaf, rfl⟩⟩ }

/-- A sum that is there three times, over leaves one of which is read at two nodes, and a value that is
    missing. A search for the missing value asks at the nodes above it and to the left of it, and at each
    of them once. -/
theorem shared_sum_searched : ∃ e : Expr, WellNumbered [e] 9 ∧
    e.everyNode.length = 15 ∧ e.nodes.map node = [8, 7, 2, 0, 1, 6, 3, 4, 5] ∧
      (e.search (noted unassigned?)).run [] = (some 5, e.nodes.take 8) ∧ e.signals = [3, 1, 2] := by
  let sum : Expr := .binary 2 .add (.signal 0 3) (.signal 1 1)
  let e : Expr := .concat 8 [.mux 7 sum sum (.concat 6 [sum, .signal 3 3, .unassigned 4 5]), .signal 5 2]
  have numbered : WellNumbered [e] 9 := by decide +kernel
  have searched := search_depth_first numbered
  refine ⟨e, numbered, by decide +kernel, by decide +kernel, ?_, ?_⟩
  · exact (searched.calls _ _).trans (Prod.ext (by decide +kernel) (by decide +kernel))
  · rw [searched.signals]
    decide +kernel

end CombLogic
