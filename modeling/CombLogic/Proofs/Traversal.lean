import Mathlib.Data.List.Nodup
import CombLogic.Expr.Traverse
import CombLogic.Proofs.Collections
import CombLogic.Proofs.Shared

/- The search and the walk visit the same nodes in the same order. In an expression whose nodes are
   well shared these are all its nodes, each at the first of its places. -/
namespace CombLogic.Expr

open Std

variable {K : Set Expr} {next : Nat}

theorem isAtom_iff {e : Expr} : e.isAtom = true → e.children = [] := by
  cases e <;> simp [isAtom, children]

theorem visit_eq (e : Expr) (w : Walk) :
    visit e w = if w.seen.contains e.node then w else visitAll e.children (w.enter e) := by
  cases e <;> simp [visit, visitAll, children]

theorem visitAll_append (as bs : List Expr) (w : Walk) :
    visitAll (as ++ bs) w = visitAll bs (visitAll as w) := by
  induction as generalizing w with
  | nil => simp [visitAll]
  | cons a as ih => simp [visitAll, ih]

/-- Working off a stack is walking through it. -/
theorem visitAll_cons (e : Expr) (rest : List Expr) (w : Walk) :
    visitAll (e :: rest) w = if w.seen.contains e.node then visitAll rest w
      else visitAll (e.children ++ rest) (w.enter e) := by
  rw [visitAll, visit_eq, visitAll_append]
  split <;> rfl

section Search

variable {m : Type → Type} [Monad m] {β : Type}

theorem searchStack_nil (ask : Expr → m (Option β)) (seen : IdSet) :
    searchStack ask seen [] = pure none := by
  rw [searchStack]

theorem searchStack_known (ask : Expr → m (Option β)) {seen : IdSet} {e : Expr}
    (known : seen.contains e.node = true) (rest : List Expr) :
    searchStack ask seen (e :: rest) = searchStack ask seen rest := by
  rw [searchStack, if_pos known]

theorem searchStack_unknown (ask : Expr → m (Option β)) {seen : IdSet} {e : Expr}
    (unknown : ¬seen.contains e.node = true) (rest : List Expr) :
    searchStack ask seen (e :: rest) = (do
      match ← ask e with
      | some found => return some found
      | none => searchStack ask (seen.insert e.node) (e.children ++ rest)) := by
  rw [searchStack]
  exact if_neg unknown

/-- The search asks at the nodes in the order of the walk. -/
theorem search_walk (ask : Expr → m (Option β)) (stack : List Expr) (w : Walk) :
    ∃ new : List Expr, (visitAll stack w).met = new.reverse ++ w.met ∧
      searchStack ask w.seen stack = new.findSomeM? ask := by
  induction seen : w.seen, stack using searchStack.induct generalizing w with
  | case1 => exact ⟨[], by simp [visitAll], searchStack_nil ask _⟩
  | case2 _ e rest known ih =>
    obtain ⟨new, met, found⟩ := ih w seen
    refine ⟨new, ?_, ?_⟩
    · rw [visitAll_cons, if_pos (seen ▸ known), met]
    · rw [searchStack_known ask known, found]
  | case3 _ e rest unknown ih =>
    obtain ⟨new, met, found⟩ := ih (w.enter e) (by rw [← seen]; rfl)
    refine ⟨e :: new, ?_, ?_⟩
    · rw [visitAll_cons, if_neg (seen ▸ unknown), met]
      simp [Walk.enter]
    · rw [searchStack_unknown ask unknown, found, List.findSomeM?_cons]
      rfl

theorem search_nodes (ask : Expr → m (Option β)) (e : Expr) :
    e.search ask = e.nodes.findSomeM? ask := by
  obtain ⟨new, met, found⟩ := search_walk ask [e] .start
  have walked : e.nodes = new := by
    simp only [visitAll] at met
    rw [nodes, met]
    simp [Walk.start]
  rw [walked]
  exact found

theorem find_nodes (f : Expr → Option β) (e : Expr) : e.find? f = e.nodes.findSome? f := by
  rw [find?, search_nodes, List.idRun_findSomeM?]
  rfl

end Search

/-- A walk meets what is below the nodes it starts from. -/
theorem met_below (stack : List Expr) (w : Walk) :
    ∀ n ∈ (visitAll stack w).met, n ∈ w.met ∨ ∃ e ∈ stack, e.Contains n := by
  induction seen : w.seen, stack using searchStack.induct generalizing w with
  | case1 => exact fun n met => .inl (by simpa [visitAll] using met)
  | case2 _ e rest known ih =>
    intro n met
    rw [visitAll_cons, if_pos (seen ▸ known)] at met
    refine (ih w seen n met).imp_right ?_
    rintro ⟨a, later, inside⟩
    exact ⟨a, List.mem_cons_of_mem _ later, inside⟩
  | case3 _ e rest unknown ih =>
    intro n met
    rw [visitAll_cons, if_neg (seen ▸ unknown)] at met
    rcases ih (w.enter e) (by rw [← seen]; rfl) n met with before | ⟨a, waiting, inside⟩
    · rcases List.mem_cons.mp before with rfl | before
      · exact .inr ⟨n, by simp, .root n⟩
      · exact .inl before
    · rcases List.mem_append.mp waiting with operand | later
      · exact .inr ⟨e, by simp, .within operand inside⟩
      · exact .inr ⟨a, List.mem_cons_of_mem _ later, inside⟩

theorem contains_of_mem_nodes {e n : Expr} (member : n ∈ e.nodes) : e.Contains n := by
  have met : n ∈ (visitAll [e] .start).met := by simpa [nodes, visitAll] using member
  rcases met_below [e] .start n met with none | ⟨a, here, inside⟩
  · simp [Walk.start] at none
  · obtain rfl : a = e := by simpa using here
    exact inside

/-- What a walk among well-shared nodes has met is marked as seen, each node once. A node that is not
    larger than what is visited now was left already, so all that is below it was met. -/
structure Walked (K : Set Expr) (bound : Nat) (w : Walk) : Prop where
  nodup : w.met.Nodup
  seen : ∀ a ∈ K, w.seen.contains a.node = true ↔ a ∈ w.met
  below : ∀ a ∈ w.met, a.weight ≤ bound → ∀ n, a.Contains n → n ∈ w.met

theorem walked_start (bound : Nat) : Walked K bound .start where
  nodup := by simp [Walk.start]
  seen := by simp [Walk.start]
  below := by simp [Walk.start]

theorem walked_enter (sharing : Sharing K next) {bound : Nat} {w : Walk} (walked : Walked K bound w)
    {e : Expr} (member : e ∈ K) (fits : e.weight ≤ bound) (unmet : e ∉ w.met) :
    Walked K (e.weight - 1) (w.enter e) where
  nodup := List.nodup_cons.mpr ⟨unmet, walked.nodup⟩
  seen a inside := by
    have same : e.node = a.node ↔ a = e :=
      ⟨fun same => (sharing.one_node e member a inside same).symm, fun same => same ▸ rfl⟩
    simp only [Walk.enter, TreeSet.contains_insert, Bool.or_eq_true, beq_iff_eq,
      LawfulEqCmp.compare_eq_iff_eq, same, walked.seen a inside, List.mem_cons]
  below a met small n inside := by
    have positive := e.weight_pos
    rcases List.mem_cons.mp met with rfl | before
    · omega
    · exact List.mem_cons_of_mem _ (walked.below a before (by omega) n inside)

/-- A walk met the nodes of some expressions, one after the other, where it had not met them before. -/
def Meets (es : List Expr) (w w' : Walk) : Prop :=
  w'.met.reverse = (w.met.reverse ++ everyNodes es).eraseDups

theorem mem_meets {es : List Expr} {w w' : Walk} (meets : Meets es w w') {n : Expr} :
    n ∈ w'.met ↔ n ∈ w.met ∨ n ∈ everyNodes es := by
  rw [← List.mem_reverse, meets, List.mem_eraseDups, List.mem_append, List.mem_reverse]

theorem everyNodes_closed {es : List Expr} {a n : Expr} (member : a ∈ everyNodes es)
    (inside : a.Contains n) : n ∈ everyNodes es := by
  obtain ⟨e, listed, here⟩ := mem_everyNodes.mp member
  exact mem_everyNodes.mpr
    ⟨e, listed, (mem_everyNode e n).mpr (contains_trans ((mem_everyNode e a).mp here) inside)⟩

theorem walked_widen {small bound : Nat} {es : List Expr} {w w' : Walk} (before : Walked K bound w)
    (after : Walked K small w') (meets : Meets es w w') : Walked K bound w' where
  nodup := after.nodup
  seen := after.seen
  below a met fits n inside := by
    rw [mem_meets meets] at met ⊢
    exact met.imp (before.below a · fits n inside) (everyNodes_closed · inside)

theorem visitAll_walked {bound : Nat} {es : List Expr}
    (each : ∀ e ∈ es, ∀ w, Walked K bound w → Walked K bound (visit e w) ∧ Meets [e] w (visit e w))
    (w : Walk) (walked : Walked K bound w) :
    Walked K bound (visitAll es w) ∧ Meets es w (visitAll es w) := by
  induction es generalizing w with
  | nil =>
    refine ⟨by simpa [visitAll] using walked, ?_⟩
    simp [Meets, visitAll, everyNodes, eraseDups_self (List.nodup_reverse.mpr walked.nodup)]
  | cons e rest ih =>
    obtain ⟨here, first⟩ := each e (by simp) w walked
    obtain ⟨there, later⟩ := ih (fun a listed => each a (by simp [listed])) (visit e w) here
    rw [visitAll]
    refine ⟨there, ?_⟩
    rw [Meets, later, first, eraseDups_eraseDups_append]
    simp [everyNodes]

theorem visit_walked (sharing : Sharing K next) (e : Expr) : e ∈ K → ∀ bound w, e.weight ≤ bound →
    Walked K bound w → Walked K bound (visit e w) ∧ Meets [e] w (visit e w) := by
  induction e using operand_induction with
  | step e ih =>
    intro member bound w fits walked
    rw [visit_eq]
    split
    · -- a node seen before was left, since the nodes that are still open are larger
      rename_i known
      have met := (walked.seen e member).mp known
      refine ⟨walked, (eraseDups_append_of_subset (List.nodup_reverse.mpr walked.nodup) ?_).symm⟩
      intro n inside
      obtain ⟨a, here, within⟩ := mem_everyNodes.mp inside
      obtain rfl : a = e := by simpa using here
      exact List.mem_reverse.mpr (walked.below a met fits n ((mem_everyNode a n).mp within))
    · rename_i unknown
      have unmet : e ∉ w.met := fun met => unknown ((walked.seen e member).mpr met)
      have entered := walked_enter sharing walked member fits unmet
      obtain ⟨after, meets⟩ := visitAll_walked (fun a operand w' walked' =>
        ih a operand (sharing.operands e member a operand) (e.weight - 1) w'
          (by have := weight_operand operand; omega) walked') (w.enter e) entered
      have listed : Meets [e] w (visitAll e.children (w.enter e)) := by
        rw [Meets, meets]
        simp [Walk.enter, everyNodes, everyNode_cons]
      exact ⟨walked_widen walked after listed, listed⟩

/-- The walk lists the nodes in the order of their first places. -/
theorem nodes_eq (sharing : Sharing K next) {e : Expr} (member : e ∈ K) :
    e.nodes = e.everyNode.eraseDups := by
  obtain ⟨-, meets⟩ :=
    visit_walked sharing e member e.weight .start (Nat.le_refl _) (walked_start _)
  rw [nodes, meets]
  simp [Walk.start, everyNodes]

theorem mem_nodes (sharing : Sharing K next) {e n : Expr} (member : e ∈ K) :
    n ∈ e.nodes ↔ e.Contains n := by
  rw [nodes_eq sharing member, List.mem_eraseDups, mem_everyNode]

theorem find_none {β : Type} (sharing : Sharing K next) {f : Expr → Option β} {e : Expr}
    (member : e ∈ K) (missed : e.find? f = none) : e.All (f · = none) := by
  rw [find_nodes, List.findSome?_eq_none_iff] at missed
  exact fun n inside => missed n ((mem_nodes sharing member).mpr inside)

theorem find_some {β : Type} {f : Expr → Option β} {e : Expr} {found : β}
    (hit : e.find? f = some found) : ∃ n, e.Contains n ∧ f n = some found := by
  rw [find_nodes] at hit
  obtain ⟨n, member, here⟩ := List.exists_of_findSome?_eq_some hit
  exact ⟨n, contains_of_mem_nodes member, here⟩

theorem mem_reads (sharing : Sharing K next) {e : Expr} (member : e ∈ K) {leaf : LeafId} :
    leaf ∈ e.reads ↔ e.Reads leaf := by
  simp only [Reads, reads, List.mem_filterMap, mem_nodes sharing member]
  constructor
  · rintro ⟨n, inside, read⟩
    cases n <;> simp [signal?] at read
    subst read
    exact ⟨_, inside⟩
  · rintro ⟨node, inside⟩
    exact ⟨_, inside, rfl⟩

theorem noteSignal_all (ns : List Expr) (s : OrderedSet) :
    (ns.findSomeM? noteSignal).run s = (none, s.addAll (ns.filterMap signal?)) := by
  induction ns generalizing s with
  | nil => rfl
  | cons n rest ih =>
    rw [List.findSomeM?_cons]
    cases read : n.signal? with
    | none =>
      rw [List.filterMap_cons_none read, ← ih]
      simp [noteSignal, read]
    | some leaf =>
      rw [List.filterMap_cons_some read]
      simp [noteSignal, read, ih, OrderedSet.addAll]

theorem signals_eq (e : Expr) : e.signals = e.reads.eraseDups := by
  rw [signals, search_nodes, noteSignal_all, ← OrderedSet.keys_ofList]
  rfl

theorem mem_signals (sharing : Sharing K next) {e : Expr} (member : e ∈ K) {leaf : LeafId} :
    leaf ∈ e.signals ↔ e.Reads leaf := by
  rw [signals_eq, List.mem_eraseDups, mem_reads sharing member]

end CombLogic.Expr
