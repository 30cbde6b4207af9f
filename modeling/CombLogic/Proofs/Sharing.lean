import Mathlib.Data.Set.Insert
import CombLogic.Expr.Basic

/- Shared nodes. A set of expressions is well shared if it holds the operands of what it holds, if
   one number is one node in it, and if all its numbers were given out already. Whatever is kept by
   node number, in a memo or in a set of nodes seen, is kept rightly in such a set. -/
namespace CombLogic

namespace Expr

theorem weight_mem {es : List Expr} {a : Expr} (member : a ∈ es) : a.weight ≤ weights es := by
  induction es with
  | nil => simp at member
  | cons b rest ih =>
    simp only [weights]
    rcases List.mem_cons.mp member with rfl | later
    · omega
    · have := ih later
      omega

theorem weight_operand {e a : Expr} (operand : a ∈ e.children) : a.weight < e.weight := by
  have total := e.weights_children
  have part := weight_mem operand
  omega

theorem operand_induction {P : Expr → Prop} (step : ∀ e, (∀ a ∈ e.children, P a) → P e)
    (e : Expr) : P e := by
  induction size : e.weight using Nat.strongRecOn generalizing e with
  | ind k ih =>
    exact step e fun a operand => ih a.weight (size ▸ weight_operand operand) a rfl

/-- A node occurs in an expression. -/
inductive Contains : Expr → Expr → Prop where
  | root (e : Expr) : Contains e e
  | within {e a n : Expr} (operand : a ∈ e.children) (rest : Contains a n) : Contains e n

/-- Every node of an expression has a property. -/
def All (p : Expr → Prop) (e : Expr) : Prop := ∀ n, e.Contains n → p n

theorem all_iff {p : Expr → Prop} {e : Expr} :
    e.All p ↔ p e ∧ ∀ a ∈ e.children, a.All p := by
  constructor
  · intro every
    exact ⟨every e (.root e), fun a operand n inside => every n (.within operand inside)⟩
  · rintro ⟨here, operands⟩ n inside
    cases inside with
    | root => exact here
    | within operand rest => exact operands _ operand n rest

theorem contains_trans {e a n : Expr} (outer : e.Contains a) (inner : a.Contains n) :
    e.Contains n := by
  induction outer with
  | root => exact inner
  | within operand _ ih => exact .within operand (ih inner)

theorem contains_leaf {e n : Expr} (atom : e.children = []) (inside : e.Contains n) : n = e := by
  cases inside with
  | root => rfl
  | within operand => simp [atom] at operand

theorem contains_operand {e n : Expr} (inside : e.Contains n) (proper : n ≠ e) :
    ∃ a ∈ e.children, a.Contains n := by
  cases inside with
  | root => exact (proper rfl).elim
  | within operand rest => exact ⟨_, operand, rest⟩

/-- A leaf whose value an expression reads. -/
def Reads (e : Expr) (leaf : LeafId) : Prop := ∃ node, e.Contains (.signal node leaf)

theorem reads_operand {e a : Expr} {leaf : LeafId} (operand : a ∈ e.children)
    (read : a.Reads leaf) : e.Reads leaf := by
  obtain ⟨node, inside⟩ := read
  exact ⟨node, .within operand inside⟩

theorem same_iff {a b : Expr} : a.same b = true ↔ a.node = b.node := by simp [same]

end Expr

open Expr

structure Sharing (K : Set Expr) (next : Nat) : Prop where
  operands : ∀ e ∈ K, ∀ a ∈ e.children, a ∈ K
  one_node : ∀ a ∈ K, ∀ b ∈ K, a.node = b.node → a = b
  numbered : ∀ e ∈ K, e.node < next

namespace Sharing

variable {K : Set Expr} {next : Nat}

theorem none_shared : Sharing ∅ next := ⟨by simp, by simp, by simp⟩

theorem contained (sharing : Sharing K next) {e n : Expr} (member : e ∈ K)
    (inside : e.Contains n) : n ∈ K := by
  induction inside with
  | root => exact member
  | within operand _ ih => exact ih (sharing.operands _ member _ operand)

theorem same_node (sharing : Sharing K next) {a b : Expr} (left : a ∈ K) (right : b ∈ K)
    (same : a.same b = true) : a = b :=
  sharing.one_node a left b right (same_iff.mp same)

theorem later (sharing : Sharing K next) {after : Nat} (le : next ≤ after) : Sharing K after where
  operands := sharing.operands
  one_node := sharing.one_node
  numbered e member := Nat.lt_of_lt_of_le (sharing.numbered e member) le

/-- A node built under the next number over nodes that are there. -/
theorem build (sharing : Sharing K next) {e : Expr} (fresh : e.node = next)
    (operands : ∀ a ∈ e.children, a ∈ K) : Sharing (insert e K) (next + 1) where
  operands := by
    rintro f (rfl | member) a operand
    · exact .inr (operands a operand)
    · exact .inr (sharing.operands f member a operand)
  one_node := by
    rintro a (rfl | left) b (rfl | right) same
    · rfl
    · have := sharing.numbered b right
      omega
    · have := sharing.numbered a left
      omega
    · exact sharing.one_node a left b right same
  numbered := by
    rintro f (rfl | member)
    · omega
    · have := sharing.numbered f member
      omega

theorem same_operands (sharing : Sharing K next) {as bs : List Expr} (left : ∀ a ∈ as, a ∈ K)
    (right : ∀ b ∈ bs, b ∈ K) (same : sameAll as bs = true) : as = bs := by
  induction as generalizing bs with
  | nil =>
    cases bs with
    | nil => rfl
    | cons => simp [sameAll] at same
  | cons a as ih =>
    cases bs with
    | nil => simp [sameAll] at same
    | cons b bs =>
      simp only [sameAll, Bool.and_eq_true] at same
      have head := sharing.same_node (left a (by simp)) (right b (by simp)) same.1
      have tail := ih (fun c member => left c (by simp [member]))
        (fun c member => right c (by simp [member])) same.2
      rw [head, tail]

end Sharing

end CombLogic
