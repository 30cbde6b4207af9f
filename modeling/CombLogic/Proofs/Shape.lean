import Mathlib.Data.List.Basic
import CombLogic.Proofs.Traversal

/- The structure of an expression without its node numbers. Two expressions of one shape are alike
   for everything that does not look at shared nodes. -/
namespace CombLogic.Expr

mutual

def shape : Expr → Expr
  | signal _ leaf => signal 0 leaf
  | literal _ value => literal 0 value
  | integer _ value => integer 0 value
  | read _ target => read 0 target
  | unassigned _ leaf => unassigned 0 leaf
  | unary _ op a => unary 0 op (shape a)
  | binary _ op a b => binary 0 op (shape a) (shape b)
  | mux _ c t f => mux 0 (shape c) (shape t) (shape f)
  | concat _ parts => concat 0 (shapes parts)
  | slice _ a high low => slice 0 (shape a) high low
  | extend _ a width signed => extend 0 (shape a) width signed
  | caseMatch _ s p wildcard => caseMatch 0 (shape s) (shape p) wildcard

def shapes : List Expr → List Expr
  | [] => []
  | e :: rest => shape e :: shapes rest

end

@[simp] theorem shapes_eq_map (es : List Expr) : shapes es = es.map shape := by
  induction es with
  | nil => rfl
  | cons e rest ih => simp [shapes, ih]

theorem children_shape (e : Expr) : e.shape.children = e.children.map shape := by
  cases e <;> simp [shape, children]

theorem shape_shape (e : Expr) : e.shape.shape = e.shape := by
  induction e using operand_induction with
  | step e ih =>
    cases e <;> simp_all [shape, children]

theorem all_shape {p : Expr → Prop} (blind : ∀ n, p n.shape ↔ p n) (e : Expr) :
    e.shape.All p ↔ e.All p := by
  induction e using operand_induction with
  | step e ih =>
    rw [all_iff, all_iff (e := e), blind, children_shape]
    simp only [List.forall_mem_map]
    exact and_congr_right fun _ => forall₂_congr fun a operand => ih a operand

theorem all_alike {p : Expr → Prop} (blind : ∀ n, p n.shape ↔ p n) {a b : Expr}
    (alike : a.shape = b.shape) (every : b.All p) : a.All p := by
  rw [← all_shape blind, alike, all_shape blind]
  exact every

theorem reads_iff_all {e : Expr} {leaf : LeafId} :
    e.Reads leaf ↔ ¬e.All (·.signal? ≠ some leaf) := by
  simp only [All, ne_eq, not_forall, not_not, Reads]
  constructor
  · rintro ⟨node, inside⟩
    exact ⟨_, inside, rfl⟩
  · rintro ⟨n, inside, read⟩
    cases n <;> simp [signal?] at read
    exact ⟨_, read ▸ inside⟩

theorem reads_alike {a b : Expr} (alike : a.shape = b.shape) (leaf : LeafId) :
    a.Reads leaf ↔ b.Reads leaf := by
  have blind : ∀ n : Expr, n.shape.signal? ≠ some leaf ↔ n.signal? ≠ some leaf := by
    intro n
    cases n <;> simp [shape, signal?]
  rw [reads_iff_all, reads_iff_all, ← all_shape blind, alike, all_shape blind]

/-- A node over new operands has the shape of the node over their shapes. -/
theorem shape_withChildren (e : Expr) (node : Nat) (as : List Expr)
    (length : as.length = e.children.length) :
    (e.withChildren node as).shape = e.shape.withChildren 0 (as.map shape) := by
  cases e with
  | signal | literal | integer | read | unassigned =>
    simp only [withChildren, shape]
  | concat => simp [withChildren, shape]
  | unary | slice | extend =>
    obtain ⟨a, rfl⟩ := List.length_eq_one_iff.mp length
    simp [withChildren, shape]
  | binary | caseMatch =>
    obtain ⟨a, b, rfl⟩ := List.length_eq_two.mp length
    simp [withChildren, shape]
  | mux =>
    obtain ⟨a, b, c, rfl⟩ := List.length_eq_three.mp length
    simp [withChildren, shape]

/-- No node is an integer without a width. -/
def Integerless (e : Expr) : Prop := e.All (·.integer? = none)

/-- No node reads a leaf before its first assignment. -/
def Assigned (e : Expr) : Prop := e.All (·.unassigned? = none)

/-- No node stands in for a value. -/
def Resolved (e : Expr) : Prop := e.All (·.placeholder? = none)

theorem integerless_alike {a b : Expr} (alike : a.shape = b.shape) (every : b.Integerless) :
    a.Integerless :=
  all_alike (fun n => by cases n <;> simp [shape, integer?]) alike every

theorem assigned_alike {a b : Expr} (alike : a.shape = b.shape) (every : b.Assigned) :
    a.Assigned :=
  all_alike (fun n => by cases n <;> simp [shape, unassigned?]) alike every

theorem resolved_alike {a b : Expr} (alike : a.shape = b.shape) (every : b.Resolved) :
    a.Resolved :=
  all_alike (fun n => by cases n <;> simp [shape, placeholder?]) alike every

theorem assigned_of_resolved {e : Expr} (resolved : e.Resolved) : e.Assigned := by
  intro n inside
  have := resolved n inside
  cases n <;> simp_all [placeholder?, unassigned?]

end CombLogic.Expr
