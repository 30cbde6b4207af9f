import CombLogic.Block.Scratch
import CombLogic.Proofs.Evaluation
import CombLogic.Proofs.Netlist.Drivers

/- Substitution of what is bound for the reads in an expression, all at once and up to node numbers. The
   value of the expression that comes about is that of the old one where each read is answered by the
   value of what stands for it. -/
namespace CombLogic

open Expr

mutual

/-- Every read of a target replaced, up to node numbers. -/
def Expr.subst (answer : Ref → Expr) : Expr → Expr
  | .signal _ leaf => .signal 0 leaf
  | .literal _ value => .literal 0 value
  | .integer _ value => .integer 0 value
  | .read _ target => (answer target).shape
  | .unassigned _ leaf => .unassigned 0 leaf
  | .unary _ op a => .unary 0 op (subst answer a)
  | .binary _ op a b => .binary 0 op (subst answer a) (subst answer b)
  | .mux _ c t f => .mux 0 (subst answer c) (subst answer t) (subst answer f)
  | .concat _ parts => .concat 0 (substAll answer parts)
  | .slice _ a high low => .slice 0 (subst answer a) high low
  | .extend _ a width signed => .extend 0 (subst answer a) width signed
  | .caseMatch _ s p wildcard => .caseMatch 0 (subst answer s) (subst answer p) wildcard

def Expr.substAll (answer : Ref → Expr) : List Expr → List Expr
  | [] => []
  | e :: rest => subst answer e :: substAll answer rest

end

@[simp] theorem substAll_eq_map (answer : Ref → Expr) (es : List Expr) :
    substAll answer es = es.map (subst answer) := by
  induction es with
  | nil => rfl
  | cons e rest ih => simp [substAll, ih]

section

variable {answer : Ref → Expr}

theorem subst_shape (e : Expr) : e.shape.subst answer = e.subst answer := by
  induction e using operand_induction with
  | step e ih =>
    cases e with
    | signal | literal | integer | read | unassigned => rfl
    | unary _ _ a | slice _ a | extend _ a =>
      simp only [shape, subst, ih a (by simp [children])]
    | binary _ _ a b | caseMatch _ a b =>
      simp only [shape, subst, ih a (by simp [children]), ih b (by simp [children])]
    | mux _ c t f =>
      simp only [shape, subst, ih c (by simp [children]), ih t (by simp [children]),
        ih f (by simp [children])]
    | concat _ parts =>
      simp only [shape, subst, shapes_eq_map, substAll_eq_map, List.map_map, Function.comp_def]
      exact congrArg _ (List.map_congr_left fun a operand => ih a (by simpa [children] using operand))

theorem subst_alike {a b : Expr} (alike : a.shape = b.shape) : a.subst answer = b.subst answer := by
  rw [← subst_shape, alike, subst_shape]

/-- The substitution lemma for values. -/
theorem value_subst (env : Env) (e : Expr) : (e.subst answer).value env =
    e.valueOn env fun target => (answer target).value env := by
  induction e using operand_induction with
  | step e ih =>
    simp only [Expr.value] at ih ⊢
    cases e with
    | signal | literal | integer | unassigned => rfl
    | read node target => exact valueOn_shape _ _ _
    | unary _ _ a | slice _ a | extend _ a =>
      simp only [subst, valueOn, ih a (by simp [children])]
    | binary _ _ a b | caseMatch _ a b =>
      simp only [subst, valueOn, ih a (by simp [children]), ih b (by simp [children])]
    | mux _ c t f =>
      simp only [subst, valueOn, ih c (by simp [children]), ih t (by simp [children]),
        ih f (by simp [children])]
    | concat _ parts =>
      simp only [subst, valueOn, substAll_eq_map,
        valuesOn_map fun a operand => ih a (by simpa [children] using operand)]

theorem children_subst {e : Expr} (stays : ∀ node target, e ≠ .read node target) :
    (e.subst answer).children = e.children.map (subst answer) := by
  cases e with
  | read node target => exact (stays node target rfl).elim
  | _ => simp [subst, children]

/-- A property that nodes with operands and reads have anyway holds in the substituted expression
    if it holds in the expression and in what stands for its reads. -/
theorem subst_all {p : Expr → Prop} (blind : ∀ n, p n.shape ↔ p n)
    (parents : ∀ n : Expr, n.isAtom = false → p n) (reads : ∀ node target, p (.read node target))
    (e : Expr) : (e.subst answer).All p ↔
      e.All p ∧ ∀ node target, e.Contains (.read node target) → (answer target).All p := by
  induction e using operand_induction with
  | step e ih =>
    by_cases stays : ∀ node target, e ≠ .read node target
    · have here : p (e.subst answer) ↔ p e := by
        cases e with
        | signal node leaf => exact blind (.signal node leaf)
        | literal node value => exact blind (.literal node value)
        | integer node value => exact blind (.integer node value)
        | unassigned node leaf => exact blind (.unassigned node leaf)
        | read node target => exact (stays node target rfl).elim
        | _ => exact iff_of_true (parents _ rfl) (parents _ rfl)
      rw [all_iff, all_iff (e := e), children_subst stays, here]
      simp only [List.forall_mem_map]
      constructor
      · rintro ⟨root, operands⟩
        refine ⟨⟨root, fun a member => ((ih a member).mp (operands a member)).1⟩, ?_⟩
        intro node target inside
        obtain ⟨a, member, within⟩ := contains_operand inside (stays node target).symm
        exact ((ih a member).mp (operands a member)).2 node target within
      · rintro ⟨⟨root, operands⟩, answers⟩
        refine ⟨root, fun a member => (ih a member).mpr ⟨operands a member, ?_⟩⟩
        exact fun node target inside => answers node target (.within member inside)
    · push Not at stays
      obtain ⟨node, target, rfl⟩ := stays
      have own : (Expr.read node target).All p := all_iff.mpr ⟨reads _ _, by simp [children]⟩
      rw [subst, all_shape blind]
      refine ⟨fun answered => ⟨own, fun node' target' inside => ?_⟩, fun both => both.2 _ _ (.root _)⟩
      obtain ⟨-, rfl⟩ := read.inj (contains_leaf rfl inside)
      exact answered

theorem subst_assigned (e : Expr) : (e.subst answer).Assigned ↔ e.Assigned ∧
    ∀ node target, e.Contains (.read node target) → (answer target).Assigned :=
  subst_all (fun n => by cases n <;> simp [shape, unassigned?])
    (fun n parent => by cases n <;> simp_all [isAtom, unassigned?]) (fun _ _ => rfl) e

theorem subst_integerless (e : Expr) : (e.subst answer).Integerless ↔ e.Integerless ∧
    ∀ node target, e.Contains (.read node target) → (answer target).Integerless :=
  subst_all (fun n => by cases n <;> simp [shape, integer?])
    (fun n parent => by cases n <;> simp_all [isAtom, integer?]) (fun _ _ => rfl) e

end

/-- What stands for a leaf: its entry, or the leaf itself. -/
def Binding.entry (b : Binding) (leaf : LeafId) : Expr := (b.get? leaf).getD (.signal 0 leaf)

/-- What stands for a read of a target. A read of a bundle without leaves stays a read. -/
def Netlist.held (g : Netlist) (b : Binding) : Ref → Expr
  | .leaf leaf => b.entry leaf
  | .bundle id =>
    match g.leavesOf (.bundle id) with
    | .ok leaves => .concat 0 (leaves.map b.entry).reverse
    | .error _ => .read 0 (.bundle id)

/-- What holds throughout the entries of a target holds throughout what stands for the target. -/
theorem held_all {g : Netlist} {b : Binding} {p : Expr → Prop} {target : Ref}
    (entries : ∀ leaves, g.leavesOf target = .ok leaves → ∀ leaf ∈ leaves, (b.entry leaf).All p)
    (reads : ∀ id, p (.read 0 (.bundle id))) (joins : ∀ parts, p (.concat 0 parts)) :
    (g.held b target).All p := by
  cases target with
  | leaf leaf => exact entries [leaf] Netlist.leavesOf_leaf leaf (by simp)
  | bundle id =>
    cases known : g.leavesOf (.bundle id) with
    | error x =>
      simp only [Netlist.held, known]
      exact all_iff.mpr ⟨reads id, by simp [children]⟩
    | ok leaves =>
      simp only [Netlist.held, known]
      refine all_iff.mpr ⟨joins _, fun a operand => ?_⟩
      simp only [children, List.mem_reverse, List.mem_map] at operand
      obtain ⟨leaf, listed, rfl⟩ := operand
      exact entries leaves known leaf listed

/-- What holds of the entries of a target with their widths, and of a concatenation with the sum of the
    widths of its parts, holds of what stands for the target. -/
theorem held_sums {g : Netlist} {b : Binding} {P : Expr → Nat → Prop} {target : Ref}
    {parts : List (LeafId × Nat)} (found : g.leafWidths target = .ok parts)
    (entries : ∀ part ∈ parts, P (b.entry part.1) part.2)
    (joins : ∀ es ws, List.Forall₂ P es ws → P (.concat 0 es) ws.sum) :
    P (g.held b target) (parts.map Prod.snd).sum := by
  have leaves := (Netlist.leafWidths_ok found).1
  cases target with
  | leaf id =>
    have single : [id] = parts.map Prod.fst :=
      Except.ok.inj (Netlist.leavesOf_leaf.symm.trans leaves)
    obtain ⟨part, rfl, rfl⟩ := List.map_eq_singleton_iff.mp single.symm
    simpa [Netlist.held] using entries part (by simp)
  | bundle id =>
    have parted : List.Forall₂ P ((parts.map Prod.fst).map b.entry) (parts.map Prod.snd) := by
      rw [List.map_map, List.forall₂_map_left_iff, List.forall₂_map_right_iff]
      exact List.forall₂_same.mpr entries
    have joined := joins _ _ (List.forall₂_reverse_iff.mpr parted)
    rw [List.sum_reverse] at joined
    simpa only [Netlist.held, leaves] using joined

end CombLogic
