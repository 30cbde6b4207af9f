import CombLogic.Proofs.Sharing

/- Whether expressions are well shared can be told from their nodes. -/
namespace CombLogic

namespace Expr

mutual

def equal : Expr → Expr → Bool
  | signal n leaf, signal n' leaf' => n == n' && leaf == leaf'
  | literal n v, literal n' v' => n == n' && v == v'
  | integer n i, integer n' i' => n == n' && i == i'
  | read n target, read n' target' => n == n' && target == target'
  | unassigned n leaf, unassigned n' leaf' => n == n' && leaf == leaf'
  | unary n op a, unary n' op' a' => n == n' && op == op' && equal a a'
  | binary n op a b, binary n' op' a' b' => n == n' && op == op' && equal a a' && equal b b'
  | mux n c t f, mux n' c' t' f' => n == n' && equal c c' && equal t t' && equal f f'
  | concat n parts, concat n' parts' => n == n' && equalAll parts parts'
  | slice n a high low, slice n' a' high' low' =>
    n == n' && high == high' && low == low' && equal a a'
  | extend n a width signed, extend n' a' width' signed' =>
    n == n' && width == width' && signed == signed' && equal a a'
  | caseMatch n s p wildcard, caseMatch n' s' p' wildcard' =>
    n == n' && wildcard == wildcard' && equal s s' && equal p p'
  | _, _ => false

def equalAll : List Expr → List Expr → Bool
  | [], [] => true
  | a :: as, b :: bs => equal a b && equalAll as bs
  | _, _ => false

end

mutual

theorem equal_iff (a b : Expr) : equal a b = true ↔ a = b := by
  cases a with
  | signal | literal | integer | read | unassigned => cases b <;> simp [equal]
  | unary n op a =>
    cases b <;> simp [equal, equal_iff a]
    simp [and_assoc]
  | binary n op a b =>
    rename_i other
    cases other <;> simp [equal, equal_iff a, equal_iff b]
    simp [and_assoc]
  | mux n c t f =>
    cases b <;> simp [equal, equal_iff c, equal_iff t, equal_iff f]
    simp [and_assoc]
  | concat n parts => cases b <;> simp [equal, equalAll_iff parts]
  | slice n a high low =>
    cases b <;> simp [equal, equal_iff a]
    grind
  | extend n a width signed =>
    cases b <;> simp [equal, equal_iff a]
    grind
  | caseMatch n s p wildcard =>
    cases b <;> simp [equal, equal_iff s, equal_iff p]
    grind

theorem equalAll_iff (as bs : List Expr) : equalAll as bs = true ↔ as = bs := by
  cases as with
  | nil => cases bs <;> simp [equalAll]
  | cons a as => cases bs <;> simp [equalAll, equal_iff a, equalAll_iff as]

end

instance : DecidableEq Expr := fun a b => decidable_of_iff _ (equal_iff a b)

mutual

/-- The nodes of an expression, a shared one at each of its places. -/
def everyNode : Expr → List Expr
  | e@(signal ..) | e@(literal ..) | e@(integer ..) | e@(read ..) | e@(unassigned ..) => [e]
  | e@(unary _ _ a) => e :: everyNode a
  | e@(binary _ _ a b) => e :: (everyNode a ++ everyNode b)
  | e@(mux _ c t f) => e :: (everyNode c ++ (everyNode t ++ everyNode f))
  | e@(concat _ parts) => e :: everyNodes parts
  | e@(slice _ a _ _) => e :: everyNode a
  | e@(extend _ a _ _) => e :: everyNode a
  | e@(caseMatch _ s p _) => e :: (everyNode s ++ everyNode p)

def everyNodes : List Expr → List Expr
  | [] => []
  | e :: rest => everyNode e ++ everyNodes rest

end

theorem mem_everyNodes {es : List Expr} {n : Expr} :
    n ∈ everyNodes es ↔ ∃ e ∈ es, n ∈ e.everyNode := by
  induction es with
  | nil => simp [everyNodes]
  | cons e rest ih => simp [everyNodes, ih]

theorem everyNode_cons (e : Expr) : e.everyNode = e :: everyNodes e.children := by
  cases e <;> simp [everyNode, everyNodes, children]

theorem mem_everyNode (e n : Expr) : n ∈ e.everyNode ↔ e.Contains n := by
  induction e using operand_induction with
  | step e ih =>
    rw [everyNode_cons, List.mem_cons, mem_everyNodes]
    constructor
    · rintro (rfl | ⟨a, operand, inside⟩)
      · exact .root n
      · exact .within operand ((ih a operand).mp inside)
    · intro inside
      cases inside with
      | root => exact .inl rfl
      | within operand rest => exact .inr ⟨_, operand, (ih _ operand).mpr rest⟩

instance (p : Expr → Prop) [DecidablePred p] (e : Expr) : Decidable (e.All p) :=
  decidable_of_iff (∀ n ∈ e.everyNode, p n) (by simp [All, mem_everyNode])

end Expr

open Expr

/-- Numbers were given out, and one number is one node. -/
def WellNumbered (es : List Expr) (next : Nat) : Prop :=
  ∀ a ∈ everyNodes es, a.node < next ∧ ∀ b ∈ everyNodes es, a.node = b.node → a = b

instance (es : List Expr) (next : Nat) : Decidable (WellNumbered es next) :=
  inferInstanceAs (Decidable (∀ a ∈ everyNodes es,
    a.node < next ∧ ∀ b ∈ everyNodes es, a.node = b.node → a = b))

/-- The nodes that occur in some expressions. -/
def Expr.nodesBelow (es : List Expr) : Set Expr := {n | ∃ e ∈ es, e.Contains n}

section

variable {es : List Expr} {next : Nat} {K : Set Expr}

theorem mem_everyNodes_iff {n : Expr} : n ∈ everyNodes es ↔ n ∈ nodesBelow es := by
  simp [mem_everyNodes, mem_everyNode, nodesBelow]

theorem nodesBelow_self {e : Expr} (listed : e ∈ es) : e ∈ nodesBelow es := ⟨e, listed, .root e⟩

theorem nodesBelow_sub (sharing : Sharing K next) (members : ∀ e ∈ es, e ∈ K) : nodesBelow es ⊆ K := by
  rintro n ⟨root, listed, within⟩
  exact sharing.contained (members root listed) within

theorem wellNumbered_sharing (numbered : WellNumbered es next) : Sharing (nodesBelow es) next where
  operands e member a operand := by
    obtain ⟨root, listed, within⟩ := member
    exact ⟨root, listed, contains_trans within (.within operand (.root a))⟩
  one_node a left b right same :=
    (numbered a (mem_everyNodes_iff.mpr left)).2 b (mem_everyNodes_iff.mpr right) same
  numbered e member := (numbered e (mem_everyNodes_iff.mpr member)).1

theorem sharing_wellNumbered (sharing : Sharing K next) (members : ∀ e ∈ es, e ∈ K) :
    WellNumbered es next := by
  intro a member
  have sub := nodesBelow_sub sharing members
  have inside := sub (mem_everyNodes_iff.mp member)
  exact ⟨sharing.numbered a inside, fun b other same =>
    sharing.one_node a inside b (sub (mem_everyNodes_iff.mp other)) same⟩

theorem wellNumbered_iff (es : List Expr) (next : Nat) :
    WellNumbered es next ↔ ∃ K, Sharing K next ∧ ∀ e ∈ es, e ∈ K :=
  ⟨fun numbered => ⟨nodesBelow es, wellNumbered_sharing numbered, fun _ => nodesBelow_self⟩,
    fun ⟨_, sharing, members⟩ => sharing_wellNumbered sharing members⟩

end

end CombLogic
