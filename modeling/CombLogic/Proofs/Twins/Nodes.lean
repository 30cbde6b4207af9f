import Mathlib.Data.List.Forall2
import CombLogic.Expr.Build
import CombLogic.Proofs.Collections
import CombLogic.Proofs.Shape

/- Two runs that build the same nodes under other numbers. Their nodes are paired, each with one of the
   other run, and a pair has one form and paired operands. So paired expressions have one structure
   and share the same nodes. -/
namespace CombLogic

open Expr

/-- One node in two runs, over operands that are paired. -/
inductive Expr.Alike (P : Set (Expr × Expr)) : Expr → Expr → Prop where
  | signal (n n' : Nat) (leaf : LeafId) : Alike P (.signal n leaf) (.signal n' leaf)
  | literal (n n' : Nat) (value : Value) : Alike P (.literal n value) (.literal n' value)
  | integer (n n' : Nat) (value : Int) : Alike P (.integer n value) (.integer n' value)
  | read (n n' : Nat) (target : Ref) : Alike P (.read n target) (.read n' target)
  | unassigned (n n' : Nat) (leaf : LeafId) : Alike P (.unassigned n leaf) (.unassigned n' leaf)
  | unary (n n' : Nat) (op : UnaryOp) {a a' : Expr} (operand : (a, a') ∈ P) :
      Alike P (.unary n op a) (.unary n' op a')
  | binary (n n' : Nat) (op : BinaryOp) {a a' b b' : Expr} (left : (a, a') ∈ P)
      (right : (b, b') ∈ P) : Alike P (.binary n op a b) (.binary n' op a' b')
  | mux (n n' : Nat) {c c' t t' f f' : Expr} (condition : (c, c') ∈ P) (whenTrue : (t, t') ∈ P)
      (whenFalse : (f, f') ∈ P) : Alike P (.mux n c t f) (.mux n' c' t' f')
  | concat (n n' : Nat) {as as' : List Expr} (parts : List.Forall₂ (fun a a' => (a, a') ∈ P) as as') :
      Alike P (.concat n as) (.concat n' as')
  | slice (n n' : Nat) {a a' : Expr} (operand : (a, a') ∈ P) (high low : Nat) :
      Alike P (.slice n a high low) (.slice n' a' high low)
  | extend (n n' : Nat) {a a' : Expr} (operand : (a, a') ∈ P) (width : Nat) (signed : Bool) :
      Alike P (.extend n a width signed) (.extend n' a' width signed)
  | caseMatch (n n' : Nat) {s s' p p' : Expr} (subject : (s, s') ∈ P) (pattern : (p, p') ∈ P)
      (wildcard : Bool) : Alike P (.caseMatch n s p wildcard) (.caseMatch n' s' p' wildcard)

/-- Expressions that are paired one by one. -/
abbrev Paired (P : Set (Expr × Expr)) : List Expr → List Expr → Prop :=
  List.Forall₂ fun a a' => (a, a') ∈ P

/-- A pairing of the nodes of two runs, each of which gave out its numbers from `base` on. -/
structure Twins (base : Nat) (P : Set (Expr × Expr)) (next next' : Nat) : Prop where
  alike {e e' : Expr} : (e, e') ∈ P → Alike P e e'
  left {a a' b b' : Expr} : (a, a') ∈ P → (b, b') ∈ P → a.node = b.node → a = b ∧ a' = b'
  right {a a' b b' : Expr} : (a, a') ∈ P → (b, b') ∈ P → a'.node = b'.node → a = b ∧ a' = b'
  numbered {e e' : Expr} : (e, e') ∈ P → e.node < next ∧ e'.node < next'
  /-- Nodes that were there before are paired with themselves. -/
  old {e e' : Expr} : (e, e') ∈ P → e.node < base ∨ e'.node < base → e = e'
  above : base ≤ next ∧ base ≤ next'

section

variable {base next next' : Nat} {P Q : Set (Expr × Expr)}

theorem paired_mono (sub : P ⊆ Q) {as as' : List Expr} (paired : Paired P as as') :
    Paired Q as as' :=
  paired.imp fun _ _ member => sub member

theorem paired_each {R : Expr → Expr → Prop} {as as' : List Expr} (paired : Paired P as as')
    (each : ∀ a ∈ as, ∀ a', (a, a') ∈ P → R a a') : List.Forall₂ R as as' := by
  induction paired with
  | nil => exact .nil
  | cons head _ ih =>
    exact .cons (each _ (by simp) _ head) (ih fun a later => each a (by simp [later]))

theorem alike_mono (sub : P ⊆ Q) {e e' : Expr} (alike : Alike P e e') : Alike Q e e' := by
  cases alike with
  | signal | literal | integer | read | unassigned => constructor
  | unary _ _ op a => exact .unary _ _ op (sub a)
  | binary _ _ op a b => exact .binary _ _ op (sub a) (sub b)
  | mux _ _ c t f => exact .mux _ _ (sub c) (sub t) (sub f)
  | concat _ _ parts => exact .concat _ _ (paired_mono sub parts)
  | slice _ _ a => exact .slice _ _ (sub a) _ _
  | extend _ _ a => exact .extend _ _ (sub a) _ _
  | caseMatch _ _ s p => exact .caseMatch _ _ (sub s) (sub p) _

theorem alike_children {e e' : Expr} (alike : Alike P e e') : Paired P e.children e'.children := by
  cases alike with
  | signal | literal | integer | read | unassigned => exact .nil
  | unary _ _ _ a => exact .cons a .nil
  | slice _ _ a | extend _ _ a => exact .cons a .nil
  | binary _ _ _ a b => exact .cons a (.cons b .nil)
  | caseMatch _ _ a b => exact .cons a (.cons b .nil)
  | mux _ _ c t f => exact .cons c (.cons t (.cons f .nil))
  | concat _ _ parts => exact parts

theorem alike_self {e : Expr} (operands : ∀ a ∈ e.children, (a, a) ∈ P) : Alike P e e := by
  cases e with
  | signal | literal | integer | read | unassigned => constructor
  | unary n op a => exact .unary _ _ op (operands a (by simp [children]))
  | slice n a => exact .slice _ _ (operands a (by simp [children])) _ _
  | extend n a => exact .extend _ _ (operands a (by simp [children])) _ _
  | binary n op a b =>
    exact .binary _ _ op (operands a (by simp [children])) (operands b (by simp [children]))
  | caseMatch n a b =>
    exact .caseMatch _ _ (operands a (by simp [children])) (operands b (by simp [children])) _
  | mux n c t f =>
    exact .mux _ _ (operands c (by simp [children])) (operands t (by simp [children]))
      (operands f (by simp [children]))
  | concat n parts => exact .concat _ _ (List.forall₂_same.mpr operands)

/-- A node over new operands, as many as before. -/
theorem alike_withChildren {e e' : Expr} (alike : Alike P e e') (n n' : Nat) {as as' : List Expr}
    (paired : Paired Q as as') (parent : e.children ≠ []) (length : as.length = e.children.length) :
    Alike Q (e.withChildren n as) (e'.withChildren n' as') := by
  cases alike with
  | signal | literal | integer | read | unassigned => simp [children] at parent
  | concat => exact .concat _ _ paired
  | unary | slice | extend =>
    obtain ⟨a, rfl⟩ := List.length_eq_one_iff.mp length
    obtain _ | ⟨head, ⟨⟩⟩ := paired
    constructor
    exact head
  | binary | caseMatch =>
    obtain ⟨a, b, rfl⟩ := List.length_eq_two.mp length
    obtain _ | ⟨first, _ | ⟨second, ⟨⟩⟩⟩ := paired
    constructor
    · exact first
    · exact second
  | mux =>
    obtain ⟨a, b, c, rfl⟩ := List.length_eq_three.mp length
    obtain _ | ⟨first, _ | ⟨second, _ | ⟨third, ⟨⟩⟩⟩⟩ := paired
    exact .mux _ _ first second third

namespace Twins

/-- Before both runs, every node is paired with itself. -/
theorem start {K : Set Expr} (sharing : Sharing K next) :
    Twins next ((fun e => (e, e)) '' K) next next := by
  have mem : ∀ {e e' : Expr}, (e, e') ∈ (fun e => (e, e)) '' K ↔ e ∈ K ∧ e = e' := by
    intro e e'
    constructor
    · rintro ⟨f, inside, same⟩
      obtain ⟨rfl, rfl⟩ := Prod.mk.inj same
      exact ⟨inside, rfl⟩
    · rintro ⟨inside, rfl⟩
      exact ⟨e, inside, rfl⟩
  refine ⟨fun member => ?_, fun first second same => ?_, fun first second same => ?_,
    fun member => ?_, fun member _ => (mem.mp member).2, Nat.le_refl _, Nat.le_refl _⟩
  · obtain ⟨inside, rfl⟩ := mem.mp member
    exact alike_self fun a operand => mem.mpr ⟨sharing.operands _ inside a operand, rfl⟩
  · obtain ⟨inside, rfl⟩ := mem.mp first
    obtain ⟨inside', rfl⟩ := mem.mp second
    exact ⟨sharing.one_node _ inside _ inside' same, sharing.one_node _ inside _ inside' same⟩
  · obtain ⟨inside, rfl⟩ := mem.mp first
    obtain ⟨inside', rfl⟩ := mem.mp second
    exact ⟨sharing.one_node _ inside _ inside' same, sharing.one_node _ inside _ inside' same⟩
  · obtain ⟨inside, rfl⟩ := mem.mp member
    exact ⟨sharing.numbered _ inside, sharing.numbered _ inside⟩

/-- Numbers that only one of the runs gives out. -/
theorem later (twins : Twins base P next next') {after : Nat} (le : next' ≤ after) :
    Twins base P next after where
  alike := twins.alike
  left := twins.left
  right := twins.right
  numbered member := (twins.numbered member).imp_right fun bound => Nat.lt_of_lt_of_le bound le
  old := twins.old
  above := twins.above.imp_right fun bound => Nat.le_trans bound le

/-- A node built in both runs. -/
theorem build (twins : Twins base P next next') {e e' : Expr} (fresh : e.node = next)
    (fresh' : e'.node = next') (alike : Alike P e e') :
    Twins base (insert (e, e') P) (next + 1) (next' + 1) := by
  have sub : P ⊆ insert (e, e') P := Set.subset_insert _ _
  have apart : ∀ {a a'}, (a, a') ∈ P → a.node ≠ e.node ∧ a'.node ≠ e'.node := by
    intro a a' member
    have bounds := twins.numbered member
    omega
  have mem : ∀ {a a'}, (a, a') ∈ insert (e, e') P ↔ (a = e ∧ a' = e') ∨ (a, a') ∈ P := by simp
  have bounds := twins.above
  refine ⟨fun member => ?_, fun first second same => ?_, fun first second same => ?_,
    fun member => ?_, fun member before => ?_, by omega⟩
  · rcases mem.mp member with ⟨rfl, rfl⟩ | member
    · exact alike_mono sub alike
    · exact alike_mono sub (twins.alike member)
  · rcases mem.mp first with ⟨rfl, rfl⟩ | early <;> rcases mem.mp second with ⟨rfl, rfl⟩ | early'
    · exact ⟨rfl, rfl⟩
    · exact ((apart early').1 same.symm).elim
    · exact ((apart early).1 same).elim
    · exact twins.left early early' same
  · rcases mem.mp first with ⟨rfl, rfl⟩ | early <;> rcases mem.mp second with ⟨rfl, rfl⟩ | early'
    · exact ⟨rfl, rfl⟩
    · exact ((apart early').2 same.symm).elim
    · exact ((apart early).2 same).elim
    · exact twins.right early early' same
  · rcases mem.mp member with ⟨rfl, rfl⟩ | member
    · omega
    · have := twins.numbered member
      omega
  · rcases mem.mp member with ⟨rfl, rfl⟩ | member
    · omega
    · exact twins.old member before

/-- Two nodes are one in both runs or in neither. -/
theorem same_eq (twins : Twins base P next next') {a a' b b' : Expr} (first : (a, a') ∈ P)
    (second : (b, b') ∈ P) : a.same b = a'.same b' := by
  rw [Bool.eq_iff_iff, Expr.same_iff, Expr.same_iff]
  constructor
  · exact fun same => congrArg node (twins.left first second same).2
  · exact fun same => congrArg node (twins.right first second same).1

theorem sameAll_eq (twins : Twins base P next next') {as as' bs bs' : List Expr}
    (first : Paired P as as') (second : Paired P bs bs') : sameAll as bs = sameAll as' bs' := by
  induction first generalizing bs bs' with
  | nil => cases second <;> rfl
  | cons head _ ih =>
    cases second with
    | nil => rfl
    | cons head' tail' => simp only [sameAll, twins.same_eq head head', ih tail']

/-- Paired expressions have one structure. -/
theorem shape_eq (twins : Twins base P next next') (e : Expr) :
    ∀ e', (e, e') ∈ P → e.shape = e'.shape := by
  induction e using operand_induction with
  | step e ih =>
    intro e' member
    have alike := twins.alike member
    have operands : e.children.map shape = e'.children.map shape := by
      rw [← List.forall₂_eq_eq_eq, List.forall₂_map_left_iff, List.forall₂_map_right_iff]
      exact paired_each (alike_children alike) ih
    cases alike <;> simp_all [shape, children]

/-- A search asks the two nodes of a pair at the same time. -/
theorem search_eq (twins : Twins base P next next') {m : Type → Type} [Monad m] {β : Type}
    {ask : Expr → m (Option β)} (blind : ∀ {e e'}, Alike P e e' → ask e = ask e')
    {seen seen' : IdSet} {stack stack' : List Expr} (paired : Paired P stack stack')
    (known : ∀ {e e'}, (e, e') ∈ P → seen.contains e.node = seen'.contains e'.node) :
    searchStack ask seen stack = searchStack ask seen' stack' := by
  induction seen, stack using searchStack.induct generalizing seen' stack' with
  | case1 =>
    cases paired
    rw [searchStack_nil, searchStack_nil]
  | case2 seen e rest here ih =>
    cases paired with
    | @cons _ e' _ rest' head tail =>
      have here' : seen'.contains e'.node = true := (known head).symm.trans here
      rw [searchStack_known ask here, ih tail known, searchStack_known ask here']
  | case3 seen e rest unknown ih =>
    cases paired with
    | @cons _ e' _ rest' head tail =>
      have unknown' : ¬seen'.contains e'.node = true := fun here => unknown ((known head).trans here)
      have alike := twins.alike head
      -- a node is marked as seen in one search exactly when its twin is in the other
      have grown : ∀ {a a'}, (a, a') ∈ P →
          (seen.insert e.node).contains a.node = (seen'.insert e'.node).contains a'.node := by
        intro a a' member
        have same : e.node = a.node ↔ e'.node = a'.node := by
          rw [← Expr.same_iff, twins.same_eq head member, Expr.same_iff]
        rw [Bool.eq_iff_iff]
        simp only [Std.TreeSet.contains_insert, known member, Bool.or_eq_true, beq_iff_eq,
          Std.LawfulEqCmp.compare_eq_iff_eq, same]
      rw [searchStack_unknown ask unknown, searchStack_unknown ask unknown', blind alike,
        ih (List.rel_append (alike_children alike) tail) grown]

theorem find_eq (twins : Twins base P next next') {β : Type} {f : Expr → Option β}
    (blind : ∀ {e e'}, Alike P e e' → f e = f e') {e e' : Expr} (member : (e, e') ∈ P) :
    e.find? f = e'.find? f :=
  congrArg Id.run (twins.search_eq (fun alike => congrArg pure (blind alike)) (.cons member .nil)
    fun _ => rfl)

end Twins

/-- Nodes that are twins of one node. -/
def Joined (P Q : Set (Expr × Expr)) : Set (Expr × Expr) :=
  { pair | ∃ e, (e, pair.1) ∈ P ∧ (e, pair.2) ∈ Q }

theorem paired_join {as bs cs : List Expr} (left : Paired P as bs) (right : Paired Q as cs) :
    Paired (Joined P Q) bs cs :=
  (forall₂_join left right).imp fun _ _ ⟨a, _, here, there⟩ => ⟨a, here, there⟩

theorem joined {e e' e'' : Expr} (here : (e, e') ∈ P) (there : (e, e'') ∈ Q) :
    (e', e'') ∈ Joined P Q :=
  ⟨e, here, there⟩

theorem alike_join {e e' e'' : Expr} (left : Alike P e e') (right : Alike Q e e'') :
    Alike (Joined P Q) e' e'' := by
  cases left with
  | signal | literal | integer | read | unassigned =>
    cases right
    constructor
  | unary _ _ op a =>
    cases right with
    | unary _ _ _ a' => exact .unary _ _ op (joined a a')
  | binary _ _ op a b =>
    cases right with
    | binary _ _ _ a' b' => exact .binary _ _ op (joined a a') (joined b b')
  | mux _ _ c t f =>
    cases right with
    | mux _ _ c' t' f' => exact .mux _ _ (joined c c') (joined t t') (joined f f')
  | concat _ _ parts =>
    cases right with
    | concat _ _ parts' => exact .concat _ _ (paired_join parts parts')
  | slice _ _ a high low =>
    cases right with
    | slice _ _ a' => exact .slice _ _ (joined a a') high low
  | extend _ _ a width signed =>
    cases right with
    | extend _ _ a' => exact .extend _ _ (joined a a') width signed
  | caseMatch _ _ s p wildcard =>
    cases right with
    | caseMatch _ _ s' p' => exact .caseMatch _ _ (joined s s') (joined p p') wildcard

/-- Two runs that both have twins in a third one. -/
theorem Twins.join {after after' : Nat} (left : Twins base P next next')
    (right : Twins base Q after after') : Twins base (Joined P Q) next' after' where
  alike := fun ⟨_, here, there⟩ => alike_join (left.alike here) (right.alike there)
  left := by
    rintro a a' b b' ⟨e, here, there⟩ ⟨f, here', there'⟩ same
    obtain ⟨rfl, rfl⟩ := left.right here here' same
    exact ⟨rfl, (right.left there there' rfl).2⟩
  right := by
    rintro a a' b b' ⟨e, here, there⟩ ⟨f, here', there'⟩ same
    obtain ⟨rfl, rfl⟩ := right.right there there' same
    exact ⟨(left.left here here' rfl).2, rfl⟩
  numbered := fun ⟨_, here, there⟩ => ⟨(left.numbered here).2, (right.numbered there).2⟩
  old := by
    rintro e e' ⟨f, here, there⟩ before
    rcases before with before | before
    · obtain rfl := left.old here (.inr before)
      exact right.old there (.inl before)
    · obtain rfl := right.old there (.inr before)
      exact (left.old here (.inl before)).symm
  above := ⟨left.above.2, right.above.2⟩

end

end CombLogic
