import CombLogic.Proofs.Block.Substitution

/- Resolution of reads as a map over nodes. Every node has one image, whatever the place at which it
   occurs: a read has what is bound for its target, and any other node has itself, or the node over the
   images of its operands. What such a map makes of an expression is the substitution. -/
namespace CombLogic

open Expr Netlist

/-- What stands for a leaf: the very node that is bound, or a node that reads the leaf itself. -/
inductive Supplies (b : Binding) (leaf : LeafId) : Expr → Prop
  | entry {r : Expr} (bound : b.get? leaf = some r) : Supplies b leaf r
  | live {n : Nat} (free : b.get? leaf = none) : Supplies b leaf (.signal n leaf)

/-- What becomes of a node, where its operands become their images. -/
inductive Becomes (g : Netlist) (b : Binding) (image : Expr → Expr) : Expr → Expr → Prop
  | leaf {node : Nat} {leaf : LeafId} {r : Expr} (supplies : Supplies b leaf r) :
    Becomes g b image (.read node (.leaf leaf)) r
  /-- The leaves of a bundle side by side, the first one lowest. -/
  | bundle {node n : Nat} {id : BundleId} {leaves : List LeafId} {parts : List Expr}
    (found : g.leavesOf (.bundle id) = .ok leaves) (each : List.Forall₂ (Supplies b) leaves parts) :
    Becomes g b image (.read node (.bundle id)) (.concat n parts.reverse)
  | same {e : Expr} (unread : ∀ node target, e ≠ .read node target)
    (unchanged : ∀ a ∈ e.children, image a = a) : Becomes g b image e e
  | new {e a : Expr} {n : Nat} (operand : a ∈ e.children) (changed : image a ≠ a) :
    Becomes g b image e (e.withChildren n (e.children.map image))

/-- Nodes for which a node of their own is built. -/
inductive Made (b : Binding) (image : Expr → Expr) : Expr → Prop
  | read {node : Nat} {target : Ref} (unbound : ∀ leaf, target = .leaf leaf → b.get? leaf = none) :
    Made b image (.read node target)
  | parent {e a : Expr} (operand : a ∈ e.children) (changed : image a ≠ a) : Made b image e

/-- Every node of an expression becomes its image. -/
def Expr.Imaged (g : Netlist) (b : Binding) (image : Expr → Expr) (e : Expr) : Prop :=
  e.All fun n => Becomes g b image n (image n)

/-- The node to which the indices of operands lead. -/
def Expr.at? : Expr → List Nat → Option Expr
  | e, [] => some e
  | e, i :: path => do (← e.children[i]?).at? path

section

variable {g : Netlist} {b : Binding} {image image' : Expr → Expr} {e r : Expr}

theorem becomes_congr (same : ∀ a ∈ e.children, image' a = image a) (becomes : Becomes g b image e r) :
    Becomes g b image' e r := by
  cases becomes with
  | leaf supplies => exact .leaf supplies
  | bundle found each => exact .bundle found each
  | same unread unchanged =>
    exact .same unread fun a operand => (same a operand).trans (unchanged a operand)
  | new operand changed =>
    rw [← List.map_congr_left same]
    exact .new operand (same _ operand ▸ changed)

theorem made_congr (same : ∀ a ∈ e.children, image' a = image a) (made : Made b image' e) :
    Made b image e := by
  cases made with
  | read unbound => exact .read unbound
  | parent operand changed => exact .parent operand (same _ operand ▸ changed)

/-- The operands of an image are the images of the operands. -/
theorem becomes_children (becomes : Becomes g b image e r) (parent : e.children ≠ []) :
    r.children = e.children.map image := by
  cases becomes with
  | leaf | bundle => simp [children] at parent
  | same _ unchanged => rw [List.map_congr_left unchanged, List.map_id']
  | new => exact (withChildren_node parent (List.length_map _)).2

theorem supplies_shape {leaf : LeafId} (supplies : Supplies b leaf r) :
    r.shape = (b.entry leaf).shape := by
  cases supplies with
  | entry bound => simp [Binding.entry, bound]
  | live free => simp [Binding.entry, free, shape]

/-- A node that reads no target is substituted operand by operand. -/
theorem subst_node {answer : Ref → Expr} (unread : ∀ node target, e ≠ .read node target) :
    e.subst answer = e.shape.withChildren 0 (e.children.map (subst answer)) := by
  cases e with
  | read node target => exact (unread node target rfl).elim
  | _ => simp [subst, shape, withChildren, children]

theorem imaged_operand {a : Expr} (imaged : e.Imaged g b image) (operand : a ∈ e.children) :
    a.Imaged g b image :=
  (all_iff.mp imaged).2 a operand

/-- One step of the substitution: the operands of a node were substituted. -/
theorem becomes_shape (becomes : Becomes g b image e r)
    (operands : ∀ a ∈ e.children, (image a).shape = a.subst (g.held b)) :
    r.shape = e.subst (g.held b) := by
  have operands : (e.children.map image).map shape = e.children.map (subst (g.held b)) := by
    rw [List.map_map]
    exact List.map_congr_left operands
  cases becomes with
  | leaf supplies => exact supplies_shape supplies
  | bundle found each =>
    have parts := map_of_forall₂ each fun leaf part supplies => supplies_shape supplies
    simp [subst, Netlist.held, found, shape, List.map_reverse, parts, Function.comp_def]
  | same unread unchanged =>
    rw [List.map_congr_left unchanged, List.map_id'] at operands
    rw [subst_node unread, ← operands, ← shape_withChildren e 0 _ rfl, withChildren_children]
  | new operand =>
    have unread : ∀ node target, e ≠ .read node target := by
      rintro node target rfl
      simp [children] at operand
    rw [subst_node unread, ← operands, shape_withChildren e _ _ (List.length_map _)]

theorem imaged_shape (imaged : e.Imaged g b image) : (image e).shape = e.subst (g.held b) := by
  induction e using operand_induction with
  | step e ih =>
    exact becomes_shape (all_iff.mp imaged).1 fun a operand =>
      ih a operand (imaged_operand imaged operand)

/-- What reads no target is its own image. -/
theorem imaged_unread (imaged : e.Imaged g b image)
    (unread : ∀ node target, ¬e.Contains (.read node target)) : image e = e := by
  induction e using operand_induction with
  | step e ih =>
    have unchanged : ∀ a ∈ e.children, image a = a := fun a operand =>
      ih a operand (imaged_operand imaged operand) fun node target inside =>
        unread node target (.within operand inside)
    have becomes := (all_iff.mp imaged).1
    generalize image e = r at becomes
    cases becomes with
    | leaf | bundle => exact (unread _ _ (.root _)).elim
    | same => rfl
    | new operand changed => exact (changed (unchanged _ operand)).elim

/-- A node lies in the entry of a leaf that an expression reads. -/
def Expr.Brings (g : Netlist) (b : Binding) (e n : Expr) : Prop :=
  ∃ node target leaves leaf entry, e.Contains (.read node target) ∧ g.leavesOf target = .ok leaves ∧
    leaf ∈ leaves ∧ b.get? leaf = some entry ∧ entry.Contains n

theorem brings_operand {a n : Expr} (operand : a ∈ e.children) (brings : a.Brings g b n) :
    e.Brings g b n := by
  obtain ⟨node, target, leaves, leaf, entry, inside, rest⟩ := brings
  exact ⟨node, target, leaves, leaf, entry, .within operand inside, rest⟩

theorem supplies_reads {leaf node : Nat} {target : Ref} (supplies : Supplies b leaf r)
    (inside : r.Contains (.read node target)) :
    ∃ entry, b.get? leaf = some entry ∧ entry.Contains (.read node target) := by
  cases supplies with
  | entry bound => exact ⟨r, bound, inside⟩
  | live => cases contains_leaf rfl inside

/-- A read in what becomes of a node is below the image of an operand, or an entry brings it. -/
theorem becomes_reads (becomes : Becomes g b image e r) {node : Nat} {target : Ref}
    (inside : r.Contains (.read node target)) :
    e.Brings g b (.read node target) ∨
      ∃ a ∈ e.children, (image a).Contains (.read node target) := by
  cases becomes with
  | @leaf place leaf _ supplies =>
    obtain ⟨entry, bound, within⟩ := supplies_reads supplies inside
    exact .inl ⟨place, .leaf leaf, [leaf], leaf, entry, .root _, leavesOf_leaf, by simp, bound, within⟩
  | @bundle place _ id leaves parts found each =>
    obtain ⟨part, member, within⟩ := contains_operand inside (by simp)
    obtain ⟨leaf, listed, supplies⟩ := forall₂_right each part (by simpa [children] using member)
    obtain ⟨entry, bound, within⟩ := supplies_reads supplies within
    exact .inl ⟨place, .bundle id, leaves, leaf, entry, .root _, found, listed, bound, within⟩
  | same unread unchanged =>
    obtain ⟨a, operand, within⟩ := contains_operand inside (unread node target).symm
    exact .inr ⟨a, operand, (unchanged a operand).symm ▸ within⟩
  | @new _ _ n operand =>
    have parent := List.ne_nil_of_mem operand
    obtain ⟨-, operands⟩ := withChildren_node (n := n) parent (List.length_map image)
    obtain ⟨r, member, within⟩ := contains_operand inside (by
      intro same
      rw [← same] at operands
      exact parent (List.map_eq_nil_iff.mp operands.symm))
    rw [operands] at member
    obtain ⟨a, operand, rfl⟩ := List.mem_map.mp member
    exact .inr ⟨a, operand, within⟩

theorem imaged_reads (imaged : e.Imaged g b image) {node : Nat} {target : Ref}
    (inside : (image e).Contains (.read node target)) : e.Brings g b (.read node target) := by
  induction e using operand_induction with
  | step e ih =>
    rcases becomes_reads (all_iff.mp imaged).1 inside with brings | ⟨a, operand, within⟩
    · exact brings
    · exact brings_operand operand (ih a operand (imaged_operand imaged operand) within)

theorem imaged_at (imaged : e.Imaged g b image) {path : List Nat} {a : Expr}
    (there : e.at? path = some a) : (image e).at? path = some (image a) := by
  induction path generalizing e with
  | nil =>
    cases there
    rfl
  | cons i path ih =>
    obtain ⟨c, operand, there⟩ := Option.bind_eq_some_iff.mp there
    have member := List.mem_of_getElem? operand
    have operands := becomes_children (all_iff.mp imaged).1 (List.ne_nil_of_mem member)
    rw [Expr.at?, operands, List.getElem?_map, operand]
    exact ih (imaged_operand imaged member) there

/-- The image of a node below an expression is below the image of the expression. -/
theorem imaged_contains (imaged : e.Imaged g b image) {a : Expr} (inside : e.Contains a) :
    (image e).Contains (image a) := by
  induction inside with
  | root => exact .root _
  | within operand _ ih =>
    have operands := becomes_children (all_iff.mp imaged).1 (List.ne_nil_of_mem operand)
    exact .within (operands ▸ List.mem_map_of_mem operand) (ih (imaged_operand imaged operand))

end

end CombLogic
