import CombLogic.Proofs.Netlist.Bundles

/- Targets as trees. A target nested to any depth is unfolded into the tree of its leaf widths, also
   where a bundle lists one leaf or one inner bundle several times, and paths lead down the tree as they
   lead down the target. Every walk over a target is one recursion with its own answers for leaves and
   for bundles, and it finds later what it found before. -/
namespace CombLogic

open Netlist

/-- The shape of a target: the widths of its leaves, bundled as they are. -/
inductive Tree where
  | leaf (width : Nat)
  | bundle (elements : List Tree)
deriving Repr

/-- Follows element indices down, as far as there are elements. -/
def Tree.at? : Tree → List Nat → Option Tree
  | tree, [] => some tree
  | .leaf _, _ :: _ => none
  | .bundle elements, index :: path => do (← elements[index]?).at? path

namespace Netlist

/-- What is found for the leaves of a target, put together bundle by bundle. -/
def walkWithin {β : Type} (leaf : LeafId → Except NetlistError β) (join : BundleId → List β → β)
    (g : Netlist) : Nat → Ref → Except NetlistError β
  | _, .leaf id => leaf id
  | 0, .bundle id => .error (.endlessBundle id)
  | depth + 1, .bundle id => do
    let bundle ← g.bundle id
    return join id (← bundle.elements.mapM (walkWithin leaf join g depth))

def treeWithin (g : Netlist) : Nat → Ref → Except NetlistError Tree :=
  walkWithin (fun id => return .leaf (← g.leaf id).width) (fun _ => .bundle) g

def treeOf (g : Netlist) (target : Ref) : Except NetlistError Tree :=
  g.treeWithin g.bundles.size target

/-- The bundles in a target at all depths, each behind those inside it. -/
def bundlesWithin (g : Netlist) : Nat → Ref → Except NetlistError (List BundleId) :=
  walkWithin (fun _ => .ok []) (fun id lists => lists.flatten ++ [id]) g

def bundlesOf (g : Netlist) (target : Ref) : Except NetlistError (List BundleId) :=
  g.bundlesWithin g.bundles.size target

section Walks

variable {β : Type} {leaf leaf' : LeafId → Except NetlistError β} {join : BundleId → List β → β}
variable {g h : Netlist} {target : Ref} {depth depth' : Nat} {b : β}

theorem walk_leaf (id : LeafId) : walkWithin leaf join g depth (.leaf id) = leaf id := by
  cases depth <;> rfl

theorem walk_bundle {id : BundleId} :
    walkWithin leaf join g depth (.bundle id) = .ok b ↔ ∃ deeper bundle bs, depth = deeper + 1 ∧
      g.bundles.get? id = some bundle ∧
        List.Forall₂ (fun e b => walkWithin leaf join g deeper e = .ok b) bundle.elements bs ∧
          join id bs = b := by
  constructor
  · intro found
    cases depth with
    | zero => cases found
    | succ deeper =>
      obtain ⟨bundle, known, found⟩ := bind_ok found
      obtain ⟨bs, each, joined⟩ := bind_ok found
      exact ⟨deeper, bundle, bs, rfl, bundle_ok.mp known, mapM_ok each, Except.ok.inj joined⟩
  · rintro ⟨deeper, bundle, bs, rfl, known, each, rfl⟩
    simp only [walkWithin, bundle_ok.mpr known, ok_mapM each, bind, Except.bind]
    rfl

theorem leavesWithin_walk (depth : Nat) (target : Ref) : g.leavesWithin depth target =
    walkWithin (fun id => .ok [id]) (fun _ => List.flatten) g depth target := by
  induction depth generalizing target with
  | zero => cases target <;> rfl
  | succ depth ih =>
    cases target with
    | leaf id => rfl
    | bundle id =>
      have each : g.leavesWithin depth =
          walkWithin (fun id => .ok [id]) (fun _ => List.flatten) g depth := funext ih
      rw [leavesWithin, walkWithin, each]

/-- A walk finds what it found before if the bundles last and more is known of the leaves; it may also
    be allowed to go deeper. -/
theorem walk_last (keeps : ∀ id b, leaf id = .ok b → leaf' id = .ok b) (last : BundlesLast g h)
    (le : depth ≤ depth') (found : walkWithin leaf join g depth target = .ok b) :
    walkWithin leaf' join h depth' target = .ok b := by
  induction depth generalizing depth' target b with
  | zero =>
    cases target with
    | leaf id =>
      rw [walk_leaf] at found ⊢
      exact keeps id b found
    | bundle id => cases found
  | succ depth ih =>
    cases target with
    | leaf id =>
      rw [walk_leaf] at found ⊢
      exact keeps id b found
    | bundle id =>
      obtain ⟨deeper, bundle, bs, same, known, each, joined⟩ := walk_bundle.mp found
      obtain rfl : depth = deeper := by omega
      obtain ⟨depth', rfl⟩ : ∃ deeper', depth' = deeper' + 1 := ⟨depth' - 1, by omega⟩
      exact walk_bundle.mpr ⟨depth', bundle, bs, rfl, last id bundle known,
        each.imp fun _ _ => ih (by omega), joined⟩

/-- A walk that finds something for each of the leaves finds something for the target. -/
theorem walk_found {ids : List LeafId} (leaves : g.leavesWithin depth target = .ok ids)
    (each : ∀ id ∈ ids, ∃ b, leaf id = .ok b) : ∃ b, walkWithin leaf join g depth target = .ok b := by
  induction depth generalizing target ids with
  | zero =>
    cases target with
    | leaf id =>
      cases leaves
      exact each id (by simp)
    | bundle id => cases leaves
  | succ depth ih =>
    cases target with
    | leaf id =>
      cases leaves
      exact each id (by simp)
    | bundle id =>
      obtain ⟨bundle, known, leaves⟩ := bind_ok leaves
      obtain ⟨lists, inside, joined⟩ := bind_ok leaves
      cases joined
      have every : ∀ e ∈ bundle.elements, ∃ b, walkWithin leaf join g depth e = .ok b := by
        intro e listed
        obtain ⟨ids, member, here⟩ := forall₂_left (mapM_ok inside) e listed
        exact ih here fun id within => each id (List.mem_flatten.mpr ⟨ids, member, within⟩)
      obtain ⟨bs, found⟩ := forall₂_found every
      exact ⟨_, walk_bundle.mpr ⟨depth, bundle, bs, rfl, bundle_ok.mp known, found, rfl⟩⟩

end Walks

section Following

theorem forall₂_at {α β : Type} {R : α → β → Prop} {as : List α} {bs : List β}
    (each : List.Forall₂ R as bs) {index : Nat} {a : α} (here : as[index]? = some a) :
    ∃ b, bs[index]? = some b ∧ R a b := by
  induction each generalizing index with
  | nil => simp at here
  | cons head _ ih =>
    cases index with
    | zero =>
      obtain rfl := Option.some.inj here
      exact ⟨_, rfl, head⟩
    | succ index => exact ih (by simpa using here)

variable {g : Netlist} {target : Ref} {depth : Nat} {tree : Tree}

theorem tree_leaf {id : LeafId} : g.treeWithin depth (.leaf id) = .ok tree ↔
    ∃ leaf, g.leaves.get? id = some leaf ∧ .leaf leaf.width = tree := by
  rw [treeWithin, walk_leaf]
  constructor
  · intro found
    obtain ⟨leaf, known, same⟩ := bind_ok found
    exact ⟨leaf, leaf_ok.mp known, Except.ok.inj same⟩
  · rintro ⟨leaf, known, rfl⟩
    simp [leaf_ok.mpr known, bind, Except.bind, pure, Except.pure]

/-- A path leads down a target as it leads down its tree. -/
theorem follow_tree (found : g.treeWithin depth target = .ok tree) (path : List Nat) :
    (g.follow target path = .ok none ∧ tree.at? path = none) ∨
    ∃ part inner deeper, g.follow target path = .ok (some part) ∧ tree.at? path = some inner ∧
      deeper ≤ depth ∧ g.treeWithin deeper part = .ok inner := by
  induction path generalizing target depth tree with
  | nil =>
    refine .inr ⟨target, tree, depth, ?_, by cases tree <;> rfl, Nat.le_refl depth, found⟩
    cases target <;> rfl
  | cons index path ih =>
    cases target with
    | leaf id =>
      obtain ⟨leaf, -, rfl⟩ := tree_leaf.mp found
      exact .inl ⟨rfl, rfl⟩
    | bundle id =>
      obtain ⟨deeper, bundle, trees, rfl, known, each, rfl⟩ := walk_bundle.mp found
      have step : g.element id index = .ok bundle.elements[index]? := by
        simp only [element, bundle_ok.mpr known, bind, Except.bind]
        rfl
      cases here : bundle.elements[index]? with
      | none =>
        have missing : trees[index]? = none := by
          rw [List.getElem?_eq_none_iff] at here ⊢
          rwa [← each.length_eq]
        refine .inl ⟨?_, by simp [Tree.at?, missing]⟩
        simp only [follow, step, here, bind, Except.bind]
        rfl
      | some next =>
        obtain ⟨tree, there, below⟩ := forall₂_at each here
        have onward : g.follow (.bundle id) (index :: path) = g.follow next path := by
          simp only [follow, step, here, bind, Except.bind]
        have downward : (Tree.bundle trees).at? (index :: path) = tree.at? path := by
          simp [Tree.at?, there]
        rw [onward, downward]
        rcases ih below with ends | ⟨part, inner, deeper', followed, reached, le, found⟩
        · exact .inl ends
        · exact .inr ⟨part, inner, deeper', followed, reached, by omega, found⟩

end Following

end Netlist

end CombLogic
