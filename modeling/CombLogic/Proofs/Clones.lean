import CombLogic.Proofs.Netlist.Clones

/- A copy of a bundle has the shape of the bundle and shares nothing with it. However often a leaf or an
   inner bundle is listed, each place gets one of its own, and all that was there before stays as it
   was. -/
namespace CombLogic

open Netlist

/-- What a call that copies a bundle leaves behind. -/
structure Cloned (g h : Netlist) (id copy : BundleId) (name : String) : Prop where
  /-- Leaves of the same widths in the same order, bundled alike. -/
  shape : ∃ tree, g.treeOf (.bundle id) = .ok tree ∧ h.treeOf (.bundle copy) = .ok tree
  /-- In the copy every new leaf has one place, and no other leaf has one. -/
  leaves : h.leavesOf (.bundle copy) = .ok (newLeaves g h) ∧ (newLeaves g h).Nodup
  /-- So it is with the bundles, of which the copy itself is the last one. -/
  bundles : h.bundlesOf (.bundle copy) = .ok (newBundles g h) ∧ (newBundles g h).Nodup
  blank : ∀ leaf ∈ newLeaves g h, ∃ entry, h.leaves.get? leaf = some entry ∧ entry.Blank
  named : h.nameOf (.bundle copy) = .ok name
  oldLeaves : ∀ leaf < g.leaves.size, h.leaves.get? leaf = g.leaves.get? leaf
  oldBundles : ∀ bundle < g.bundles.size, h.bundles.get? bundle = g.bundles.get? bundle
  oldNames : ∀ target text, g.nameOf target = .ok text → h.nameOf target = .ok text
  rest : h = { g with leaves := h.leaves, bundles := h.bundles, names := h.names }
  /-- A path that leads nowhere in the one leads nowhere in the other, and any other path leads to parts
      of the same shape. -/
  paths : ∀ path,
    (g.follow (.bundle id) path = .ok none ∧ h.follow (.bundle copy) path = .ok none) ∨
    ∃ part part' tree, g.follow (.bundle id) path = .ok (some part) ∧
      h.follow (.bundle copy) path = .ok (some part') ∧
        g.treeOf part = .ok tree ∧ h.treeOf part' = .ok tree

section

variable {g h : Netlist}

theorem reachable_named {w : World} (reachable : w.Reachable) :
    w.netlist.Named ∧ w.netlist.BundlesNamed := by
  obtain ⟨K, kept⟩ := reachable_kept reachable
  obtain ⟨limit, leads⟩ := reachable
  have still : ∀ {g h : Netlist}, h.bundles = g.bundles ∧ h.names = g.names →
      g.BundlesNamed → h.BundlesNamed := by
    intro g h same named
    rw [BundlesNamed, same.1, same.2]
    exact named
  refine ⟨kept.named, leads_declares declarative_bundlesNamed still leads ?_⟩
  intro id bundle found
  simp [World.empty, Netlist.empty] at found

theorem nested_tree {target : Ref} (nested : g.Nested target) :
    ∃ tree, g.treeOf target = .ok tree := by
  obtain ⟨ids, leaves, there⟩ :=
    nested_within nested List.nodup_nil (by simp) (Nat.le_refl g.bundles.size)
  refine walk_found leaves fun id member => ?_
  obtain ⟨leaf, known⟩ := Option.isSome_iff_exists.mp (there id member)
  exact ⟨.leaf leaf.width, by simp [leaf_of_get known, bind, Except.bind, pure, Except.pure]⟩

theorem nameOf_declares (declares : Declares g h) {target : Ref} {text : String}
    (found : g.nameOf target = .ok text) : h.nameOf target = .ok text := by
  have listed : ∀ {number}, g.nameText number = .ok text → h.nameText number = .ok text := by
    intro number found
    unfold nameText at found ⊢
    split at found
    · rename_i name here
      rw [declares.names _ _ here]
      exact found
    · cases found
  cases target with
  | leaf id =>
    obtain ⟨leaf, known, text⟩ := bind_ok found
    have there := leaf_of_get (declares.leaf id leaf (leaf_ok.mp known))
    simpa only [nameOf, leafName, there, bind, Except.bind] using listed text
  | bundle id =>
    obtain ⟨bundle, known, text⟩ := bind_ok found
    have there := bundle_ok.mpr (declares.bundle id bundle (bundle_ok.mp known))
    simpa only [nameOf, there, bind, Except.bind] using listed text

theorem single {α β : Type} {R : α → List β → Prop} {a : α} {lists : List (List β)}
    (each : List.Forall₂ R [a] lists) : R a lists.flatten := by
  obtain ⟨list, rest, here, none, rfl⟩ := List.forall₂_cons_left_iff.mp each
  cases none
  rwa [List.flatten_singleton]

theorem unchanged {α : Type} {a b : Numbered α}
    (last : ∀ id entry, a.get? id = some entry → b.get? id = some entry) :
    ∀ id < a.size, b.get? id = a.get? id := by
  intro id old
  obtain ⟨entry, found⟩ := Option.isSome_iff_exists.mp ((a.get?_isSome id).mpr old)
  rw [found, last id entry found]

/-- A path from two roots of one shape. -/
theorem follow_alike {root root' : Ref} {tree : Tree} (found : g.treeOf root = .ok tree)
    (found' : h.treeOf root' = .ok tree) (path : List Nat) :
    (g.follow root path = .ok none ∧ h.follow root' path = .ok none) ∨
    ∃ part part' inner, g.follow root path = .ok (some part) ∧ h.follow root' path = .ok (some part') ∧
      g.treeOf part = .ok inner ∧ h.treeOf part' = .ok inner := by
  rcases follow_tree found path with ⟨ends, missing⟩ | ⟨part, inner, d, reached, here, le, below⟩
  all_goals
    rcases follow_tree found' path with ⟨ends', missing'⟩ |
      ⟨part', inner', d', reached', here', le', below'⟩
  · exact .inl ⟨ends, ends'⟩
  · cases missing.symm.trans here'
  · cases here.symm.trans missing'
  · obtain rfl : inner = inner' := Option.some.inj (here.symm.trans here')
    exact .inr ⟨part, part', inner, reached, reached',
      tree_last (.refl _) le below, tree_last (.refl _) le' below'⟩

end

/-- In every world that calls lead to, a bundle that is there with everything inside it can be copied,
    and the copy has its shape and shares nothing with what was there. -/
theorem clone_disjoint {w : World} (reachable : w.Reachable) {id : BundleId}
    (nested : w.netlist.Nested (.bundle id)) (name : String) :
    ∃ copy h, cloneBundle id name w.netlist = (.ok copy, h) ∧ Cloned w.netlist h id copy name := by
  obtain ⟨named, bundles⟩ := reachable_named reachable
  obtain ⟨tree, found⟩ := nested_tree nested
  obtain ⟨copy, h, run, copies, text⟩ :=
    cloneWithin_copies _ w.netlist id tree name named bundles found
  refine ⟨copy, h, run, ?_⟩
  have declares := copies.declares
  have deeper := size_le declares.bundle
  have unfolded : h.treeOf (.bundle copy) = .ok tree :=
    tree_last (.refl h) deeper (List.forall₂_cons.mp copies.trees).1
  refine
    { shape := ⟨tree, found, unfolded⟩
      leaves := ⟨?leaves, List.nodup_range'⟩
      bundles := ⟨?bundles, List.nodup_range'⟩
      blank := fun leaf new => ?blank
      named := text
      oldLeaves := unchanged declares.leaf
      oldBundles := unchanged declares.bundle
      oldNames := fun target text => nameOf_declares declares
      rest := declares.same
      paths := follow_alike found unfolded }
  case leaves =>
    obtain ⟨lists, each, joined⟩ := copies.leaves
    exact joined ▸ leaves_last (.refl h) deeper (single each)
  case bundles =>
    obtain ⟨lists, each, joined⟩ := copies.bundles
    exact joined ▸ bundles_last (.refl h) deeper (single each)
  case blank =>
    obtain ⟨old, inside⟩ := List.mem_range'_1.mp new
    have more := size_le declares.leaf
    obtain ⟨entry, known⟩ :=
      Option.isSome_iff_exists.mp ((h.leaves.get?_isSome leaf).mpr (by omega))
    exact ⟨entry, known,
      copies.blank leaf entry known (w.netlist.leaves.get?_outside leaf (by omega))⟩

/-- A packet lists a header, a leaf, the header again, and the leaf again. The copy has two headers and
    six leaves, all of them new. -/
theorem packet_copied : ∃ (g h : Netlist) (copy : BundleId),
    cloneBundle 1 "tmp" g = (.ok copy, h) ∧ Cloned g h 1 copy "tmp" ∧
      h.leavesOf (.bundle copy) = .ok [2, 3, 4, 5, 6, 7] ∧
        h.bundlesOf (.bundle copy) = .ok [2, 3, 4] := by
  let calls : List Call := [.leaf "pkt.len" (.ofNat 4 9), .leaf "pkt.tag" (.unknown 1),
    .bundle "pkt.head" [.leaf 0, .leaf 1],
    .bundle "pkt" [.bundle 0, .leaf 1, .bundle 0, .leaf 1]]
  let w := (World.empty 10).after calls
  have reachable : w.Reachable := ⟨10, World.leads_after _ calls (by decide +kernel)⟩
  have nested : w.netlist.Nested (.bundle 1) :=
    nested_iff.mpr ⟨[(0, 4), (1, 1), (1, 1), (0, 4), (1, 1), (1, 1)], of_toOption (by decide +kernel)⟩
  have leaves : w.netlist.leaves.size = 2 := by decide +kernel
  have bundles : w.netlist.bundles.size = 2 := by decide +kernel
  have leaves' : (cloneBundle 1 "tmp" w.netlist).2.leaves.size = 8 := by decide +kernel
  have bundles' : (cloneBundle 1 "tmp" w.netlist).2.bundles.size = 5 := by decide +kernel
  obtain ⟨copy, h, run, cloned⟩ := clone_disjoint reachable nested "tmp"
  rw [run] at leaves' bundles'
  refine ⟨w.netlist, h, copy, run, cloned, ?_, ?_⟩
  · rw [cloned.leaves.1, newLeaves, leaves, leaves']
    rfl
  · rw [cloned.bundles.1, newBundles, bundles, bundles']
    rfl

end CombLogic
