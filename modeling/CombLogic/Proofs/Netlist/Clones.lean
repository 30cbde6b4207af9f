import CombLogic.Proofs.Block.Latching
import CombLogic.Proofs.Netlist.Trees

/- Copies of targets. Copying declares leaves and bundles and leaves all others alone; what it has made
   so far unfolds into the trees of what it has copied so far, and its leaves and bundles are the new
   ones in the order in which they were declared. Each step adds to that. -/
namespace CombLogic

open Netlist

/-- A leaf as it is declared without a value. -/
structure Leaf.Blank (leaf : Leaf) : Prop where
  undriven : leaf.drive = .undriven
  unknown : leaf.value = .unknown leaf.width
  unread : leaf.readers = .empty
  unheard : leaf.subscribers = #[]

namespace Netlist

variable {g h k : Netlist} {depth : Nat}

def BundlesNamed (g : Netlist) : Prop :=
  ∀ id bundle, g.bundles.get? id = some bundle → (g.names.text? bundle.name).isSome

theorem addBundle_get (name : String) (elements : List Ref) (g : Netlist) (id : BundleId) :
    (addBundle name elements g).2.bundles.get? id = if id = g.bundles.size then
      some ⟨(g.names.intern name).1, elements⟩ else g.bundles.get? id :=
  g.bundles.get?_add id _

theorem addBundle_new (name : String) (elements : List Ref) (g : Netlist) :
    (addBundle name elements g).2.bundles.get? g.bundles.size =
      some ⟨(g.names.intern name).1, elements⟩ :=
  (addBundle_get name elements g _).trans (if_pos rfl)

theorem nameOf_addBundle (name : String) (elements : List Ref) (g : Netlist) :
    (addBundle name elements g).2.nameOf (.bundle g.bundles.size) = .ok name := by
  have text : (addBundle name elements g).2.names.text? (g.names.intern name).1 = some name :=
    g.names.text?_intern name
  simp [nameOf, bundle_ok.mpr (addBundle_new name elements g), nameText, text, bind, Except.bind]

/-- Declarations have names, and they take none away. -/
theorem declarative_bundlesNamed :
    Declarative fun g h => g.BundlesNamed → h.BundlesNamed where
  refl _ named := named
  trans first rest named := rest (first named)
  leaf name init g named id bundle found := by
    obtain ⟨text, listed⟩ := Option.isSome_iff_exists.mp (named id bundle found)
    exact Option.isSome_of_eq_some (g.names.text?_later name listed)
  bundle name elements g named id bundle found := by
    rw [addBundle_get] at found
    split at found
    · obtain rfl := Option.some.inj found
      exact Option.isSome_of_eq_some (g.names.text?_intern name)
    · obtain ⟨text, listed⟩ := Option.isSome_iff_exists.mp (named id bundle found)
      exact Option.isSome_of_eq_some (g.names.text?_later name listed)

theorem named_declares (declares : Declares g h) (named : g.Named) : h.Named := by
  intro id leaf found
  cases before : g.leaves.get? id with
  | none => exact (declares.new id leaf found before).2.2.2
  | some leaf' =>
    obtain rfl : leaf' = leaf := Option.some.inj ((declares.leaf id leaf' before).symm.trans found)
    obtain ⟨text, listed⟩ := Option.isSome_iff_exists.mp (named id leaf' before)
    exact Option.isSome_of_eq_some (declares.names _ _ listed)

/-- The leaves that one netlist has and the other has not yet. -/
def newLeaves (g h : Netlist) : List LeafId :=
  List.range' g.leaves.size (h.leaves.size - g.leaves.size)

def newBundles (g h : Netlist) : List BundleId :=
  List.range' g.bundles.size (h.bundles.size - g.bundles.size)

theorem size_le {α : Type} {a b : Numbered α}
    (last : ∀ id entry, a.get? id = some entry → b.get? id = some entry) : a.size ≤ b.size := by
  by_contra fewer
  have there : (a.get? b.size).isSome := (a.get?_isSome _).mpr (by omega)
  obtain ⟨entry, found⟩ := Option.isSome_iff_exists.mp there
  exact Nat.lt_irrefl _ (b.lt_size _ (last _ entry found))

theorem range'_between {a b c : Nat} (first : a ≤ b) (rest : b ≤ c) :
    List.range' a (b - a) ++ List.range' b (c - b) = List.range' a (c - a) := by
  have start : b = a + (b - a) := by omega
  have total : c - a = (b - a) + (c - b) := by omega
  rw [total, ← List.range'_append_1, ← start]

/-- What copying has done so far: copies, from the first declaration on, of targets with these trees. -/
structure Copies (g h : Netlist) (depth : Nat) (trees : List Tree) (copies : List Ref) : Prop where
  declares : Declares g h
  blank : ∀ id leaf, h.leaves.get? id = some leaf → g.leaves.get? id = none → leaf.Blank
  named : g.BundlesNamed → h.BundlesNamed
  trees : List.Forall₂ (fun copy tree => h.treeWithin depth copy = .ok tree) copies trees
  leaves : ∃ lists, List.Forall₂ (fun copy list => h.leavesWithin depth copy = .ok list) copies lists ∧
    lists.flatten = newLeaves g h
  bundles : ∃ lists, List.Forall₂ (fun copy list => h.bundlesWithin depth copy = .ok list) copies lists ∧
    lists.flatten = newBundles g h

section Unfolding

variable {depth' : Nat} {target : Ref}

theorem tree_last (declares : Declares g h) (le : depth ≤ depth') {tree : Tree}
    (found : g.treeWithin depth target = .ok tree) : h.treeWithin depth' target = .ok tree := by
  refine walk_last (fun id tree found => ?_) declares.bundle le found
  obtain ⟨leaf, known, same⟩ := bind_ok found
  simp only [leaf_of_get (declares.leaf id leaf (leaf_ok.mp known)), bind, Except.bind]
  exact same

theorem leaves_last (declares : Declares g h) (le : depth ≤ depth') {ids : List LeafId}
    (found : g.leavesWithin depth target = .ok ids) : h.leavesWithin depth' target = .ok ids := by
  rw [leavesWithin_walk] at found ⊢
  exact walk_last (fun _ _ found => found) declares.bundle le found

theorem bundles_last (declares : Declares g h) (le : depth ≤ depth') {ids : List BundleId}
    (found : g.bundlesWithin depth target = .ok ids) : h.bundlesWithin depth' target = .ok ids :=
  walk_last (fun _ _ found => found) declares.bundle le found

end Unfolding

theorem copies_nil (g : Netlist) (depth : Nat) : Copies g g depth [] [] where
  declares := .refl g
  blank id leaf found missing := by simp [missing] at found
  named named := named
  trees := .nil
  leaves := ⟨[], .nil, by simp [newLeaves]⟩
  bundles := ⟨[], .nil, by simp [newBundles]⟩

theorem copies_append {trees trees' : List Tree} {copies copies' : List Ref}
    (first : Copies g h depth trees copies) (rest : Copies h k depth trees' copies') :
    Copies g k depth (trees ++ trees') (copies ++ copies') where
  declares := first.declares.trans rest.declares
  blank id leaf found missing := by
    cases between : h.leaves.get? id with
    | none => exact rest.blank id leaf found between
    | some leaf' =>
      obtain rfl : leaf' = leaf :=
        Option.some.inj ((rest.declares.leaf id leaf' between).symm.trans found)
      exact first.blank id leaf' between missing
  named named := rest.named (first.named named)
  trees := List.rel_append
    (first.trees.imp fun _ _ => tree_last rest.declares (Nat.le_refl depth)) rest.trees
  leaves := by
    obtain ⟨lists, each, joined⟩ := first.leaves
    obtain ⟨lists', each', joined'⟩ := rest.leaves
    refine ⟨lists ++ lists', List.rel_append
      (each.imp fun _ _ => leaves_last rest.declares (Nat.le_refl depth)) each', ?_⟩
    rw [List.flatten_append, joined, joined']
    exact range'_between (size_le first.declares.leaf) (size_le rest.declares.leaf)
  bundles := by
    obtain ⟨lists, each, joined⟩ := first.bundles
    obtain ⟨lists', each', joined'⟩ := rest.bundles
    refine ⟨lists ++ lists', List.rel_append
      (each.imp fun _ _ => bundles_last rest.declares (Nat.le_refl depth)) each', ?_⟩
    rw [List.flatten_append, joined, joined']
    exact range'_between (size_le first.declares.bundle) (size_le rest.declares.bundle)

/-- A leaf is copied by a declaration. -/
theorem copies_leaf (g : Netlist) (depth : Nat) (name : String) (width : Nat) :
    Copies g (addUnknown name width g).2 depth [.leaf width] [.leaf g.leaves.size] := by
  have added : (addUnknown name width g).2.leaves.get? g.leaves.size =
      some ⟨(g.names.intern name).1, (Value.unknown width).width, .unknown width, .undriven, .empty,
        #[]⟩ := (addLeaf_get name (.unknown width) g _).trans (if_pos rfl)
  have wide : (Value.unknown width).width = width := by
    simp [Value.unknown, Value.fill, Value.width]
  refine
    { declares := declares_addLeaf name _ g
      blank := fun id leaf found missing => ?_
      named := declarative_bundlesNamed.leaf name _ g
      trees := .cons (tree_leaf.mpr ⟨_, added, by rw [wide]⟩) .nil
      leaves := ⟨[[g.leaves.size]], .cons (by rw [leavesWithin_walk, walk_leaf]) .nil, ?_⟩
      bundles := ⟨[[]], .cons (walk_leaf _) .nil, ?_⟩ }
  · have here : (addUnknown name width g).2.leaves.get? id = _ :=
      addLeaf_get name (.unknown width) g id
    rw [here] at found
    split at found
    · obtain rfl := Option.some.inj found
      exact ⟨rfl, by rw [wide], rfl, rfl⟩
    · rw [missing] at found
      cases found
  · have size : (addUnknown name width g).2.leaves.size = g.leaves.size + 1 :=
      g.leaves.size_add _
    simp [newLeaves, size]
  · have same : (addUnknown name width g).2.bundles = g.bundles := rfl
    simp [newBundles, same]

/-- Copies of its elements make the copy of a bundle. -/
theorem copies_bundle {trees : List Tree} {copies : List Ref} (inner : Copies g h depth trees copies)
    (name : String) : Copies g (addBundle name copies h).2 (depth + 1) [.bundle trees]
      [.bundle h.bundles.size] := by
  have declares := declares_addBundle name copies h
  have added := addBundle_new name copies h
  have same : (addBundle name copies h).2.leaves = h.leaves := rfl
  refine
    { declares := inner.declares.trans declares
      blank := fun id leaf found missing => inner.blank id leaf (same ▸ found) missing
      named := fun named => declarative_bundlesNamed.bundle name copies h (inner.named named)
      trees := .cons (walk_bundle.mpr ⟨depth, _, trees, rfl, added,
        inner.trees.imp fun _ _ => tree_last declares (Nat.le_refl depth), rfl⟩) .nil
      leaves := ?_
      bundles := ?_ }
  · obtain ⟨lists, each, joined⟩ := inner.leaves
    refine ⟨[lists.flatten], .cons ?_ .nil, by simpa [newLeaves, same] using joined⟩
    rw [leavesWithin_walk]
    refine walk_bundle.mpr ⟨depth, _, lists, rfl, added, each.imp fun copy list found => ?_, rfl⟩
    rw [← leavesWithin_walk]
    exact leaves_last declares (Nat.le_refl depth) found
  · obtain ⟨lists, each, joined⟩ := inner.bundles
    have size : (addBundle name copies h).2.bundles.size = h.bundles.size + 1 :=
      h.bundles.size_add _
    have before := size_le inner.declares.bundle
    refine ⟨[lists.flatten ++ [h.bundles.size]], .cons (walk_bundle.mpr ⟨depth, _, lists, rfl, added,
      each.imp fun _ _ => bundles_last declares (Nat.le_refl depth), rfl⟩) .nil, ?_⟩
    have next := range'_between before (Nat.le_succ h.bundles.size)
    rw [joined, newBundles, newBundles, size, List.flatten_cons, List.flatten_nil, List.append_nil,
      ← next]
    simp

theorem nameOf_ok (named : g.Named) (bundles : g.BundlesNamed) {target : Ref} {tree : Tree}
    (found : g.treeWithin depth target = .ok tree) : ∃ name, g.nameOf target = .ok name := by
  cases target with
  | leaf id =>
    obtain ⟨leaf, known, -⟩ := tree_leaf.mp found
    exact leafName_ok known (named id leaf known)
  | bundle id =>
    obtain ⟨deeper, bundle, trees, -, known, -, -⟩ := walk_bundle.mp found
    obtain ⟨name, listed⟩ := Option.isSome_iff_exists.mp (bundles id bundle known)
    exact ⟨name, by simp [nameOf, bundle_ok.mpr known, nameText, listed, bind, Except.bind]⟩

/-- A way to copy bundles under new names, as deep as they are nested. -/
def CopiesBundles (depth : Nat) (inner : BundleId → String → Edit BundleId) : Prop :=
  ∀ (g : Netlist) id tree name, g.Named → g.BundlesNamed → g.treeWithin depth (.bundle id) = .ok tree →
    ∃ copy h, inner id name g = (.ok copy, h) ∧ Copies g h depth [tree] [.bundle copy] ∧
      h.nameOf (.bundle copy) = .ok name

/-- Elements are copied one after the other. -/
theorem cloneElements_copies {inner : BundleId → String → Edit BundleId}
    (copying : CopiesBundles depth inner) (oldName newName : String) {elements : List Ref} :
    ∀ {g : Netlist} {trees : List Tree} (index : Nat), g.Named → g.BundlesNamed →
      List.Forall₂ (fun e tree => g.treeWithin depth e = .ok tree) elements trees →
      ∃ copies h, cloneElements inner oldName newName index elements g = (.ok copies, h) ∧
        Copies g h depth trees copies := by
  induction elements with
  | nil =>
    intro g trees index _ _ each
    cases each
    exact ⟨[], g, rfl, copies_nil g depth⟩
  | cons element rest ih =>
    intro g trees index named bundles each
    obtain ⟨tree, trees, here, later, rfl⟩ := List.forall₂_cons_left_iff.mp each
    obtain ⟨oldText, text⟩ := nameOf_ok named bundles here
    have asked : Edit.ask (·.nameOf element) g = (.ok oldText, g) := congrArg (·, g) text
    -- The rest is copied in the netlist that the first copy has left behind.
    have onward : ∀ {copy h}, Copies g h depth [tree] [copy] →
        ∃ copies k, cloneElements inner oldName newName (index + 1) rest h = (.ok copies, k) ∧
          Copies g k depth (tree :: trees) (copy :: copies) := by
      intro copy h first
      have still := later.imp fun _ _ => tree_last first.declares (Nat.le_refl depth)
      obtain ⟨copies, k, run, others⟩ :=
        ih (index + 1) (named_declares first.declares named) (first.named bundles) still
      exact ⟨copies, k, run, copies_append first others⟩
    rw [cloneElements, step_ok asked]
    cases element with
    | leaf id =>
      obtain ⟨leaf, known, rfl⟩ := tree_leaf.mp here
      have looked : Edit.ask (·.leaf id) g = (.ok leaf, g) := congrArg (·, g) (leaf_of_get known)
      obtain ⟨copies, k, run, copied⟩ :=
        onward (copies_leaf g depth (copyName oldName newName oldText index) leaf.width)
      have added : (liftM (addUnknown (copyName oldName newName oldText index) leaf.width) :
          Edit LeafId) g = (.ok g.leaves.size, _) := rfl
      refine ⟨_ :: copies, k, ?_, copied⟩
      exact (step_ok looked).trans ((step_ok added).trans (step_ok run))
    | bundle id =>
      obtain ⟨copy, h, done, first, -⟩ :=
        copying g id tree (copyName oldName newName oldText index) named bundles here
      obtain ⟨copies, k, run, copied⟩ := onward first
      refine ⟨_ :: copies, k, ?_, copied⟩
      exact (step_ok done).trans (step_ok run)

theorem cloneWithin_copies (depth : Nat) : CopiesBundles depth (cloneWithin depth) := by
  induction depth with
  | zero => exact fun g id tree name _ _ found => by cases found
  | succ depth ih =>
    intro g id tree name named bundles found
    obtain ⟨deeper, bundle, trees, same, known, each, rfl⟩ := walk_bundle.mp found
    obtain rfl : depth = deeper := by omega
    obtain ⟨oldName, listed⟩ := Option.isSome_iff_exists.mp (bundles id bundle known)
    have looked : Edit.ask (·.bundle id) g = (.ok bundle, g) :=
      congrArg (·, g) (bundle_ok.mpr known)
    have asked : Edit.ask (·.nameText bundle.name) g = (.ok oldName, g) :=
      congrArg (·, g) (by simp [nameText, listed])
    obtain ⟨copies, h, run, inner⟩ := cloneElements_copies ih oldName name 0 named bundles each
    refine ⟨h.bundles.size, (addBundle name copies h).2, ?_, copies_bundle inner name,
      nameOf_addBundle name copies h⟩
    rw [cloneWithin, step_ok looked, step_ok asked, step_ok run]
    rfl

end Netlist

end CombLogic
