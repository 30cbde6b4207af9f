import CombLogic.Proofs.Netlist.Widths
import CombLogic.Proofs.Recomputation

/- Where the parts of a target lie in its value. The leaves of a bundle are those of its elements one
   after the other, at every depth, and its value holds theirs in this order from the lowest bit up. -/
namespace CombLogic

open Expr

namespace Value

theorem width_concatLowFirst (vs : List Value) :
    (concatLowFirst vs).width = (vs.map width).sum := by
  simp only [concatLowFirst, width, List.length_flatMap]
  rfl

theorem bits_concatLowFirst (vs ws : List Value) :
    (concatLowFirst (vs ++ ws)).bits = (concatLowFirst vs).bits ++ (concatLowFirst ws).bits := by
  simp [concatLowFirst]

/-- A middle part of joined values is what comes out between the bits before it and those after. -/
theorem bits_between (before inside after : List Value) :
    ((concatLowFirst (before ++ inside ++ after)).bits.drop (before.map width).sum).take
      (inside.map width).sum = (concatLowFirst inside).bits := by
  rw [← width_concatLowFirst, ← width_concatLowFirst, List.append_assoc, bits_concatLowFirst,
    bits_concatLowFirst]
  simp [width]

end Value

namespace Netlist

variable {g : Netlist} {target : Ref} {parts : List (LeafId × Nat)}

theorem bundle_ok {id : BundleId} {bundle : Bundle} :
    g.bundle id = .ok bundle ↔ g.bundles.get? id = some bundle := by
  unfold Netlist.bundle
  cases g.bundles.get? id <;> simp

/-- A walk that goes as deep as is allowed may be allowed to go deeper, and there may be more bundles. -/
theorem leavesWithin_mono {h : Netlist} {depth depth' : Nat} {leaves : List LeafId}
    (last : ∀ id bundle, g.bundles.get? id = some bundle → h.bundles.get? id = some bundle)
    (le : depth ≤ depth') (found : g.leavesWithin depth target = .ok leaves) :
    h.leavesWithin depth' target = .ok leaves := by
  induction depth generalizing depth' target leaves with
  | zero =>
    cases target with
    | leaf id => simpa [leavesWithin] using found
    | bundle id => cases found
  | succ depth ih =>
    cases target with
    | leaf id => simpa [leavesWithin] using found
    | bundle id =>
      obtain ⟨deeper, rfl⟩ := Nat.exists_eq_add_of_lt le
      obtain ⟨bundle, known, found⟩ := bind_ok found
      obtain ⟨lists, each, joined⟩ := bind_ok found
      have within : depth ≤ depth + deeper := Nat.le_add_right depth deeper
      have still := ok_mapM ((mapM_ok each).imp fun _ _ => ih within)
      rw [leavesWithin, bundle_ok.mpr (last id bundle (bundle_ok.mp known))]
      simp only [bind, Except.bind, still]
      exact joined

theorem leavesWithin_congr {h : Netlist} (bundles : h.bundles = g.bundles) (depth : Nat)
    (target : Ref) : h.leavesWithin depth target = g.leavesWithin depth target := by
  induction depth generalizing target with
  | zero => cases target <;> rfl
  | succ depth ih =>
    cases target with
    | leaf id => simp [leavesWithin]
    | bundle id =>
      have each : h.leavesWithin depth = g.leavesWithin depth := funext ih
      simp only [leavesWithin, Netlist.bundle, bundles, each]

theorem leavesOf_congr {h : Netlist} (bundles : h.bundles = g.bundles) (target : Ref) :
    h.leavesOf target = g.leavesOf target := by
  simp only [leavesOf, bundles, leavesWithin_congr bundles]

/-- A leaf with its width, which counts only for a leaf that is there. -/
def measured (g : Netlist) (id : LeafId) : LeafId × Nat :=
  (id, ((g.leaves.get? id).map Leaf.width).getD 0)

theorem hasWidth_iff {part : LeafId × Nat} :
    g.HasWidth part ↔ (g.leaves.get? part.1).isSome ∧ g.measured part.1 = part := by
  obtain ⟨id, width⟩ := part
  unfold HasWidth measured
  cases g.leaves.get? id <;> simp

theorem map_measured {ids : List LeafId} : (ids.map g.measured).map Prod.fst = ids := by
  rw [List.map_map]
  exact List.map_id ids

theorem hasWidth_measured (each : ∀ part ∈ parts, g.HasWidth part) :
    (parts.map Prod.fst).map g.measured = parts := by
  rw [List.map_map]
  exact (List.map_congr_left fun part listed => (hasWidth_iff.mp (each part listed)).2).trans
    (List.map_id parts)

theorem leafWidths_of (leaves : g.leavesOf target = .ok (parts.map Prod.fst))
    (each : ∀ part ∈ parts, g.HasWidth part) : g.leafWidths target = .ok parts := by
  unfold leafWidths
  simp only [bind, Except.bind, leaves]
  refine ok_mapM ?_
  rw [List.forall₂_map_left_iff]
  refine List.forall₂_same.mpr fun part listed => ?_
  obtain ⟨leaf, found, width⟩ := each part listed
  simp [leaf_of_get found, width, pure, Except.pure]

/-- The leaves of a bundle are those of its elements. -/
theorem leafWidths_bundle {id : BundleId} (found : g.leafWidths (.bundle id) = .ok parts) :
    ∃ bundle lists, g.bundle id = .ok bundle ∧
      List.Forall₂ (fun e ps => g.leafWidths e = .ok ps) bundle.elements lists ∧
        parts = lists.flatten := by
  obtain ⟨leaves, each⟩ := leafWidths_ok found
  unfold leavesOf at leaves
  cases size : g.bundles.size with
  | zero => simp [size, leavesWithin] at leaves
  | succ depth =>
    rw [size] at leaves
    obtain ⟨bundle, known, leaves⟩ := bind_ok leaves
    obtain ⟨lists, within, joined⟩ := bind_ok leaves
    have joined : lists.flatten = parts.map Prod.fst := Except.ok.inj joined
    have whole : (lists.map (List.map g.measured)).flatten = parts := by
      rw [← List.map_flatten, joined, hasWidth_measured each]
    refine ⟨bundle, lists.map (List.map g.measured), known, ?_, whole.symm⟩
    rw [List.forall₂_map_right_iff]
    have listed := (List.forall₂_and_left _ _).mpr ⟨fun ids member => member, (mapM_ok within).flip⟩
    refine listed.flip.imp fun e ids both => leafWidths_of ?_ fun part member => each part ?_
    · rw [map_measured, leavesOf, size]
      exact leavesWithin_mono (fun _ _ known => known) (Nat.le_succ depth) both.2
    · exact whole ▸ List.mem_flatten.mpr ⟨_, List.mem_map_of_mem both.1, member⟩

/-- Answers for all members of a list. -/
theorem forall₂_found {α β : Type} {R : α → β → Prop} {as : List α}
    (each : ∀ a ∈ as, ∃ b, R a b) : ∃ bs, List.Forall₂ R as bs := by
  induction as with
  | nil => exact ⟨[], .nil⟩
  | cons a rest ih =>
    obtain ⟨b, here⟩ := each a (by simp)
    obtain ⟨bs, later⟩ := ih fun a' member => each a' (by simp [member])
    exact ⟨b :: bs, .cons here later⟩

/-- A target that is there with everything inside it, to whatever depth. -/
inductive Nested (g : Netlist) : Ref → Prop where
  | leaf {id : LeafId} (there : (g.leaves.get? id).isSome) : Nested g (.leaf id)
  | bundle {id : BundleId} {bundle : Bundle} (known : g.bundles.get? id = some bundle)
      (each : ∀ e ∈ bundle.elements, Nested g e) : Nested g (.bundle id)

def ElementOf (g : Netlist) (inner outer : Ref) : Prop :=
  ∃ id bundle, outer = .bundle id ∧ g.bundles.get? id = some bundle ∧ inner ∈ bundle.elements

theorem acc_irrefl {α : Type} {R : α → α → Prop} {a : α} (acc : Acc R a) : ¬R a a := by
  induction acc with
  | intro a _ ih => exact fun self => ih a self self

theorem nested_outside (nested : g.Nested target) :
    ¬Relation.TransGen g.ElementOf target target := by
  have acc : Acc g.ElementOf target := by
    induction nested with
    | leaf there =>
      refine Acc.intro _ fun inner inside => ?_
      obtain ⟨id, bundle, outer, known, listed⟩ := inside
      cases outer
    | bundle known _ ih =>
      refine Acc.intro _ fun inner inside => ?_
      obtain ⟨id', bundle', outer, known', listed⟩ := inside
      cases outer
      obtain rfl := Option.some.inj (known.symm.trans known')
      exact ih inner listed
  exact acc_irrefl acc.transGen

/-- Bundles that contain one another are all different, so no walk down goes deeper than their
    number. -/
theorem nested_within (nested : g.Nested target) {depth : Nat} {above : List BundleId}
    (once : above.Nodup) (outer : ∀ id ∈ above, id < g.bundles.size ∧
      Relation.TransGen g.ElementOf target (.bundle id))
    (enough : g.bundles.size ≤ depth + above.length) :
    ∃ leaves, g.leavesWithin depth target = .ok leaves ∧
      ∀ id ∈ leaves, (g.leaves.get? id).isSome := by
  induction nested generalizing depth above with
  | @leaf id there => exact ⟨[id], by simp [leavesWithin], by simpa using there⟩
  | @bundle id bundle known each ih =>
    have apart : id ∉ above := fun listed =>
      nested_outside (.bundle known each) (outer id listed).2
    have once' : (id :: above).Nodup := List.nodup_cons.mpr ⟨apart, once⟩
    have there : id < g.bundles.size := g.bundles.lt_size id known
    have few : (id :: above).length ≤ g.bundles.size := by
      have inside : id :: above ⊆ List.range g.bundles.size := by
        intro other listed
        rcases List.mem_cons.mp listed with rfl | listed
        · exact List.mem_range.mpr there
        · exact List.mem_range.mpr (outer other listed).1
      simpa using once'.length_le_of_subset inside
    obtain ⟨depth, rfl⟩ : ∃ deeper, depth = deeper + 1 :=
      Nat.exists_eq_add_one.mpr (by simp at few; omega)
    have walk : ∀ e ∈ bundle.elements, ∃ leaves, g.leavesWithin depth e = .ok leaves ∧
        ∀ id ∈ leaves, (g.leaves.get? id).isSome := fun e listed => by
      have up : g.ElementOf e (.bundle id) := ⟨id, bundle, rfl, known, listed⟩
      refine ih e listed once' (fun other member => ?_) (by simp; omega)
      rcases List.mem_cons.mp member with rfl | member
      · exact ⟨there, .single up⟩
      · exact ⟨(outer other member).1, .head up (outer other member).2⟩
    obtain ⟨lists, found⟩ := forall₂_found walk
    have bundled := bundle_ok.mpr known
    refine ⟨lists.flatten, ?_, fun leaf listed => ?_⟩
    · simp only [leavesWithin, bundled, bind, Except.bind, ok_mapM (found.imp fun _ _ both => both.1)]
      rfl
    · obtain ⟨leaves, member, inside⟩ := List.mem_flatten.mp listed
      obtain ⟨e, -, here⟩ := forall₂_right found leaves member
      exact here.2 leaf inside

theorem nested_of_leaves {depth : Nat} {leaves : List LeafId}
    (found : g.leavesWithin depth target = .ok leaves)
    (there : ∀ id ∈ leaves, (g.leaves.get? id).isSome) : g.Nested target := by
  induction depth generalizing target leaves with
  | zero =>
    cases target with
    | leaf id =>
      cases found
      exact .leaf (there id (by simp))
    | bundle => cases found
  | succ depth ih =>
    cases target with
    | leaf id =>
      cases found
      exact .leaf (there id (by simp))
    | bundle id =>
      obtain ⟨bundle, known, found⟩ := bind_ok found
      obtain ⟨lists, each, joined⟩ := bind_ok found
      cases joined
      refine .bundle (bundle_ok.mp known) fun e listed => ?_
      obtain ⟨ids, member, here⟩ := forall₂_left (mapM_ok each) e listed
      exact ih here fun id inside => there id (List.mem_flatten.mpr ⟨ids, member, inside⟩)

/-- The leaves that are found with their widths are those of nested targets. -/
theorem nested_iff : g.Nested target ↔ ∃ parts, g.leafWidths target = .ok parts := by
  constructor
  · intro nested
    obtain ⟨leaves, found, there⟩ := nested_within nested List.nodup_nil (by simp)
      (Nat.le_refl g.bundles.size)
    refine ⟨leaves.map g.measured, leafWidths_of ?_ fun part listed => ?_⟩
    · rw [map_measured]
      exact found
    · obtain ⟨id, member, rfl⟩ := List.mem_map.mp listed
      exact hasWidth_iff.mpr ⟨there id member, rfl⟩
  · rintro ⟨parts, found⟩
    obtain ⟨leaves, each⟩ := leafWidths_ok found
    refine nested_of_leaves leaves fun id listed => ?_
    obtain ⟨part, member, rfl⟩ := List.mem_map.mp listed
    exact (hasWidth_iff.mp (each part member)).1

/-- Where all leaves are there, the width is theirs together. -/
theorem widthWithin_of {depth : Nat} {leaves : List LeafId}
    (found : g.leavesWithin depth target = .ok leaves)
    (there : ∀ id ∈ leaves, (g.leaves.get? id).isSome) :
    ∃ total, g.widthWithin depth target = .ok total := by
  have single : ∀ id, (g.leaves.get? id).isSome →
      ∃ total, (do return (← g.leaf id).width : Except NetlistError Nat) = .ok total := by
    intro id here
    obtain ⟨leaf, here⟩ := Option.isSome_iff_exists.mp here
    exact ⟨leaf.width, by simp [leaf_of_get here, pure, Except.pure, bind, Except.bind]⟩
  induction depth generalizing target leaves with
  | zero =>
    cases target with
    | leaf id =>
      cases found
      exact single id (there id (by simp))
    | bundle => cases found
  | succ depth ih =>
    cases target with
    | leaf id =>
      cases found
      exact single id (there id (by simp))
    | bundle id =>
      obtain ⟨bundle, known, found⟩ := bind_ok found
      obtain ⟨lists, each, joined⟩ := bind_ok found
      cases joined
      obtain ⟨ws, widths⟩ : ∃ ws, List.Forall₂ (fun e w => g.widthWithin depth e = .ok w)
          bundle.elements ws := forall₂_found fun e listed => by
        obtain ⟨ids, member, within⟩ := forall₂_left (mapM_ok each) e listed
        exact ih within fun id inside => there id (List.mem_flatten.mpr ⟨ids, member, inside⟩)
      exact ⟨_, by simp only [widthWithin, known, bind, Except.bind, ok_mapM widths]; rfl⟩

theorem widthOf_of (found : g.leafWidths target = .ok parts) :
    g.widthOf target = .ok (parts.map Prod.snd).sum := by
  obtain ⟨leaves, each⟩ := leafWidths_ok found
  obtain ⟨total, width⟩ := widthWithin_of leaves fun id listed => by
    obtain ⟨part, given, rfl⟩ := List.mem_map.mp listed
    obtain ⟨leaf, here, -⟩ := each part given
    simp [here]
  rw [totalWidth_unique each (totalWidth_within leaves width)]
  exact width

/-- The values of leaves, in their order. -/
def Values (g : Netlist) (ids : List LeafId) (vs : List Value) : Prop :=
  List.Forall₂ (fun id v => g.value id = .ok v) ids vs

theorem values_of (each : ∀ part ∈ parts, g.HasWidth part) :
    ∃ vs, g.Values (parts.map Prod.fst) vs := by
  refine forall₂_found fun id listed => ?_
  obtain ⟨part, member, rfl⟩ := List.mem_map.mp listed
  obtain ⟨leaf, found, -⟩ := each part member
  exact ⟨leaf.value, value_ok found⟩

theorem read_values {ids : List LeafId} {vs : List Value} (leaves : g.leavesOf target = .ok ids)
    (values : g.Values ids vs) : g.read target = .ok (.concatLowFirst vs) := by
  cases target with
  | leaf id =>
    obtain rfl : [id] = ids := Except.ok.inj (leavesOf_leaf.symm.trans leaves)
    obtain ⟨v, rest, here, none, rfl⟩ := List.forall₂_cons_left_iff.mp values
    cases none
    simp [read, here, Value.concatLowFirst]
  | bundle id =>
    simp only [read, bind, Except.bind, leaves, ok_mapM values]
    rfl

theorem values_append {ids later : List LeafId} {vs : List Value}
    (values : g.Values (ids ++ later) vs) :
    ∃ first rest, vs = first ++ rest ∧ g.Values ids first ∧ g.Values later rest := by
  induction ids generalizing vs with
  | nil => exact ⟨[], vs, rfl, .nil, values⟩
  | cons id ids ih =>
    obtain ⟨v, vs, here, tail, rfl⟩ := List.forall₂_cons_left_iff.mp values
    obtain ⟨first, rest, rfl, before, after⟩ := ih tail
    exact ⟨v :: first, rest, rfl, .cons here before, after⟩

theorem values_width (fits : g.Fits) {vs : List Value} (each : ∀ part ∈ parts, g.HasWidth part)
    (values : g.Values (parts.map Prod.fst) vs) : vs.map Value.width = parts.map Prod.snd := by
  induction parts generalizing vs with
  | nil =>
    cases values
    rfl
  | cons part rest ih =>
    obtain ⟨v, vs, here, later, rfl⟩ := List.forall₂_cons_left_iff.mp values
    obtain ⟨leaf, found, width⟩ := each part (by simp)
    obtain rfl : leaf.value = v := Except.ok.inj ((value_ok found).symm.trans here)
    simp [fits part.1 leaf found, width, ih (fun p member => each p (by simp [member])) later]

/-- The leaves of a target before those of the part to which a path leads. -/
def leavesBefore (g : Netlist) : Ref → List Nat → Except NetlistError (List LeafId)
  | .bundle id, index :: path => do
    let bundle ← g.bundle id
    let earlier ← (bundle.elements.take index).mapM g.leavesOf
    match bundle.elements[index]? with
    | some next => return earlier.flatten ++ (← g.leavesBefore next path)
    | none => return earlier.flatten
  | _, _ => return []

theorem forall₂_split {α β : Type} {R : α → β → Prop} {as : List α} {bs : List β}
    (each : List.Forall₂ R as bs) {index : Nat} {a : α} (here : as[index]? = some a) :
    ∃ first b rest, bs = first ++ b :: rest ∧ List.Forall₂ R (as.take index) first ∧ R a b := by
  induction each generalizing index with
  | nil => simp at here
  | @cons a' b' as bs head tail ih =>
    cases index with
    | zero =>
      obtain rfl : a' = a := by simpa using here
      exact ⟨[], b', bs, rfl, .nil, head⟩
    | succ index =>
      obtain ⟨first, b, rest, rfl, earlier, found⟩ := ih (by simpa using here)
      exact ⟨b' :: first, b, rest, rfl, .cons head earlier, found⟩

/-- The leaves of a part stand together in the target, behind those of all that comes before it. -/
theorem follow_within {path : List Nat} {part : Ref} (found : g.leafWidths target = .ok parts)
    (followed : g.follow target path = .ok (some part)) :
    ∃ before inside after, parts = before ++ inside ++ after ∧
      g.leavesBefore target path = .ok (before.map Prod.fst) ∧ g.leafWidths part = .ok inside := by
  induction path generalizing target parts with
  | nil =>
    obtain rfl : target = part := by simpa [follow, pure, Except.pure] using followed
    exact ⟨[], parts, [], by simp, by cases target <;> rfl, found⟩
  | cons index path ih =>
    cases target with
    | leaf id => simp [follow, pure, Except.pure] at followed
    | bundle id =>
      obtain ⟨bundle, lists, known, each, rfl⟩ := leafWidths_bundle found
      obtain ⟨next, asked, followed⟩ := bind_ok followed
      obtain ⟨bundle', known', indexed⟩ := bind_ok asked
      obtain rfl : bundle = bundle' := Except.ok.inj (known.symm.trans known')
      cases next with
      | none => cases followed
      | some next =>
        have indexed : bundle.elements[index]? = some next := Except.ok.inj indexed
        obtain ⟨first, inner, rest, rfl, earlier, here⟩ := forall₂_split each indexed
        obtain ⟨before, inside, after, rfl, deeper, reached⟩ := ih here followed
        refine ⟨first.flatten ++ before, inside, after ++ rest.flatten, by simp, ?_, reached⟩
        have leaves : (bundle.elements.take index).mapM g.leavesOf =
            .ok (first.map (List.map Prod.fst)) := by
          refine ok_mapM ?_
          rw [List.forall₂_map_right_iff]
          exact earlier.imp fun e ps widths => (leafWidths_ok widths).1
        simp only [leavesBefore, known, leaves, indexed, deeper, bind, Except.bind]
        simp [List.map_flatten, pure, Except.pure]

end Netlist

end CombLogic
