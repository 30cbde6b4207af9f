import CombLogic.Proofs.Block.Flow
import CombLogic.Proofs.Block.Logs

/- Execution of a block with the flow analysis beside it. An entry is assigned as soon as its leaf is
   assigned on all paths; a condition is assigned where it is built, and whatever is set aside. -/
namespace CombLogic

open Expr Stmt

/-- The entries of some leaves are assigned. -/
def Binding.Settled (b : Binding) (assigned : Finset LeafId) : Prop :=
  ∀ leaf e, b.get? leaf = some e → leaf ∈ assigned → e.Assigned

section

variable {K L : Set Expr} {next : Nat} {c : ExecContext} {g : Netlist} {b after : Binding}
  {outputs assigned : Finset LeafId} {answer : Ref → Expr} {e : Expr}

theorem entry_assigned (settled : b.Settled assigned) {leaf : LeafId}
    (within : leaf ∈ b.keys → leaf ∈ assigned) : (b.entry leaf).Assigned := by
  unfold Binding.entry
  cases found : b.get? leaf with
  | some e =>
    exact settled leaf e found (within (OrderedMap.mem_keys_of_get? found))
  | none => exact all_iff.mpr ⟨rfl, by simp [children]⟩

theorem held_assigned (settled : b.Settled assigned) {target : Ref}
    (within : ∀ leaf ∈ g.leafSet target, leaf ∈ b.keys → leaf ∈ assigned) :
    (g.held b target).Assigned := by
  refine held_all (fun leaves known leaf listed => ?_) (fun _ => rfl) fun _ => rfl
  exact entry_assigned settled (within leaf (by simpa [Netlist.leafSet, known, Except.toOption]))

/-- Nothing is left unassigned in an expression that reads assigned leaves only. -/
theorem backed_clear (settled : b.Settled assigned) (known : ∀ leaf ∈ b.keys, leaf ∈ outputs)
    (written : e.Assigned) (backed : ReadsAssigned g outputs assigned e) :
    (e.subst (g.held b)).Assigned := by
  refine (subst_assigned e).mpr ⟨written, fun node target inside => ?_⟩
  exact held_assigned settled fun leaf within listed =>
    backed _ inside target rfl leaf within (known leaf listed)

theorem clear_iff : (e.subst answer).Assigned ↔
    e.All fun n => n.unassigned? = none ∧ ∀ target ∈ n.target?, (answer target).Assigned := by
  rw [subst_assigned]
  constructor
  · rintro ⟨written, answers⟩ n inside
    refine ⟨written n inside, fun target read => ?_⟩
    cases n with
    | read node target' =>
      obtain rfl := Option.some.inj read
      exact answers node target' inside
    | _ => cases read
  · exact fun every => ⟨fun n inside => (every n inside).1,
      fun node target inside => (every _ inside).2 target rfl⟩

theorem sized_clear {d : Ref → Option Nat} {t : Expr} {context : Option Nat} {width : Nat}
    (done : e.sized d context = some (t, width)) (clear : (e.subst answer).Assigned) :
    (t.subst answer).Assigned := by
  obtain ⟨w, fits⟩ := sized_fitted done
  rw [clear_iff] at clear ⊢
  refine all_fitted (by simp [unassigned?, target?]) ?_ e fits fun n inside _ => clear n inside
  intro n parent
  cases n <;> simp_all [isAtom, unassigned?, target?]

theorem replaces_assigned {t r : Expr} (replaces : Replaces (g.held b) t L r)
    (clear : (t.subst (g.held b)).Assigned) : r.Assigned :=
  assigned_alike (shape_shape r).symm (replaces.2 ▸ clear)

theorem asks_assigned {r : Expr} (asks : Asks g b e r) (clear : (e.subst (g.held b)).Assigned) :
    r.Assigned := by
  obtain ⟨t, sized, form⟩ := asks
  exact assigned_alike (shape_shape r).symm (form ▸ sized_clear sized clear)

theorem settled_insert {leaf : LeafId} (settled : b.Settled assigned) (done : e.Assigned) :
    Binding.Settled (b.insert leaf e) (insert leaf assigned) := by
  intro other f found within
  rw [OrderedMap.get?_insert] at found
  split at found
  · exact Option.some.inj found ▸ done
  · rename_i differ
    exact settled other f found ((Finset.mem_insert.mp within).resolve_left fun same =>
      differ (by simp [same]))

theorem settled_bindAll {ds : List (LeafId × Expr)} (settled : b.Settled assigned)
    (each : ∀ p ∈ ds, p.2.Assigned) :
    Binding.Settled (Executing.bindAll b ds) (assigned ∪ (ds.map Prod.fst).toFinset) := by
  induction ds generalizing b assigned with
  | nil => simpa [Executing.bindAll] using settled
  | cons p rest ih =>
    have first : Binding.Settled (b.insert p.1 p.2) (insert p.1 assigned) :=
      settled_insert settled (each p (by simp))
    have later := ih first fun q listed => each q (by simp [listed])
    rw [List.map_cons, List.toFinset_cons, Finset.union_insert, ← Finset.insert_union]
    exact later

theorem settled_mono {fewer : Finset LeafId} (settled : b.Settled assigned) (sub : fewer ⊆ assigned) :
    b.Settled fewer :=
  fun leaf e found within => settled leaf e found (sub within)

theorem plainSlices_assigned (done : e.Assigned) {low : Nat} {parts : List (LeafId × Nat)} :
    ∀ p ∈ Netlist.plainSlices e low parts, p.2.Assigned := by
  intro p listed
  obtain ⟨part, -, start, rfl⟩ := Netlist.mem_plainSlices listed
  unfold Netlist.piece
  split
  · exact all_iff.mpr ⟨rfl, by simp [children]⟩
  · exact (assigned_parent rfl).mpr (by simpa [children] using done)

theorem binds_settled {target : Ref} {ds : List (LeafId × Expr)} (settled : b.Settled assigned)
    (clear : (e.subst (g.held b)).Assigned) (binds : Binds g b e L target ds) :
    Binding.Settled (Executing.bindAll b ds) (assigned ∪ g.leafSet target) := by
  cases binds with
  | leaf _ sized replaces =>
    have done := replaces_assigned replaces (sized_clear sized clear)
    refine settled_mono (settled_insert settled done) ?_
    simp [Netlist.leafSet, Netlist.leavesOf_leaf, Except.toOption]
  | bundle _ sized replaces widths _ alike =>
    have done := replaces_assigned replaces (sized_clear sized clear)
    have pieces : ∀ p ∈ ds, p.2.Assigned := by
      intro p listed
      obtain ⟨q, inner, -, form⟩ := forall₂_left alike p listed
      exact assigned_alike form (plainSlices_assigned done q inner)
    refine settled_mono (settled_bindAll settled pieces) ?_
    rw [(Netlist.alike_leaves alike).trans (Netlist.plainSlices_leaves _ _ _), Netlist.leafSet,
      (Netlist.leafWidths_ok widths).1]
    rfl

/-- What is joined is assigned where all arms are. -/
theorem joins_settled {arms : List (Expr × Binding)} {fallback : Binding}
    (joins : Joins arms fallback b.keys b L after)
    (each : ∀ p ∈ arms, p.1.Assigned ∧ p.2.Settled assigned) (last : fallback.Settled assigned) :
    after.Settled assigned := by
  intro leaf e found within
  have listed : leaf ∈ b.keys := joins.keys ▸ OrderedMap.mem_keys_of_get? found
  refine (joins.joined leaf listed e found).assigned (fun p inside => ?_)
    (entry_assigned last fun _ => within)
  exact ⟨(each p inside).1, entry_assigned (each p inside).2 fun _ => within⟩

theorem spelled_assigned {wildcard : Bool} {t : Expr} {patterns : List Expr}
    (spelled : Spelled g b wildcard t patterns e) (selector : (t.subst (g.held b)).Assigned)
    (each : ∀ pattern ∈ patterns, (pattern.subst (g.held b)).Assigned) : e.Assigned := by
  obtain ⟨rs, stand, assigned, -⟩ := spelled
  refine assigned.mpr fun r listed => ?_
  obtain ⟨pattern, given, m, width, sized, form⟩ := forall₂_right stand r listed
  have asked : ((Expr.caseMatch 0 t pattern wildcard).subst (g.held b)).Assigned :=
    (assigned_parent rfl).mpr (by simpa [subst, children] using ⟨selector, each pattern given⟩)
  exact assigned_alike (shape_shape r).symm (form ▸ sized_clear sized asked)

theorem watchCase_assigned {path found : List Expr} {kind : CaseKind} {name : String}
    (above : ∀ e ∈ path, Fit K e) (fits : ∀ e ∈ found, Fit K e) (reached : ∀ e ∈ path, e.Assigned)
    (bits : ∀ e ∈ found, e.Assigned) : Logs K (Executing.watchCase c path kind name found) fun _ new =>
      ∀ w ∈ new, w.2.Assigned := by
  rw [watchCase_eq]
  split
  · refine logs_step (yields_build (conflictOf_makes above fits)) (quiet_build _) ?_
    rintro L _ e _ _ ⟨-, m, n, needs⟩
    refine logs_weaken (logs_watch name e) ?_
    rintro _ _ rfl w listed
    obtain rfl := List.mem_singleton.mp listed
    refine needs.assigned.mpr fun p inside => ?_
    rcases List.mem_append.mp inside with guard | several
    · obtain ⟨e, given, rfl⟩ := List.mem_map.mp guard
      exact reached e given
    · obtain rfl := List.mem_singleton.mp several
      exact assigned_unary.mpr (assigned_concat.mpr bits)
  · refine logs_weaken (logs_quiet (quiet_pure ())) ?_
    rintro _ _ rfl
    simp

theorem itemsAssign_subset {items : List CaseItem} {otherwise : Finset LeafId} :
    itemsAssign g items assigned otherwise ⊆ otherwise ∧
      ∀ item ∈ items, itemsAssign g items assigned otherwise ⊆ bodyAssigns g item.body assigned := by
  induction items with
  | nil => simp [itemsAssign]
  | cons item rest ih =>
    obtain ⟨patterns, body⟩ := item
    simp only [itemsAssign]
    refine ⟨Finset.inter_subset_right.trans ih.1, fun other listed => ?_⟩
    rcases List.mem_cons.mp listed with rfl | later
    · exact Finset.inter_subset_left
    · exact Finset.inter_subset_right.trans (ih.2 other later)

end

end CombLogic
