import CombLogic.Proofs.Block.Assign

/- What one step of symbolic execution binds or builds, written down: the sized expression, or a part
   of it for each leaf, with what is bound in place of its reads. -/
namespace CombLogic

open Expr

/-- What each leaf of a target is given by an assignment of an expression that has its width. -/
def Netlist.shares (g : Netlist) (target : Ref) (e : Expr) : Option (List (LeafId × Expr)) := do
  let width ← g.declared target
  let (sized, actual) ← e.sized g.declared (some width)
  if actual ≠ width then none
  else match target with
    | .leaf leaf => return [(leaf, sized)]
    | .bundle _ => return Netlist.plainSlices sized 0 (← (g.leafWidths target).toOption)

/-- Expressions for leaves, up to node numbers, with what is bound in place of their reads. -/
def Netlist.Answers (g : Netlist) (b : Binding) (shares entries : List (LeafId × Expr)) : Prop :=
  List.Forall₂ (fun share entry => entry.1 = share.1 ∧ entry.2.shape = share.2.subst (g.held b))
    shares entries

section

variable {K L : Set Expr} {next : Nat} {g : Netlist} {b : Binding} {target : Ref} {e : Expr}
  {ps ds : List (LeafId × Expr)}

theorem shares_leaf {leaf : LeafId} : g.shares (.leaf leaf) e = some ps ↔ ∃ t width,
    g.declared (.leaf leaf) = some width ∧ e.sized g.declared (some width) = some (t, width) ∧
      ps = [(leaf, t)] := by
  simp only [Netlist.shares, Option.bind_eq_bind, Option.bind_eq_some_iff, Option.pure_def,
    Prod.exists]
  constructor
  · rintro ⟨width, declared, t, actual, sized, done⟩
    split at done
    · cases done
    · rename_i same
      obtain rfl := not_not.mp same
      exact ⟨t, actual, declared, sized, (Option.some.inj done).symm⟩
  · rintro ⟨t, width, declared, sized, rfl⟩
    exact ⟨width, declared, t, width, sized, by simp⟩

theorem shares_bundle {id : BundleId} : g.shares (.bundle id) e = some ps ↔ ∃ t parts,
    g.leafWidths (.bundle id) = .ok parts ∧ g.declared (.bundle id) = some (parts.map Prod.snd).sum ∧
      e.sized g.declared (some (parts.map Prod.snd).sum) = some (t, (parts.map Prod.snd).sum) ∧
        ps = Netlist.plainSlices t 0 parts := by
  simp only [Netlist.shares, Option.bind_eq_bind, Option.bind_eq_some_iff, Option.pure_def,
    Prod.exists]
  constructor
  · rintro ⟨width, declared, t, actual, sized, done⟩
    split at done
    · cases done
    · rename_i same
      obtain rfl := not_not.mp same
      obtain ⟨parts, widths, done⟩ := Option.bind_eq_some_iff.mp done
      have widths := of_toOption widths
      obtain rfl := Netlist.declared_total declared widths
      exact ⟨t, parts, widths, declared, sized, (Option.some.inj done).symm⟩
  · rintro ⟨t, parts, widths, declared, sized, rfl⟩
    exact ⟨_, declared, t, _, sized, by simp [widths, Except.toOption]⟩

theorem plainSlices_answers {t r : Expr} (form : r.shape = t.subst (g.held b)) (low : Nat)
    (parts : List (LeafId × Nat)) :
    g.Answers b (Netlist.plainSlices t low parts) (Netlist.plainSlices r low parts) := by
  induction parts generalizing low with
  | nil => exact .nil
  | cons part rest ih =>
    refine .cons ⟨rfl, ?_⟩ (ih _)
    unfold Netlist.piece
    split
    · rfl
    · simp only [shape, subst, form]

theorem binds_shares (binds : Binds g b e L target ds) :
    ∃ ps, g.shares target e = some ps ∧ g.Answers b ps ds := by
  cases binds with
  | leaf declared sized replaces =>
    exact ⟨_, shares_leaf.mpr ⟨_, _, declared, sized, rfl⟩, .cons ⟨rfl, replaces.2⟩ .nil⟩
  | bundle declared sized replaces widths _ alike =>
    obtain rfl := Netlist.declared_total declared widths
    refine ⟨_, shares_bundle.mpr ⟨_, _, widths, declared, sized, rfl⟩, ?_⟩
    refine (forall₂_join (plainSlices_answers replaces.2 0 _).flip alike.flip).imp ?_
    rintro share entry ⟨slice, -, ⟨same, cut⟩, same', shape⟩
    exact ⟨same'.trans same, shape.trans cut⟩

theorem get?_bindAll (ds : List (LeafId × Expr)) (leaf : LeafId) :
    (Executing.bindAll b ds).get? leaf = (ds.reverse.lookup leaf).or (b.get? leaf) := by
  induction ds generalizing b with
  | nil => rfl
  | cons d rest ih =>
    have step : Executing.bindAll b (d :: rest) = Executing.bindAll (b.insert d.1 d.2) rest := rfl
    rw [step, ih, List.reverse_cons, List.lookup_append, Option.or_assoc]
    congr 1
    rw [OrderedMap.get?_insert, List.lookup_cons, List.lookup_nil]
    by_cases same : d.1 = leaf
    · simp [same]
    · simp [same, beq_eq_false_iff_ne.mpr (Ne.symm same)]

/-- Where several entries are bound at once, the last one of a leaf counts. -/
theorem bindAll_listed {leaf : LeafId} (listed : leaf ∈ ds.map Prod.fst) :
    ∃ e, ds.reverse.lookup leaf = some e ∧ (leaf, e) ∈ ds ∧
      (Executing.bindAll b ds).get? leaf = some e := by
  obtain ⟨d, given, rfl⟩ := List.mem_map.mp listed
  have present : (ds.reverse.lookup d.1).isSome :=
    List.lookup_isSome_iff.mpr ⟨d, by simpa using given, by simp⟩
  obtain ⟨e, found⟩ := Option.isSome_iff_exists.mp present
  obtain ⟨before, later, order, -⟩ := List.lookup_eq_some_iff.mp found
  have inside : (d.1, e) ∈ ds.reverse := by simp [order]
  exact ⟨e, found, by simpa using inside, by rw [get?_bindAll, found]; rfl⟩

theorem bindAll_unlisted {leaf : LeafId} (unlisted : leaf ∉ ds.map Prod.fst) :
    (Executing.bindAll b ds).get? leaf = b.get? leaf := by
  have missing : ds.reverse.lookup leaf = none := by
    refine List.lookup_eq_none_iff.mpr fun p given => ?_
    have differ : leaf ≠ p.1 := fun same =>
      unlisted (same ▸ List.mem_map_of_mem (by simpa using given))
    simpa using differ
  rw [get?_bindAll, missing]
  rfl

end

end CombLogic
