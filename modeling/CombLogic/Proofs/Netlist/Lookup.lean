import Mathlib.Algebra.GroupWithZero.Nat
import Mathlib.Data.List.Forall2
import CombLogic.Netlist.Connect
import CombLogic.Proofs.Collections
import CombLogic.Proofs.Sizing.Plain

/- What successful lookups in a netlist say. -/
namespace CombLogic

section Except

variable {ε α β : Type}

theorem bind_ok {x : Except ε α} {f : α → Except ε β} {b : β} (done : (x >>= f) = .ok b) :
    ∃ a, x = .ok a ∧ f a = .ok b := by
  cases x with
  | error => cases done
  | ok a => exact ⟨a, rfl, done⟩

theorem map_ok {x : Except ε α} {f : α → β} {b : β} (done : x.map f = .ok b) :
    ∃ a, x = .ok a ∧ f a = b := by
  cases x with
  | error => cases done
  | ok a => exact ⟨a, rfl, Except.ok.inj done⟩

theorem bind_error {x : Except ε α} {f : α → Except ε β} {e : ε} (failed : (x >>= f) = .error e) :
    x = .error e ∨ ∃ a, x = .ok a ∧ f a = .error e := by
  cases x with
  | error => exact .inl (congrArg Except.error (Except.error.inj failed))
  | ok a => exact .inr ⟨a, rfl, failed⟩

theorem mapM_ok {f : α → Except ε β} {as : List α} {bs : List β} (done : as.mapM f = .ok bs) :
    List.Forall₂ (fun a b => f a = .ok b) as bs := by
  induction as generalizing bs with
  | nil =>
    cases done
    exact .nil
  | cons a rest ih =>
    rw [List.mapM_cons] at done
    obtain ⟨b, here, done⟩ := bind_ok done
    obtain ⟨bs', later, done⟩ := bind_ok done
    cases done
    exact .cons here (ih later)

theorem ok_mapM {f : α → Except ε β} {as : List α} {bs : List β}
    (each : List.Forall₂ (fun a b => f a = .ok b) as bs) : as.mapM f = .ok bs := by
  induction each with
  | nil => rfl
  | cons here _ ih =>
    rw [List.mapM_cons, here, ih]
    rfl

theorem run_of_toOption {σ : Type} {r : Except ε α × σ} {a : α} (done : r.1.toOption = some a) :
    r = (.ok a, r.2) := by
  obtain ⟨result, s⟩ := r
  cases result with
  | error x => cases done
  | ok b => exact congrArg (fun c => (Except.ok c, s)) (Option.some.inj done)

end Except

section Edits

variable {ε σ α β : Type} {m : ExceptT ε (StateM σ) α} {f : α → ExceptT ε (StateM σ) β} {s s' : σ}

theorem step_ok {a : α} (run : m s = (.ok a, s')) : (m >>= f) s = f a s' := by
  simp only [bind, ExceptT.bind, ExceptT.mk, StateT.bind, run]
  rfl

theorem step_error {e : ε} (run : m s = (.error e, s')) : (m >>= f) s = (.error e, s') := by
  simp only [bind, ExceptT.bind, ExceptT.mk, StateT.bind, run]
  rfl

end Edits

theorem driver?_eq_some {drive : Drive} {e : Expr} :
    drive.driver? = some e ↔ drive = .driven e := by
  cases drive <;> simp [Drive.driver?]

namespace Netlist

variable {g : Netlist} {id : LeafId}

theorem leaf_ok {leaf : Leaf} : g.leaf id = .ok leaf ↔ g.leaves.get? id = some leaf := by
  unfold Netlist.leaf
  cases g.leaves.get? id <;> simp

theorem leaf_of_get {leaf : Leaf} (found : g.leaves.get? id = some leaf) : g.leaf id = .ok leaf :=
  leaf_ok.mpr found

theorem value_ok {leaf : Leaf} (found : g.leaves.get? id = some leaf) :
    g.value id = .ok leaf.value := by
  simp [value, leaf_of_get found, bind, Except.bind, pure, Except.pure]

theorem value_found {v : Value} (done : g.value id = .ok v) :
    ∃ leaf, g.leaves.get? id = some leaf ∧ leaf.value = v := by
  obtain ⟨leaf, found, done⟩ := bind_ok done
  exact ⟨leaf, leaf_ok.mp found, Except.ok.inj done⟩

theorem declared_get : g.declared (.leaf id) = (g.leaves.get? id).map (·.width) := by
  simp only [declared, widthOf, widthWithin, Netlist.leaf]
  cases g.leaves.get? id <;> rfl

theorem addLeaf_get (name : String) (init : Value) (g : Netlist) (id : LeafId) :
    (addLeaf name init g).2.leaves.get? id = if id = g.leaves.size then
      some ⟨(g.names.intern name).1, init.width, init, .undriven, .empty, #[]⟩
      else g.leaves.get? id :=
  g.leaves.get?_add id _

theorem leafName_ok {leaf : Leaf} (found : g.leaves.get? id = some leaf)
    (named : (g.names.text? leaf.name).isSome) : ∃ name, g.leafName id = .ok name := by
  obtain ⟨name, listed⟩ := Option.isSome_iff_exists.mp named
  refine ⟨name, ?_⟩
  simp [leafName, leaf_of_get found, nameText, listed, bind, Except.bind]

theorem leavesOf_leaf : g.leavesOf (.leaf id) = .ok [id] := by simp [leavesOf, leavesWithin]

/-- A leaf to which nothing gives a value yet. -/
def Free (g : Netlist) (id : LeafId) : Prop :=
  ∃ leaf, g.leaves.get? id = some leaf ∧ (leaf.drive = .undriven ∧ id ∉ g.staged.keys)

theorem isTaken_false : g.isTaken id = .ok false ↔ g.Free id := by
  unfold isTaken Free Netlist.leaf
  cases g.leaves.get? id with
  | none => simp [bind, Except.bind]
  | some leaf =>
    cases drive : leaf.drive with
    | undriven =>
      simp only [bind, Except.bind, drive, pure, Except.pure, Except.ok.injEq, Option.some.injEq,
        exists_eq_left', true_and, ← OrderedMap.contains_iff, Bool.not_eq_true]
    | root | driven => simp [bind, Except.bind, drive, pure, Except.pure]

instance (g : Netlist) (id : LeafId) : Decidable (g.Free id) :=
  match taken : g.isTaken id with
  | .ok false => isTrue (isTaken_false.mp taken)
  | .ok true | .error _ => isFalse fun free => by cases (isTaken_false.mpr free).symm.trans taken

theorem requireFree_ok (done : g.requireFree id = .ok ()) : g.Free id := by
  obtain ⟨taken, found, done⟩ := bind_ok done
  cases taken with
  | false => exact isTaken_false.mp found
  | true =>
    obtain ⟨name, -, done⟩ := bind_ok done
    cases done

theorem requireFree_free (free : g.Free id) : g.requireFree id = .ok () := by
  simp [requireFree, isTaken_false.mpr free, bind, Except.bind, pure, Except.pure]

/-- A leaf with its declared width. -/
def HasWidth (g : Netlist) (part : LeafId × Nat) : Prop :=
  ∃ leaf, g.leaves.get? part.1 = some leaf ∧ leaf.width = part.2

/-- A leaf has one width. -/
theorem hasWidth_unique {p q : LeafId × Nat} (one : g.HasWidth p) (two : g.HasWidth q)
    (same : p.1 = q.1) : p.2 = q.2 := by
  obtain ⟨leaf, found, width⟩ := one
  obtain ⟨leaf', found', width'⟩ := two
  obtain rfl : leaf = leaf' := Option.some.inj (found.symm.trans (same ▸ found'))
  exact width.symm.trans width'

theorem hasWidth_fst {parts : List (LeafId × Nat)} {ids : List LeafId}
    (each : List.Forall₂ (fun id part => (do return (id, (← g.leaf id).width)) = Except.ok part)
      ids parts) : parts.map Prod.fst = ids ∧ ∀ part ∈ parts, g.HasWidth part := by
  induction each with
  | nil => simp
  | cons here _ ih =>
    obtain ⟨leaf, found, done⟩ := bind_ok here
    cases done
    refine ⟨by simp [ih.1], ?_⟩
    simpa using ⟨⟨leaf, leaf_ok.mp found, rfl⟩, fun a b => ih.2 (a, b)⟩

theorem leafWidths_ok {target : Ref} {parts : List (LeafId × Nat)}
    (done : g.leafWidths target = .ok parts) :
    g.leavesOf target = .ok (parts.map Prod.fst) ∧ ∀ part ∈ parts, g.HasWidth part := by
  obtain ⟨ids, found, done⟩ := bind_ok done
  obtain ⟨same, each⟩ := hasWidth_fst (mapM_ok done)
  exact ⟨same ▸ found, each⟩

/-- Leaves with the sum of their widths. -/
def TotalWidth (g : Netlist) (ids : List LeafId) (total : Nat) : Prop :=
  ∃ parts : List (LeafId × Nat), parts.map Prod.fst = ids ∧ (∀ part ∈ parts, g.HasWidth part) ∧
    (parts.map Prod.snd).sum = total

theorem totalWidth_flatten {depth : Nat}
    (deeper : ∀ {target ids total}, g.leavesWithin depth target = .ok ids →
      g.widthWithin depth target = .ok total → g.TotalWidth ids total) {elements : List Ref}
    {lists : List (List LeafId)} {widths : List Nat}
    (leaves : List.Forall₂ (fun t ids => g.leavesWithin depth t = .ok ids) elements lists)
    (totals : List.Forall₂ (fun t w => g.widthWithin depth t = .ok w) elements widths) :
    g.TotalWidth lists.flatten widths.sum := by
  induction leaves generalizing widths with
  | nil =>
    cases totals
    exact ⟨[], by simp⟩
  | cons here _ ih =>
    cases totals with
    | cons there later =>
      obtain ⟨first, rfl, each, rfl⟩ := deeper here there
      obtain ⟨rest, same, each', sum⟩ := ih later
      refine ⟨first ++ rest, by simp [same], ?_, by simp [sum]⟩
      intro part member
      rcases List.mem_append.mp member with member | member
      · exact each part member
      · exact each' part member

theorem totalWidth_within {depth : Nat} {target : Ref} {ids : List LeafId} {total : Nat}
    (leaves : g.leavesWithin depth target = .ok ids)
    (width : g.widthWithin depth target = .ok total) : g.TotalWidth ids total := by
  have single : ∀ leaf : LeafId, ∀ w, (do return (← g.leaf leaf).width) = Except.ok w →
      g.TotalWidth [leaf] w := by
    intro leaf w done
    obtain ⟨entry, found, done⟩ := bind_ok done
    cases done
    exact ⟨[(leaf, entry.width)], rfl, by simpa using ⟨entry, leaf_ok.mp found, rfl⟩, by simp⟩
  induction depth generalizing target ids total with
  | zero =>
    cases target with
    | leaf leaf =>
      cases leaves
      exact single leaf total width
    | bundle => cases leaves
  | succ depth ih =>
    cases target with
    | leaf leaf =>
      cases leaves
      exact single leaf total width
    | bundle id =>
      obtain ⟨bundle, found, leaves⟩ := bind_ok leaves
      obtain ⟨lists, each, leaves⟩ := bind_ok leaves
      cases leaves
      obtain ⟨bundle', found', width⟩ := bind_ok width
      obtain rfl : bundle = bundle' := by simpa [found] using found'
      obtain ⟨widths, sums, width⟩ := bind_ok width
      cases width
      exact totalWidth_flatten ih (mapM_ok each) (mapM_ok sums)

/-- Leaves have one total width. -/
theorem totalWidth_unique {parts : List (LeafId × Nat)} {total : Nat}
    (each : ∀ part ∈ parts, g.HasWidth part) (sum : g.TotalWidth (parts.map Prod.fst) total) :
    (parts.map Prod.snd).sum = total := by
  obtain ⟨parts', same, each', rfl⟩ := sum
  suffices equal : parts' = parts by rw [equal]
  induction parts generalizing parts' with
  | nil => simpa using same
  | cons part rest ih =>
    cases parts' with
    | nil => simp at same
    | cons part' rest' =>
      obtain ⟨id, w⟩ := part
      obtain ⟨id', w'⟩ := part'
      simp only [List.map_cons, List.cons.injEq] at same
      obtain ⟨rfl, same⟩ := same
      obtain rfl : w = w' := hasWidth_unique (each (id', w) (by simp)) (each' (id', w') (by simp)) rfl
      rw [ih (fun p member => each p (by simp [member])) rest' same
        fun p member => each' p (by simp [member])]

theorem declared_total {target : Ref} {total : Nat} (declared : g.declared target = some total)
    {parts : List (LeafId × Nat)} (done : g.leafWidths target = .ok parts) :
    (parts.map Prod.snd).sum = total := by
  obtain ⟨leaves, each⟩ := leafWidths_ok done
  refine totalWidth_unique each (totalWidth_within leaves ?_)
  unfold Netlist.declared at declared
  change g.widthOf target = .ok total
  cases width : g.widthOf target <;> simp_all [Except.toOption]

end Netlist

end CombLogic
