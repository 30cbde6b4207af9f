import Mathlib.Data.List.Nodup
import CombLogic.Proofs.Netlist.Lookup
import CombLogic.Proofs.Width.Rule

/- What a netlist makes of an expression that is offered to drive a target, or to be watched. -/
namespace CombLogic.Netlist

open Expr

variable {g : Netlist} {K : Set Expr} {next : Nat}

/-- The sized form of an expression for a target of some width: the plain one up to node numbers,
    and the very expression if it has no integer. -/
structure Drives (g : Netlist) (target : Ref) (e s : Expr) (width : Nat) : Prop where
  resolved : e.Resolved
  declared : g.declared target = some width
  sized : ∃ t, e.sized g.declared (some width) = some (t, width) ∧ s.shape = t.shape
  same : e.Integerless → s = e

theorem drives_checked {target : Ref} {e s : Expr} {width : Nat}
    (drives : g.Drives target e s width) : Checked g.declared s width := by
  obtain ⟨t, done, alike⟩ := drives.sized
  exact checked_alike alike (sized_checked done drives.resolved)

theorem resolved_of_search (sharing : Sharing K next) {e : Expr} (member : e ∈ K)
    (missed : e.firstPlaceholder? = none) : e.Resolved :=
  find_none sharing member missed

theorem makes_width (target : Ref) :
    Makes K (liftM (g.widthOf target) : Numbering (Except NetlistError) Nat)
      fun _ width => g.declared target = some width :=
  makes_ask fun width found _ _ => by simp [Netlist.declared, found, Except.toOption]

theorem makes_sized (sharing : Sharing K next) {e : Expr} (member : e ∈ K) (context : Option Nat) :
    Makes K (g.sizeFor e context) fun L r => r.1 ∈ L ∧
      (∃ t, e.sized g.declared context = some (t, r.2) ∧ r.1.shape = t.shape) ∧
      (e.Integerless → r.1 = e) := by
  refine makes_weaken (makes_of_builds (sizeFor_builds sharing member context)) ?_
  rintro L ⟨s, width⟩ - ⟨⟨t, width'⟩, done, inside, alike, rfl, same⟩
  exact ⟨inside, ⟨t, done, alike⟩, same⟩

theorem sizedDriver_makes (sharing : Sharing K next) {e : Expr} (member : e ∈ K) (target : Ref) :
    Makes K (g.sizedDriver target e) fun L s => s ∈ L ∧ ∃ width, g.Drives target e s width := by
  unfold sizedDriver
  cases missed : e.firstPlaceholder? with
  | some placeholder => exact makes_reject
  | none =>
    refine makes_bind (makes_width target) fun L width sub declared => ?_
    refine makes_bind (makes_mono (makes_sized sharing member (some width)) sub) ?_
    rintro L' ⟨s, actual⟩ sub' ⟨inside, ⟨t, done, alike⟩, same⟩
    by_cases differ : actual ≠ width
    · simp only [if_pos differ]
      exact makes_reject
    · obtain rfl := not_not.mp differ
      simp only [ne_eq, not_true_eq_false, ↓reduceIte]
      refine makes_pure fun L'' sub'' => ⟨sub'' inside, actual, ?_⟩
      exact ⟨resolved_of_search sharing member missed, declared, ⟨t, done, alike⟩, same⟩

/-- A slice, or an empty constant for a leaf without bits. -/
def piece (e : Expr) (low width : Nat) : Expr :=
  if width = 0 then .literal 0 (.zeros 0) else .slice 0 e (low + width - 1) low

/-- Slices without new nodes. -/
def plainSlices (e : Expr) (low : Nat) : List (LeafId × Nat) → List (LeafId × Expr)
  | [] => []
  | (id, width) :: rest => (id, piece e low width) :: plainSlices e (low + width) rest

/-- One leaf, and expressions of one shape for it. -/
def Alike (a b : LeafId × Expr) : Prop := a.1 = b.1 ∧ a.2.shape = b.2.shape

theorem slices_makes {e : Expr} (parts : List (LeafId × Nat)) (low : Nat) (member : e ∈ K) :
    Makes K (slices e low parts) fun L ds =>
      (∀ p ∈ ds, p.2 ∈ L) ∧ List.Forall₂ Alike ds (plainSlices e low parts) := by
  induction parts generalizing low K with
  | nil => exact makes_pure fun _ _ => ⟨by simp, .nil⟩
  | cons part rest ih =>
    obtain ⟨id, width⟩ := part
    have later : ∀ {s : Expr} {L : Set Expr}, K ⊆ L → s ∈ L → s.shape = (piece e low width).shape →
        Makes L (do return (id, s) :: (← slices e (low + width) rest) :
            Numbering (Except NetlistError) (List (LeafId × Expr)))
          fun L ds => (∀ p ∈ ds, p.2 ∈ L) ∧
            List.Forall₂ Alike ds (plainSlices e low ((id, width) :: rest)) := by
      intro s L sub inside alike
      refine makes_bind (ih (low + width) (sub member)) ?_
      rintro L' ds sub' ⟨insides, alikes⟩
      refine makes_pure fun L'' sub'' => ⟨?_, .cons ⟨rfl, alike⟩ alikes⟩
      simpa using ⟨sub'' (sub' inside), fun leaf s listed => sub'' (insides (leaf, s) listed)⟩
    simp only [slices]
    split
    · rename_i empty
      refine makes_bind (makes_node (fun _ => rfl) (by simp [children])) ?_
      rintro L s sub ⟨inside, n, rfl⟩
      exact later sub inside (by simp [piece, empty, shape])
    · rename_i bits
      refine makes_bind (makes_node (fun _ => rfl) (by simpa [children] using member)) ?_
      rintro L s sub ⟨inside, n, rfl⟩
      exact later sub inside (by simp [piece, bits, shape])

theorem piece_checked {d : Ref → Option Nat} {e : Expr} {total low width : Nat}
    (checked : Checked d e total) (inside : low + width ≤ total) :
    Checked d (piece e low width) width := by
  unfold piece
  split
  · rename_i empty
    subst empty
    refine ⟨?_, ?_, by simp [widthBy]⟩
    · exact all_iff.mpr ⟨rfl, by simp [children]⟩
    · exact all_iff.mpr ⟨rfl, by simp [children]⟩
  · refine ⟨?_, ?_, ?_⟩
    · refine all_iff.mpr ⟨rfl, fun a operand => ?_⟩
      obtain rfl : a = e := by simpa [children] using operand
      exact checked.integerless
    · refine all_iff.mpr ⟨rfl, fun a operand => ?_⟩
      obtain rfl : a = e := by simpa [children] using operand
      exact checked.resolved
    · have ordered : low ≤ low + width - 1 := by omega
      have bound : low + width - 1 < total := by omega
      simp only [widthBy, checked.width, Option.bind_eq_bind, Option.bind_some, ordered, bound,
        and_self, ↓reduceIte, Option.some.injEq]
      omega

theorem plainSlices_checked {d : Ref → Option Nat} {e : Expr} {total : Nat}
    (checked : Checked d e total) (parts : List (LeafId × Nat)) (low : Nat)
    (inside : low + (parts.map Prod.snd).sum ≤ total) :
    List.Forall₂ (fun p part => p.1 = part.1 ∧ Checked d p.2 part.2) (plainSlices e low parts)
      parts := by
  induction parts generalizing low with
  | nil => exact .nil
  | cons part rest ih =>
    obtain ⟨id, width⟩ := part
    simp only [List.map_cons, List.sum_cons] at inside
    exact .cons ⟨rfl, piece_checked checked (by omega)⟩ (ih (low + width) (by omega))

theorem plainSlices_leaves (e : Expr) (low : Nat) (parts : List (LeafId × Nat)) :
    (plainSlices e low parts).map Prod.fst = parts.map Prod.fst := by
  induction parts generalizing low with
  | nil => rfl
  | cons part rest ih => simp [plainSlices, ih]

theorem alike_leaves {ds ps : List (LeafId × Expr)} (alike : List.Forall₂ Alike ds ps) :
    ds.map Prod.fst = ps.map Prod.fst := by
  induction alike with
  | nil => rfl
  | cons here _ ih => simp [here.1, ih]

/-- Expressions for one leaf read the same. -/
def Agree (ds : List (LeafId × Expr)) : Prop :=
  ∀ p ∈ ds, ∀ q ∈ ds, p.1 = q.1 → ∀ d, p.2.Reads d ↔ q.2.Reads d

theorem agree_nodup {ds : List (LeafId × Expr)} (nodup : (ds.map Prod.fst).Nodup) : Agree ds := by
  intro p listed q listed' same d
  rw [List.inj_on_of_nodup_map nodup listed listed' same]

theorem piece_reads {e : Expr} {low width : Nat} {d : LeafId} :
    (piece e low width).Reads d ↔ width ≠ 0 ∧ e.Reads d := by
  unfold piece Reads
  split
  · rename_i empty
    refine ⟨fun ⟨node, inside⟩ => ?_, fun read => (read.1 empty).elim⟩
    cases contains_leaf rfl inside
  · rename_i bits
    constructor
    · rintro ⟨node, inside⟩
      obtain ⟨a, operand, within⟩ := contains_operand inside (by simp)
      obtain rfl : a = e := by simpa [children] using operand
      exact ⟨bits, node, within⟩
    · rintro ⟨-, node, inside⟩
      exact ⟨node, .within (by simp [children]) inside⟩

theorem mem_plainSlices {e : Expr} {low : Nat} {parts : List (LeafId × Nat)} {p : LeafId × Expr}
    (listed : p ∈ plainSlices e low parts) :
    ∃ part ∈ parts, ∃ start, p = (part.1, piece e start part.2) := by
  induction parts generalizing low with
  | nil => simp [plainSlices] at listed
  | cons part rest ih =>
    rcases List.mem_cons.mp listed with rfl | later
    · exact ⟨part, List.mem_cons_self, low, rfl⟩
    · obtain ⟨part', member, here⟩ := ih later
      exact ⟨part', List.mem_cons_of_mem _ member, here⟩

/-- A leaf has one width, so its pieces are all slices of one expression or all without bits. -/
theorem pieces_agree {e : Expr} {low : Nat} {parts : List (LeafId × Nat)}
    (each : ∀ part ∈ parts, g.HasWidth part) {ds : List (LeafId × Expr)}
    (alikes : List.Forall₂ Alike ds (plainSlices e low parts)) : Agree ds := by
  have piece_of : ∀ p ∈ ds, ∃ leaf, g.leaves.get? p.1 = some leaf ∧
      ∀ d, p.2.Reads d ↔ leaf.width ≠ 0 ∧ e.Reads d := by
    intro p listed
    obtain ⟨q, inner, same, alike⟩ := forall₂_left alikes p listed
    obtain ⟨part, member, start, rfl⟩ := mem_plainSlices inner
    obtain ⟨leaf, found, width⟩ := each part member
    exact ⟨leaf, by rw [same]; exact found, fun d => width ▸ (reads_alike alike d).trans piece_reads⟩
  intro p listed q listed' same d
  obtain ⟨leaf, found, reads⟩ := piece_of p listed
  obtain ⟨leaf', found', reads'⟩ := piece_of q listed'
  obtain rfl : leaf = leaf' := by simpa [same, found'] using found.symm
  rw [reads, reads']

/-- A checked driver for a leaf. -/
def DriverFor (g : Netlist) (L : Set Expr) (p : LeafId × Expr) : Prop :=
  p.2 ∈ L ∧ ∃ leaf, g.leaves.get? p.1 = some leaf ∧ Checked g.declared p.2 leaf.width

theorem distribute_pieces {e : Expr} (member : e ∈ K) (target : Ref) :
    Makes K (g.distribute target e) fun L ds => (∀ p ∈ ds, p.2 ∈ L) ∧
      ∃ parts, g.leafWidths target = .ok parts ∧ List.Forall₂ Alike ds (plainSlices e 0 parts) := by
  refine makes_bind (makes_ask fun parts found L _ => found) fun L parts sub found => ?_
  refine makes_weaken (slices_makes parts 0 (sub member)) ?_
  rintro L' ds sub' ⟨insides, alikes⟩
  exact ⟨insides, parts, found, alikes⟩

theorem distribute_makes {e : Expr} {target : Ref} {total : Nat} (member : e ∈ K)
    (checked : Checked g.declared e total) (declared : g.declared target = some total) :
    Makes K (g.distribute target e) fun L ds =>
      (∃ ids, g.leavesOf target = .ok ids ∧ ds.map Prod.fst = ids) ∧
        (∀ p ∈ ds, g.DriverFor L p) ∧ Agree ds := by
  refine makes_weaken (distribute_pieces member target) ?_
  rintro L ds sub ⟨insides, parts, found, alikes⟩
  obtain ⟨leaves, each⟩ := leafWidths_ok found
  have sum := declared_total declared found
  have plain := plainSlices_checked checked parts 0 (by omega)
  refine ⟨⟨_, leaves, ?_⟩, fun p listed => ?_, pieces_agree each alikes⟩
  · rw [alike_leaves alikes, plainSlices_leaves]
  · obtain ⟨q, inner, same, alike⟩ := forall₂_left alikes p listed
    obtain ⟨part, given, same', checked'⟩ := forall₂_left plain q inner
    obtain ⟨leaf, here, width⟩ := each part given
    refine ⟨insides p listed, leaf, by rw [same, same', here], ?_⟩
    exact width ▸ checked_alike alike checked'

theorem leaf_width {id : LeafId} {width : Nat} (declared : g.declared (.leaf id) = some width) :
    ∃ leaf, g.leaves.get? id = some leaf ∧ leaf.width = width := by
  rw [declared_get] at declared
  exact Option.map_eq_some_iff.mp declared

/-- Drivers come for the leaves of the target, each of which is free. -/
theorem driversFor_makes (sharing : Sharing K next) {e : Expr} (member : e ∈ K) (target : Ref) :
    Makes K (g.driversFor target e) fun L ds =>
      (∃ ids, g.leavesOf target = .ok ids ∧ ds.map Prod.fst = ids) ∧
        (∀ p ∈ ds, g.Free p.1) ∧ (∀ p ∈ ds, g.DriverFor L p) ∧ Agree ds := by
  refine makes_bind (makes_ask fun ids found L _ => found) fun L ids sub found => ?_
  have unused : ∀ id ∈ ids, Makes L (liftM (g.requireFree id) : Numbering (Except NetlistError) Unit)
      fun _ _ => g.Free id := fun id _ => makes_ask fun u done _ _ => requireFree_ok done
  refine makes_bind (makes_loop ids unused) fun L₁ _ sub₁ free => ?_
  refine makes_bind (makes_mono (sizedDriver_makes sharing member target) (sub.trans sub₁)) ?_
  rintro L₂ s sub₂ ⟨inside, width, drives⟩
  cases target with
  | leaf id =>
    obtain rfl : [id] = ids := Except.ok.inj (leavesOf_leaf.symm.trans found)
    obtain ⟨leaf, here, rfl⟩ := leaf_width drives.declared
    refine makes_pure fun L₃ sub₃ => ⟨⟨[id], found, rfl⟩, by simpa using free, ?_, ?_⟩
    · simpa using ⟨sub₃ inside, leaf, here, drives_checked drives⟩
    · exact agree_nodup (by simp)
  | bundle id =>
    refine makes_weaken (distribute_makes inside (drives_checked drives) drives.declared) ?_
    rintro L₃ ds sub₃ ⟨⟨ids', found', same⟩, each, agree⟩
    obtain rfl : ids = ids' := by simpa [found] using found'
    refine ⟨⟨ids, found, same⟩, fun p listed => free p.1 ?_, each, agree⟩
    exact same ▸ List.mem_map_of_mem listed

/-- A condition that can be watched. -/
structure GoodCheck (g : Netlist) (L : Set Expr) (check : ConflictCheck) : Prop where
  inside : check.conflict ∈ L
  checked : Checked g.declared check.conflict 1
  reads : check.reads = check.conflict.signals

/-- Only the leaves matter for what can drive them or be watched. -/
theorem checked_leaves {g' : Netlist} (leaves : g'.leaves = g.leaves) {e : Expr} {width : Nat}
    (checked : Checked g.declared e width) : Checked g'.declared e width :=
  checked_congr checked fun d _ => by rw [declared_get, declared_get, leaves]

theorem driverFor_leaves {g' : Netlist} (leaves : g'.leaves = g.leaves) {p : LeafId × Expr}
    (offered : g.DriverFor K p) : g'.DriverFor K p := by
  obtain ⟨inside, leaf, found, checked⟩ := offered
  exact ⟨inside, leaf, leaves ▸ found, checked_leaves leaves checked⟩

theorem goodCheck_leaves {g' : Netlist} (leaves : g'.leaves = g.leaves) {check : ConflictCheck}
    (good : g.GoodCheck K check) : g'.GoodCheck K check :=
  ⟨good.inside, checked_leaves leaves good.checked, good.reads⟩

/-- A condition without integers is watched as it is. -/
theorem conflictCheck_makes (sharing : Sharing K next) {e : Expr} (member : e ∈ K)
    (selector : String) : Makes K (g.conflictCheck selector e) fun L check =>
      g.GoodCheck L check ∧ (e.Integerless → check.conflict = e) := by
  unfold conflictCheck
  cases missed : e.firstPlaceholder? with
  | some placeholder => exact makes_reject
  | none =>
    refine makes_bind (makes_sized sharing member (some 1)) ?_
    rintro L ⟨s, width⟩ sub ⟨inside, ⟨t, done, alike⟩, same⟩
    by_cases differ : width ≠ 1
    · simp only [if_pos differ]
      exact makes_throw fun n => ⟨_, rfl⟩
    · obtain rfl := not_not.mp differ
      simp only [ne_eq, not_true_eq_false, ↓reduceIte]
      refine makes_pure fun L' sub' => ⟨⟨sub' inside, ?_, rfl⟩, same⟩
      exact checked_alike alike (sized_checked done (resolved_of_search sharing member missed))

theorem exprOf_makes (target : Ref) : Makes K (g.exprOf target) fun L e => e ∈ L := by
  have signal : ∀ (L : Set Expr) (id : LeafId),
      Makes (ε := NetlistError) L (Build.signal id) fun L e => e ∈ L := by
    intro L id
    refine makes_weaken (makes_node (fun _ => rfl) (by simp [children])) ?_
    rintro L e - ⟨inside, -⟩
    exact inside
  cases target with
  | leaf id => exact signal K id
  | bundle id =>
    refine makes_bind (makes_ask fun ids found L _ => found) fun L ids sub found => ?_
    have each : Makes L (ids.mapM Build.signal : Numbering (Except NetlistError) (List Expr))
        fun L es => List.Forall₂ (fun _ e => e ∈ L) ids es := by
      refine makes_mapM ?_ ids fun id _ => signal L id
      exact fun _ _ _ _ sub inside => sub inside
    refine makes_bind each fun L' es sub' each => ?_
    refine makes_weaken (makes_node (fun _ => rfl) fun n a operand => ?_) fun L e _ built => built.1
    obtain ⟨id, -, inside⟩ := forall₂_right each a (by simpa [children] using operand)
    exact inside

end CombLogic.Netlist
