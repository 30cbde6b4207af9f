import CombLogic.Proofs.Netlist.Bundles
import CombLogic.Proofs.Netlist.Pieces

/- What a connected target holds. Every leaf of it has the value of one of its slices after the next
   pass that goes through; the target reads as the value of the expression as long as no leaf is
   listed twice with different slices. -/
namespace CombLogic

open Expr Netlist

variable {g g' : Netlist} {target : Ref} {e s : Expr} {parts : List (LeafId × Nat)}
  {ds : List (LeafId × Expr)} {K : Set Expr} {next : Nat}

/-- Drivers with the pieces of an expression. -/
structure Carries (s : Expr) (parts : List (LeafId × Nat)) (ds : List (LeafId × Expr)) : Prop where
  /-- Where the expression has a value of the width of all leaves, the drivers have its pieces. -/
  given : ∀ env v, s.value env = .ok v → v.width = (parts.map Prod.snd).sum →
    List.Forall₂ (fun d p => d.1 = p.1 ∧ d.2.value env = .ok p.2) ds (pieces v.bits parts)
  /-- A driver with a bit has a value only if the expression has one. -/
  needed : List.Forall₂ (fun d part => d.1 = part.1 ∧
    ∀ env u, d.2.value env = .ok u → part.2 ≠ 0 → ∃ v, s.value env = .ok v) ds parts

theorem carries_single (id : LeafId) (width : Nat) : Carries s [(id, width)] [(id, s)] where
  given env v value whole := by
    have all : v.bits.take width = v.bits := List.take_of_length_le (by
      rw [Value.width] at whole
      simp at whole
      omega)
    simpa [pieces, all] using value
  needed := .cons ⟨rfl, fun env u value _ => ⟨u, value⟩⟩ .nil

theorem plainSlices_needed (s : Expr) (low : Nat) (parts : List (LeafId × Nat)) :
    List.Forall₂ (fun d part => d.1 = part.1 ∧
      ∀ env u, d.2.value env = .ok u → part.2 ≠ 0 → ∃ v, s.value env = .ok v)
        (plainSlices s low parts) parts := by
  induction parts generalizing low with
  | nil => exact .nil
  | cons part rest ih =>
    refine .cons ⟨rfl, fun env u value some => ?_⟩ (ih _)
    simp only [piece, if_neg some] at value
    exact (bind_ok value).imp fun v both => both.1

theorem carries_slices (alike : List.Forall₂ Alike ds (plainSlices s 0 parts)) :
    Carries s parts ds where
  given env v value whole :=
    (forall₂_join alike.flip (slices_values value (by omega))).imp
      fun d p ⟨a, _, same, leaf, found⟩ =>
        ⟨same.1.trans leaf, (value_alike same.2).trans found⟩
  needed :=
    (forall₂_join alike.flip (plainSlices_needed s 0 parts)).imp
      fun d part ⟨a, _, same, leaf, found⟩ =>
        ⟨same.1.trans leaf, fun env u value => found env u ((value_alike same.2).symm.trans value)⟩

/-- A target is connected with drivers that carry the sized form of the expression. -/
theorem driversFor_carries (sharing : Sharing K next) (member : e ∈ K) (target : Ref) :
    Makes K (g.driversFor target e) fun L ds => ∃ s parts, s ∈ L ∧
      g.leafWidths target = .ok parts ∧ g.Drives target e s (parts.map Prod.snd).sum ∧
        Carries s parts ds := by
  refine makes_bind (makes_ask fun ids found L _ => found) fun L ids sub found => ?_
  refine makes_bind (makes_loop ids fun id _ => makes_ask fun _ _ _ _ => trivial)
    fun L₁ _ sub₁ _ => ?_
  refine makes_bind (makes_mono (sizedDriver_makes sharing member target) (sub.trans sub₁)) ?_
  rintro L₂ s sub₂ ⟨inside, width, drives⟩
  cases target with
  | leaf id =>
    obtain ⟨leaf, here, rfl⟩ := leaf_width drives.declared
    have single : g.leafWidths (.leaf id) = .ok [(id, leaf.width)] :=
      leafWidths_of leavesOf_leaf (by simp [HasWidth, here])
    exact makes_pure fun L₃ sub₃ => ⟨s, _, sub₃ inside, single, by simpa using drives,
      carries_single id leaf.width⟩
  | bundle id =>
    refine makes_weaken (distribute_pieces inside _) ?_
    rintro L₃ ds sub₃ ⟨-, parts, found', alike⟩
    obtain rfl := declared_total drives.declared found'
    exact ⟨s, parts, sub₃ inside, found', drives, carries_slices alike⟩

theorem connect_attached (done : (connect target e g).1 = .ok ()) :
    ∃ ds next, g.driversFor target e g.nextNode = .ok (ds, next) ∧
      Attached ds { g with nextNode := next } (connect target e g).2 := by
  cases built : g.driversFor target e g.nextNode with
  | error x =>
    have failed : Edit.build (·.driversFor target e) g = (.error x, g) := by
      simp only [Edit.build, built]
    cases (congrArg Prod.fst (step_error failed)).symm.trans done
  | ok r =>
    obtain ⟨ds, next⟩ := r
    have offered : Edit.build (·.driversFor target e) g = (.ok ds, { g with nextNode := next }) := by
      simp only [Edit.build, built]
    refine ⟨ds, next, rfl, ?_⟩
    rw [connect, step_ok offered]
    exact attachAll_attached ds _

theorem lasts_hasWidth (lasts : Lasts g g') {part : LeafId × Nat} (there : g.HasWidth part) :
    g'.HasWidth part := by
  obtain ⟨leaf, found, width⟩ := there
  obtain ⟨leaf', found', same, -⟩ := lasts.leaf part.1 leaf found
  exact ⟨leaf', found', same.trans width⟩

/-- A driver that was attached is up to date after every later pass that goes through. -/
theorem driver_lasts {w w' : World} (reachable : w.Reachable) (leads : w.Leads w')
    {report : PassReport} {h : Netlist} (settled : settle w'.netlist = (.ok report, h))
    {id : LeafId} {leaf : Leaf} (found : w.netlist.leaves.get? id = some leaf) {d : Expr}
    (driven : leaf.drive = .driven d) :
    ∃ u, h.value id = .ok u ∧ h.Recomputes d u := by
  obtain ⟨K, kept⟩ := reachable_kept reachable
  obtain ⟨K', kept'⟩ := leads_kept leads kept
  have after : (w'.call .settle).netlist = h := congrArg Prod.snd settled
  have onward : w.Leads (w'.call .settle) := leads.tail ⟨.settle, trivial, rfl⟩
  obtain ⟨leaf', found', -, drive⟩ := (leads_lasts onward kept).leaf id leaf found
  rw [after] at found'
  exact ⟨leaf'.value, value_ok found',
    settled_up_to_date kept' settled id leaf' d found' (drive d driven) (by simp)⟩

/-- Each leaf is up to date with one of the drivers that were given to it. -/
def Follow (h : Netlist) (parts : List (LeafId × Nat)) (ds : List (LeafId × Expr)) : Prop :=
  ∀ id ∈ parts.map Prod.fst, ∃ d u, (id, d) ∈ ds ∧ h.value id = .ok u ∧ h.Recomputes d u

/-- Drivers that were attached to leaves are followed by them after every later pass. -/
theorem attached_follow {w w' : World} (reachable : w.Reachable) (attached : Attached ds g w.netlist)
    (each : ∀ part ∈ parts, g.HasWidth part) (named : ds.map Prod.fst = parts.map Prod.fst)
    (leads : w.Leads w') {report : PassReport} {h : Netlist}
    (settled : settle w'.netlist = (.ok report, h)) : Follow h parts ds := by
  intro id listed
  obtain ⟨part, member, rfl⟩ := List.mem_map.mp listed
  obtain ⟨leaf, before, -⟩ := each part member
  obtain ⟨leaf', after, step⟩ := attached.leaf part.1 leaf before
  rcases step.drive with ⟨outside, -⟩ | ⟨d, given, driven⟩
  · exact absurd (named ▸ listed) outside
  · obtain ⟨u, value, current⟩ := driver_lasts reachable leads settled after driven
    exact ⟨d, u, given, value, current⟩

/-- Where leaves with a bit follow, the expression has a value. -/
theorem follow_value {h : Netlist} (carries : Carries s parts ds) (follow : Follow h parts ds)
    (each : ∀ part ∈ parts, g.HasWidth part) (bits : (parts.map Prod.snd).sum ≠ 0) :
    ∃ v, s.value h.env = .ok v := by
  obtain ⟨part, listed, some⟩ : ∃ part ∈ parts, part.2 ≠ 0 := by
    by_contra none
    push Not at none
    refine bits (List.sum_eq_zero_iff_forall_eq_nat.mpr ?_)
    simpa using fun width id listed => none (id, width) listed
  obtain ⟨d, u, given, -, current⟩ := follow part.1 (List.mem_map_of_mem listed)
  obtain ⟨part', listed', same, needs⟩ := forall₂_left carries.needed _ given
  have one : part.2 = part'.2 := hasWidth_unique (each part listed) (each part' listed') same
  exact needs _ u current.1 (one ▸ some)

/-- What the leaves then have are pieces of that value. -/
theorem follow_pieces {h : Netlist} (carries : Carries s parts ds) (follow : Follow h parts ds)
    {v : Value} (value : s.value h.env = .ok v) (whole : v.width = (parts.map Prod.snd).sum) :
    ∀ id ∈ parts.map Prod.fst, ∃ u, (id, u) ∈ pieces v.bits parts ∧ h.value id = .ok u := by
  intro id listed
  obtain ⟨d, u, given, found, current⟩ := follow id listed
  obtain ⟨p, cut, same, here⟩ := forall₂_left (carries.given _ v value whole) _ given
  obtain rfl : u = p.2 := Except.ok.inj (current.1.symm.trans here)
  obtain rfl : id = p.1 := same
  exact ⟨p.2, cut, found⟩

/-- After a target was connected, and whatever calls came in between, the next pass that goes through
    leaves the value of the expression on it, if and only if the slices that a leaf is given do not
    contradict one another. -/
theorem connected_reads {w w' : World} (reachable : w.Reachable)
    (allowed : w.Allows (.connect target e)) (connected : (connect target e w.netlist).1 = .ok ())
    (leads : (w.call (.connect target e)).Leads w') {report : PassReport} {h : Netlist}
    (settled : settle w'.netlist = (.ok report, h)) :
    ∃ s parts, w.netlist.leafWidths target = .ok parts ∧
      w.netlist.Drives target e s (parts.map Prod.snd).sum ∧
      ((parts.map Prod.snd).sum ≠ 0 → ∃ v ev, Evaluation.start.run h s = .ok (v, ev)) ∧
      ∀ v ev, Evaluation.start.run h s = .ok (v, ev) → v.width = (parts.map Prod.snd).sum →
        ((parts.map Prod.fst).Nodup → h.read target = .ok v) ∧
          (h.read target = .ok v ↔ ∀ p ∈ pieces v.bits parts, ∀ q ∈ pieces v.bits parts,
            p.1 = q.1 → p.2 = q.2) := by
  have there := reachable_call reachable allowed
  have onward : w.Leads (w'.call .settle) :=
    .head ⟨_, allowed, rfl⟩ (leads.tail ⟨.settle, trivial, rfl⟩)
  obtain ⟨L, sharing, -, members⟩ := allowed
  have member : e ∈ L := members e (by simp)
  obtain ⟨ds, next, run, attached⟩ := connect_attached connected
  obtain ⟨L₁, -, shared, s, parts, inside, found, drives, carries⟩ :=
    driversFor_carries sharing member target L subset_rfl _ _ _ sharing run
  obtain ⟨leaves, each⟩ := leafWidths_ok found
  have named : ds.map Prod.fst = parts.map Prod.fst :=
    map_of_forall₂ carries.needed.flip fun part d both => both.1
  have follow : Follow h parts ds := attached_follow there attached each named leads settled
  refine ⟨s, parts, found, drives, fun bits => ?_, fun v ev started whole => ?_⟩
  · obtain ⟨v, value⟩ := follow_value carries follow each bits
    exact ⟨v, start_run shared inside value⟩
  · have value := start_found shared inside started
    have after : (w'.call .settle).netlist = h := congrArg Prod.snd settled
    have leaves' : h.leavesOf target = .ok (parts.map Prod.fst) :=
      leavesOf_last (after ▸ leads_bundles onward) leaves
    obtain ⟨K, kept⟩ := reachable_kept reachable
    have each' : ∀ part ∈ parts, h.HasWidth part := fun part listed =>
      lasts_hasWidth (after ▸ leads_lasts onward kept) (each part listed)
    have exact := read_pieces_iff leaves' each' whole (follow_pieces carries follow value whole)
    refine ⟨fun apart => exact.mpr fun p cut q cut' same => ?_, exact⟩
    rw [← pieces_leaves v.bits] at apart
    rw [List.inj_on_of_nodup_map apart cut cut' same]

/-- A pair of leaves connected to a leaf of two bits, which changes in the pass. -/
theorem pair_reads : ∃ (w : World) (report : PassReport) (h : Netlist) (ev : Evaluation),
    w.Reachable ∧ settle w.netlist = (.ok report, h) ∧
      Evaluation.start.run h (.signal 0 0) = .ok (.ofNat 2 2, ev) ∧
        h.read (.bundle 0) = .ok (.ofNat 2 2) := by
  let calls : List Call := [.leaf "a" (.ofNat 2 1), .leaf "x" (.unknown 1), .leaf "y" (.unknown 1),
    .bundle "c" [.leaf 1, .leaf 2], .number]
  let w := (World.empty 10).after calls
  let w' := (w.call (.connect (.bundle 0) (.signal 0 0))).call (.force 0 (.ofNat 2 2))
  have reachable : w.Reachable := ⟨10, World.leads_after _ calls (by decide +kernel)⟩
  have allowed : w.Allows (.connect (.bundle 0) (.signal 0 0)) := by decide +kernel
  have connected : (connect (.bundle 0) (.signal 0 0) w.netlist).1 = .ok () := by decide +kernel
  have leads : (w.call (.connect (.bundle 0) (.signal 0 0))).Leads w' :=
    .single ⟨.force 0 (.ofNat 2 2), trivial, rfl⟩
  have passes : (settle w'.netlist).1.toOption.isSome := by decide +kernel
  have value : ((Evaluation.start.run (settle w'.netlist).2 (.signal 0 0)).toOption.map Prod.fst) =
    some (.ofNat 2 2) := by decide +kernel
  have widths : w.netlist.leafWidths (.bundle 0) = .ok [(1, 1), (2, 1)] :=
    of_toOption (by decide +kernel)
  obtain ⟨report, passed⟩ := Option.isSome_iff_exists.mp passes
  have settled := run_of_toOption passed
  have after : w'.Reachable := reachable_leads (reachable_call reachable allowed) leads
  clear_value w w'
  obtain ⟨⟨v, ev⟩, started, same⟩ := Option.map_eq_some_iff.mp value
  obtain ⟨s, parts, found, drives, -, reads⟩ :=
    connected_reads reachable allowed connected leads settled
  obtain rfl : [(1, 1), (2, 1)] = parts := Except.ok.inj (widths.symm.trans found)
  obtain rfl : v = .ofNat 2 2 := same
  obtain rfl : s = .signal 0 0 := drives.same (all_iff.mpr ⟨rfl, by simp [children]⟩)
  have started := of_toOption started
  exact ⟨w', report, _, ev, after, settled, started,
    (reads _ ev started (by decide)).1 (by decide)⟩

/-- Of a leaf that is listed twice only the later slice is left. -/
theorem twin_misread : ∃ (w : World) (e : Expr) (report : PassReport) (h : Netlist) (v : Value)
    (ev : Evaluation), w.Reachable ∧ w.Allows (.connect (.bundle 0) e) ∧
      (connect (.bundle 0) e w.netlist).1 = .ok () ∧
        settle (w.call (.connect (.bundle 0) e)).netlist = (.ok report, h) ∧
          Evaluation.start.run h e = .ok (v, ev) ∧ h.read (.bundle 0) ≠ .ok v := by
  let calls : List Call := [.leaf "a" (.unknown 1), .bundle "c" [.leaf 0, .leaf 0], .number]
  let w := (World.empty 10).after calls
  let e : Expr := .literal 0 (.ofNat 2 1)
  have reachable : w.Reachable := ⟨10, World.leads_after _ calls (by decide +kernel)⟩
  have allowed : w.Allows (.connect (.bundle 0) e) := by decide +kernel
  have connected : (connect (.bundle 0) e w.netlist).1 = .ok () := by decide +kernel
  have passes : (settle (w.call (.connect (.bundle 0) e)).netlist).1.toOption.isSome := by
    decide +kernel
  have read : (settle (w.call (.connect (.bundle 0) e)).netlist).2.read (.bundle 0) =
    .ok (.zeros 2) := of_toOption (by decide +kernel)
  obtain ⟨report, passed⟩ := Option.isSome_iff_exists.mp passes
  refine ⟨w, e, report, _, .ofNat 2 1, .start, reachable, allowed, connected,
    run_of_toOption passed, rfl, ?_⟩
  rw [read]
  decide

end CombLogic
