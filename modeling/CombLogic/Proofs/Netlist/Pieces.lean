import CombLogic.Proofs.Block.Assign
import CombLogic.Proofs.Netlist.Failures
import CombLogic.Proofs.Netlist.Layout
import CombLogic.Proofs.Sizing.Stable
import CombLogic.Proofs.Success

/- What reading, cutting and forcing a target leave of its bits. The pieces of a value lie side by
   side as they lay in it, and the slices of an expression have these pieces as their values. -/
namespace CombLogic

open Expr

namespace Netlist

theorem pieces_leaves (bits : List Bit) (parts : List (LeafId × Nat)) :
    (pieces bits parts).map Prod.fst = parts.map Prod.fst := by
  induction parts generalizing bits with
  | nil => rfl
  | cons part rest ih => simp [pieces, ih]

theorem pieces_widths {bits : List Bit} {parts : List (LeafId × Nat)}
    (enough : (parts.map Prod.snd).sum ≤ bits.length) :
    ((pieces bits parts).map Prod.snd).map Value.width = parts.map Prod.snd := by
  induction parts generalizing bits with
  | nil => rfl
  | cons part rest ih =>
    simp only [List.map_cons, List.sum_cons] at enough
    have later : (rest.map Prod.snd).sum ≤ (bits.drop part.2).length := by
      rw [List.length_drop]
      omega
    simp only [pieces, List.map_cons, ih later, Value.width, List.length_take]
    rw [Nat.min_eq_left (by omega)]

/-- Side by side the pieces are what they were cut from. -/
theorem pieces_join {v : Value} {parts : List (LeafId × Nat)}
    (whole : v.width = (parts.map Prod.snd).sum) :
    .concatLowFirst ((pieces v.bits parts).map Prod.snd) = v := by
  suffices joined : ∀ bits : List Bit, bits.length = (parts.map Prod.snd).sum →
      ((pieces bits parts).map Prod.snd).flatMap Value.bits = bits from
    congrArg Value.mk (joined v.bits whole)
  clear whole
  induction parts with
  | nil => exact fun bits none => (List.length_eq_zero_iff.mp none).symm
  | cons part rest ih =>
    intro bits whole
    simp only [List.map_cons, List.sum_cons] at whole
    have later := ih (bits.drop part.2) (by rw [List.length_drop]; omega)
    simp [pieces, later]

theorem slice_bits {v : Value} {low width : Nat} (some : width ≠ 0)
    (inside : low + width ≤ v.width) :
    v.slice (low + width - 1) low = .ok ⟨(v.bits.drop low).take width⟩ := by
  have present : low + (low + width - 1 - low) < v.bits.length := by
    rw [Value.width] at inside
    omega
  have ordered : ¬low + width - 1 < low := by omega
  have count : low + width - 1 + 1 - low = width := by omega
  simp [Value.slice, ordered, present, count]

variable {d : Ref → Option Nat} {env : Env}

theorem piece_value {e : Expr} {v : Value} {low width : Nat} (found : e.value env = .ok v)
    (inside : low + width ≤ v.width) :
    (piece e low width).value env = .ok ⟨(v.bits.drop low).take width⟩ := by
  unfold piece
  split
  · rename_i none
    subst none
    simp [Expr.value, valueOn, Value.zeros, Value.fill]
  · rename_i some
    have here : e.valueOn env env.unreadable = .ok v := found
    simp only [Expr.value, valueOn, here, bind, Except.bind, slice_bits some inside]
    rfl

/-- The slices of an expression have the pieces of its value. -/
theorem slices_values {e : Expr} {v : Value} (found : e.value env = .ok v)
    {parts : List (LeafId × Nat)} {low : Nat} (inside : low + (parts.map Prod.snd).sum ≤ v.width) :
    List.Forall₂ (fun s p => s.1 = p.1 ∧ s.2.value env = .ok p.2) (plainSlices e low parts)
      (pieces (v.bits.drop low) parts) := by
  induction parts generalizing low with
  | nil => exact .nil
  | cons part rest ih =>
    simp only [List.map_cons, List.sum_cons] at inside
    refine .cons ⟨rfl, piece_value found (by omega)⟩ ?_
    rw [List.drop_drop]
    exact ih (by omega)

/-- A slice is sized with what it is cut from. -/
theorem piece_sized {e t : Expr} {total w low width : Nat}
    (own : e.natural d = some (some total)) (done : e.fitted d total = some (t, w))
    (inside : low + width ≤ total) :
    (piece e low width).sized d none = some (piece t low width, width) := by
  unfold piece
  split
  · rename_i none
    subst none
    rfl
  · rename_i some
    have ordered : ¬(low + width - 1 < low ∨ total ≤ low + width - 1) := by omega
    have count : low + width - 1 - low + 1 = width := by omega
    simp only [Expr.sized, natural, fitted, needed_some.mpr own, done, ordered, count, if_false,
      Option.bind_eq_bind, Option.bind_some, pure]

variable {g : Netlist} {target : Ref} {parts : List (LeafId × Nat)} {K : Set Expr} {next : Nat}

/-- What an evaluation by itself finds is the value. -/
theorem start_found (sharing : Sharing K next) {e : Expr} (member : e ∈ K) {v : Value}
    {ev : Evaluation} (found : Evaluation.start.run g e = .ok (v, ev)) :
    e.value g.env = .ok v := by
  have fresh : MemoRight K g.env Evaluation.start.memo := by
    intro n _ v known
    simp [Evaluation.start] at known
  have computes :=
    (evaluate_computes sharing e member : Computes (MemoRight K g.env) _ _) _ fresh
  have found : e.evaluate g.env Evaluation.start.memo = .ok (v, ev.memo) := (run_values found).1
  cases plain : e.value g.env with
  | error x =>
    rw [plain, found] at computes
    cases computes
  | ok w =>
    rw [plain, found] at computes
    obtain ⟨after, equal, -⟩ := computes
    cases equal
    rfl

theorem evaluate_run {e s : Expr} {context last : Nat}
    (run : g.sizeFor e none next = .ok ((s, context), last)) :
    g.evaluate e next = (Evaluation.start.run g s).map fun found => (found.1, last) := by
  simp only [Netlist.evaluate, bind, StateT.bind, Except.bind, run]
  cases Evaluation.start.run g s <;> rfl

/-- An evaluation sizes the expression and takes the value of what comes out. -/
theorem evaluate_plain (sharing : Sharing K next) {e t : Expr} {width : Nat} {v : Value}
    (member : e ∈ K) (sized : e.sized g.declared none = some (t, width))
    (plain : t.value g.env = .ok v) : ∃ last, g.evaluate e next = .ok (v, last) := by
  have run := sizeFor_builds (g := g) sharing member none K subset_rfl next sharing
  rw [sized] at run
  obtain ⟨⟨s, w⟩, last, L, run, -, shared, inside, alike, -⟩ := run
  obtain ⟨ev, found⟩ := start_run shared inside ((value_alike alike).trans plain)
  exact ⟨last, by rw [evaluate_run run, found]; rfl⟩

theorem evaluate_found (sharing : Sharing K next) {e : Expr} {v : Value} {last : Nat}
    (member : e ∈ K) (done : g.evaluate e next = .ok (v, last)) :
    ∃ t width, e.sized g.declared none = some (t, width) ∧ t.value g.env = .ok v := by
  have run := sizeFor_builds (g := g) sharing member none K subset_rfl next sharing
  cases sized : e.sized g.declared none with
  | none =>
    rw [sized] at run
    obtain ⟨x, failed⟩ := run
    simp [Netlist.evaluate, bind, StateT.bind, Except.bind, failed] at done
  | some r =>
    rw [sized] at run
    obtain ⟨⟨s, w⟩, later, L, run, -, shared, inside, alike, -⟩ := run
    refine ⟨r.1, r.2, rfl, ?_⟩
    rw [evaluate_run run] at done
    obtain ⟨⟨found, ev⟩, started, same⟩ := map_ok done
    obtain ⟨rfl, rfl⟩ := Prod.mk.inj same
    exact (value_alike alike).symm.trans (start_found shared inside started)

/-- A join of expressions that are sized already. -/
theorem fixed_concat {es : List Expr} {ws : List Nat} (n : Nat)
    (each : List.Forall₂ (Fixed d) es ws) : (Expr.concat n es).Fixed d ws.sum := by
  have all : naturals d es = some ws.sum ∧ fittedParts d es = some (es, ws.sum) := by
    induction each with
    | nil => exact ⟨rfl, rfl⟩
    | @cons e w es ws fixed _ ih =>
      have needed : e.needed d = some w := needed_some.mpr fixed.1
      exact ⟨by simp [naturals, fixed.1, ih.1], by simp [fittedParts, needed, fixed.2, ih.2]⟩
  exact ⟨by simp [natural, all.1], by simp [fitted, all.2]⟩

theorem fixed_signal {id : LeafId} {width : Nat} (n : Nat) (there : g.HasWidth (id, width)) :
    (Expr.signal n id).Fixed g.declared width := by
  obtain ⟨leaf, found, rfl⟩ := there
  exact ⟨by simp [natural, declared_get, found], rfl⟩

theorem entry_empty (leaf : LeafId) : Binding.entry .empty leaf = .signal 0 leaf := by
  simp [Binding.entry]

theorem held_empty_fixed (found : g.leafWidths target = .ok parts) :
    (g.held .empty target).Fixed g.declared (parts.map Prod.snd).sum := by
  refine held_sums found (fun part listed => ?_) fun _ _ => fixed_concat 0
  rw [entry_empty]
  exact fixed_signal 0 ((leafWidths_ok found).2 part listed)

theorem held_empty_value {ids : List LeafId} {vs : List Value}
    (leaves : g.leavesOf target = .ok ids) (values : g.Values ids vs) :
    (g.held .empty target).value g.env = .ok (.concatLowFirst vs) := by
  cases target with
  | leaf id =>
    obtain rfl : [id] = ids := Except.ok.inj (leavesOf_leaf.symm.trans leaves)
    obtain ⟨v, rest, here, none, rfl⟩ := List.forall₂_cons_left_iff.mp values
    cases none
    simpa [held, entry_empty, Value.concatLowFirst, Expr.value, valueOn, env_value] using here
  | bundle id =>
    have each : List.Forall₂ (fun a v => a.value g.env = .ok v) (ids.map (Expr.signal 0)) vs := by
      rw [List.forall₂_map_left_iff]
      exact values
    simp only [held, leaves, funext entry_empty]
    exact value_concat.mpr ⟨vs.reverse, List.forall₂_reverse_iff.mpr each, by
      rw [Value.concat, List.reverse_reverse]⟩

/-- Where nothing is bound, a block reads a target as it is read outside. -/
theorem readBinding_unbound {b : Binding} {ids : List LeafId} (leaves : g.leavesOf target = .ok ids)
    (unbound : ∀ id ∈ ids, b.get? id = none) : g.readBinding b target = g.exprOf target := by
  have single : ∀ id ∈ ids, b.get id = (Build.signal id : Numbering (Except NetlistError) Expr) := by
    intro id listed
    simp only [Binding.get, unbound id listed]
  cases target with
  | leaf id =>
    obtain rfl : [id] = ids := Except.ok.inj (leavesOf_leaf.symm.trans leaves)
    exact single id (by simp)
  | bundle id =>
    have all : ids.mapM b.get = ids.mapM (Build.signal (m := Except NetlistError)) := by
      clear leaves unbound
      induction ids with
      | nil => rfl
      | cons id rest ih =>
        rw [List.mapM_cons, List.mapM_cons, single id (by simp),
          ih fun other later => single other (by simp [later])]
    have known : (liftM (g.leavesOf (.bundle id)) : Numbering (Except NetlistError) _) =
        pure ids := by
      rw [leaves]
      rfl
    simp only [readBinding, exprOf, known, pure_bind, all]

theorem exprOf_succeeds {ids : List LeafId} (leaves : g.leavesOf target = .ok ids) :
    Succeeds K (g.exprOf target) := by
  have signal : ∀ L id, Makes (ε := NetlistError) L (Build.signal id) fun _ _ => True :=
    fun L id => makes_weaken (makes_node (fun _ => rfl) (by simp [children])) (by simp)
  have known : Makes K (liftM (g.leavesOf target) : Numbering (Except NetlistError) _)
      fun _ _ => True := makes_ask fun _ _ _ _ => trivial
  have all : ∀ L (ids : List LeafId),
      Makes (ε := NetlistError) L (ids.mapM Build.signal) fun _ _ => True :=
    fun L ids => makes_weaken (makes_mapM (fun _ _ _ _ _ here => here) ids fun id _ => signal L id)
      (by simp)
  cases target with
  | leaf id => exact succeeds_node
  | bundle id =>
    refine succeeds_bind (succeeds_ask leaves) known fun L ids _ _ => ?_
    refine succeeds_bind (succeeds_mapM ids (fun _ _ => succeeds_node) fun id _ => signal L id)
      (all L ids) fun L' es _ _ => succeeds_node

/-- The expression for a target evaluates to what is read from it. -/
theorem exprOf_reads {vs : List Value} (found : g.leafWidths target = .ok parts)
    (values : g.Values (parts.map Prod.fst) vs) (next : Nat) : ∃ e last later,
      g.exprOf target next = .ok (e, last) ∧
        g.evaluate e last = .ok (.concatLowFirst vs, later) := by
  obtain ⟨leaves, -⟩ := leafWidths_ok found
  have same : g.readBinding .empty target = g.exprOf target :=
    readBinding_unbound leaves fun id _ => OrderedMap.get?_empty id
  have nothing : Sharing ∅ next := Sharing.none_shared
  obtain ⟨⟨e, last⟩, run⟩ := exprOf_succeeds leaves ∅ subset_rfl next nothing
  have makes := same ▸ readBinding_makes (g := g) (K := ∅) (by simp [Binding.Within]) target
  obtain ⟨L, -, shared, inside, alike⟩ := makes ∅ subset_rfl next e last nothing run
  have free : e.Integerless := integerless_alike alike
    (held_integerless (K := ∅) ⟨by simp [Binding.Within], by simp⟩ target)
  have fixed := fixed_alike alike free (held_empty_fixed found)
  obtain ⟨later, done⟩ := evaluate_plain shared inside (fixed_sized fixed none)
    ((value_alike alike).trans (held_empty_value leaves values))
  exact ⟨e, last, later, run, done⟩

theorem resolve_read (b : Binding) (node : Nat) (target : Ref) :
    g.resolve b (.read node target) = g.readBinding b target := by
  funext n
  simp only [Netlist.resolve, Expr.resolve, Functor.map, StateT.map, StateT.run, remember_run,
    Resolving.build, liftM, monadLift, MonadLift.monadLift, StateT.lift, bind, StateT.bind,
    Except.bind]
  cases g.readBinding b target n <;> rfl

theorem slices_done (e : Expr) (parts : List (LeafId × Nat)) (low n : Nat) :
    ∃ r, slices e low parts n = .ok r := by
  induction parts generalizing low n with
  | nil => exact ⟨_, rfl⟩
  | cons part rest ih =>
    obtain ⟨id, width⟩ := part
    obtain ⟨⟨later, last⟩, run⟩ := ih (low + width) (n + 1)
    unfold slices
    split <;>
    · simp only [Build.literal, Build.slice, Build.number, bind, StateT.bind, Except.bind, pure,
        stateT_pure, Except.pure, run]
      exact ⟨_, rfl⟩

/-- A slice is evaluated to the piece of the value. -/
theorem slice_evaluates (sharing : Sharing K next) {e t s : Expr} {total w low width : Nat}
    {v : Value} (member : s ∈ K) (alike : s.shape = (piece e low width).shape)
    (own : e.natural g.declared = some (some total))
    (done : e.fitted g.declared total = some (t, w)) (plain : t.value g.env = .ok v)
    (whole : v.width = total) (inside : low + width ≤ total) :
    ∃ last, g.evaluate s next = .ok (⟨(v.bits.drop low).take width⟩, last) := by
  have forms := sized_alike (d := g.declared) alike none
  rw [piece_sized own done inside] at forms
  obtain ⟨⟨t', width'⟩, sized, form⟩ := Option.map_eq_some_iff.mp forms
  have value := piece_value plain (whole ▸ inside)
  exact evaluate_plain sharing member sized
    ((value_alike (congrArg Prod.fst form)).trans value)

theorem slices_evaluate (sharing : Sharing K next) {e t : Expr} {total w low : Nat} {v : Value}
    {ds : List (LeafId × Expr)} (own : e.natural g.declared = some (some total))
    (done : e.fitted g.declared total = some (t, w)) (plain : t.value g.env = .ok v)
    (whole : v.width = total) (members : ∀ p ∈ ds, p.2 ∈ K)
    (alike : List.Forall₂ Alike ds (plainSlices e low parts))
    (inside : low + (parts.map Prod.snd).sum ≤ total) :
    List.Forall₂ (fun d p => d.1 = p.1 ∧ ∀ n, next ≤ n → ∃ n', g.evaluate d.2 n = .ok (p.2, n'))
      ds (pieces (v.bits.drop low) parts) := by
  induction parts generalizing low ds with
  | nil =>
    cases alike
    exact .nil
  | cons part rest ih =>
    simp only [List.map_cons, List.sum_cons] at inside
    obtain ⟨d, ds, first, later, rfl⟩ := List.forall₂_cons_right_iff.mp alike
    refine .cons ⟨first.1, fun n le => ?_⟩ ?_
    · exact slice_evaluates (sharing.later le) (members d (by simp)) first.2 own done plain whole
        (by omega)
    · rw [List.drop_drop]
      exact ih (fun p listed => members p (by simp [listed])) later (by omega)

/-- An expression as wide as a target is cut into slices that evaluate to the pieces of its value. -/
theorem distribute_cuts (found : g.leafWidths target = .ok parts) {e : Expr} {v : Value}
    {later : Nat} (numbered : WellNumbered [e] next)
    (own : e.natural g.declared = some (some (parts.map Prod.snd).sum))
    (done : g.evaluate e next = .ok (v, later)) (whole : v.width = (parts.map Prod.snd).sum) :
    ∃ ds last, g.distribute target e next = .ok (ds, last) ∧
      List.Forall₂ (fun d p => d.1 = p.1 ∧ ∀ n, last ≤ n → ∃ n', g.evaluate d.2 n = .ok (p.2, n'))
        ds (pieces v.bits parts) := by
  obtain ⟨K, sharing, members⟩ := (wellNumbered_iff _ _).mp numbered
  have member : e ∈ K := members e (by simp)
  obtain ⟨t, w, sized, plain⟩ := evaluate_found sharing member done
  have fitted : e.fitted g.declared (parts.map Prod.snd).sum = some (t, w) := by
    simpa [Expr.sized, own] using sized
  obtain ⟨⟨ds, last⟩, cut⟩ := slices_done e parts 0 next
  have run : g.distribute target e next = .ok (ds, last) := by
    simp only [distribute, bind, StateT.bind, Except.bind, found]
    exact cut
  obtain ⟨L, -, shared, inside, parts', found', alike⟩ :=
    distribute_pieces member target K subset_rfl next ds last sharing run
  obtain rfl : parts = parts' := Except.ok.inj (found.symm.trans found')
  refine ⟨ds, last, run, ?_⟩
  exact slices_evaluate shared own fitted plain whole inside alike (by omega)

theorem forceablePieces_pieces {v : Value} {ps : List (LeafId × Value)}
    (found : g.leafWidths target = .ok parts) (done : g.forceablePieces target v = .ok ps) :
    ps = pieces v.bits parts ∧ v.width = (parts.map Prod.snd).sum := by
  have width := widthOf_of found
  obtain ⟨expected, known, done⟩ := bind_ok done
  obtain rfl := Except.ok.inj (width.symm.trans known)
  split at done
  · obtain ⟨name, -, failed⟩ := bind_ok done
    cases failed
  · rename_i same
    obtain ⟨widths, given, done⟩ := bind_ok done
    obtain rfl := Except.ok.inj (found.symm.trans given)
    obtain ⟨u, -, done⟩ := bind_ok done
    cases done
    exact ⟨rfl, not_not.mp same⟩

theorem foldl_insert {ps : List (LeafId × Value)} (apart : (ps.map Prod.fst).Nodup)
    {p : LeafId × Value} (listed : p ∈ ps) (staged : OrderedMap Value) :
    (ps.foldl (fun staged part => staged.insert part.1 part.2) staged).get? p.1 = some p.2 := by
  have outside : ∀ (ps : List (LeafId × Value)) (staged : OrderedMap Value) id,
      id ∉ ps.map Prod.fst →
        (ps.foldl (fun staged part => staged.insert part.1 part.2) staged).get? id =
          staged.get? id := by
    intro ps
    induction ps with
    | nil => exact fun _ _ _ => rfl
    | cons q rest ih =>
      intro staged id absent
      simp only [List.map_cons, List.mem_cons, not_or] at absent
      rw [List.foldl_cons, ih _ id absent.2, OrderedMap.get?_insert, if_neg (Ne.symm absent.1)]
  induction ps generalizing staged with
  | nil => cases listed
  | cons q rest ih =>
    simp only [List.map_cons, List.nodup_cons] at apart
    rcases List.mem_cons.mp listed with rfl | later
    · rw [List.foldl_cons, outside rest _ _ apart.1, OrderedMap.get?_insert, if_pos rfl]
    · exact ih apart.2 later _

/-- Where a value waits for a leaf without a driver, the pass puts it in and makes the leaf a root. -/
theorem settle_staged {h : Netlist} {report : PassReport} (settled : settle g = (.ok report, h))
    {id : LeafId} {leaf : Leaf} {v : Value} (found : g.leaves.get? id = some leaf)
    (input : leaf.drive.isDriven = false) (staged : g.staged.get? id = some v) :
    h.leaves.get? id = some { leaf with drive := .root, value := v } := by
  rcases settle_cases g with ⟨x, failed, -⟩ | ⟨report', pass, passed, run⟩
  · cases failed.symm.trans settled
  · obtain rfl : g.commit (g.changesOf pass) = h := congrArg Prod.snd (passed.symm.trans settled)
    obtain ⟨ev, sorted, evaluated, values⟩ := runPass_ok run
    have waits : id ∈ g.staged.keys := OrderedMap.mem_keys_of_get? staged
    have value : (g.settledLeaf pass id leaf).value = v := by
      by_cases listed : id ∈ pass.order
      · have same : pass.values[id]? = some v := by
          rw [values, evaluateDrivers_frame evaluated fun _ leaf' found' => ?_, passStart_values,
            staged]
          obtain rfl : leaf = leaf' := by simpa [found] using found'
          exact input
        simp [settledLeaf, listed, valueAt, same]
      · -- a leaf that the pass leaves out had the value already
        have same : leaf.value = v := by
          by_contra apart
          exact listed (Order.sort_lists sorted id (Order.seed_reachable
            (mem_seeds.mpr (.inl ⟨v, leaf, staged, found, apart⟩))))
        simp [settledLeaf, listed, same]
    rw [commit_get, found, Option.map_some, ← value]
    simp [settledLeaf, waits]

theorem settle_bundles {h : Netlist} {report : PassReport} (settled : settle g = (.ok report, h)) :
    h.bundles = g.bundles := by
  rcases settle_cases g with ⟨x, failed, -⟩ | ⟨report', pass, passed, run⟩
  · cases failed.symm.trans settled
  · obtain rfl : g.commit (g.changesOf pass) = h := congrArg Prod.snd (passed.symm.trans settled)
    rw [commit_same]

/-- Where every leaf of a target has its piece of a value, the target reads as the value. -/
theorem read_pieces (leaves : g.leavesOf target = .ok (parts.map Prod.fst)) {v : Value}
    (whole : v.width = (parts.map Prod.snd).sum)
    (each : ∀ p ∈ pieces v.bits parts, g.value p.1 = .ok p.2) : g.read target = .ok v := by
  have values : g.Values (parts.map Prod.fst) ((pieces v.bits parts).map Prod.snd) := by
    rw [← pieces_leaves v.bits, Values, List.forall₂_map_left_iff, List.forall₂_map_right_iff]
    exact List.forall₂_same.mpr each
  exact (read_values leaves values).trans (congrArg _ (pieces_join whole))

theorem mem_pieces {bits : List Bit} (enough : (parts.map Prod.snd).sum ≤ bits.length)
    {p : LeafId × Value} (listed : p ∈ pieces bits parts) : (p.1, p.2.width) ∈ parts := by
  induction parts generalizing bits with
  | nil => cases listed
  | cons part rest ih =>
    simp only [List.map_cons, List.sum_cons] at enough
    rcases List.mem_cons.mp listed with rfl | later
    · have width : (⟨bits.take part.2⟩ : Value).width = part.2 := by
        rw [Value.width, List.length_take]
        omega
      simp [width]
    · refine List.mem_cons_of_mem _ (ih ?_ later)
      rw [List.length_drop]
      omega

/-- There is one way to cut bits into values of given widths. -/
theorem pieces_unique {vs : List Value} (widths : vs.map Value.width = parts.map Prod.snd) :
    (pieces (Value.concatLowFirst vs).bits parts).map Prod.snd = vs := by
  induction parts generalizing vs with
  | nil => exact (List.map_eq_nil_iff.mp widths).symm
  | cons part rest ih =>
    obtain ⟨v, vs, rfl, width, later⟩ := List.map_eq_cons_iff.mp widths
    have here : part.2 = v.bits.length := width.symm
    simpa [pieces, Value.concatLowFirst, here] using ih later

/-- Where every leaf has one of its pieces, the target reads as the value exactly if a leaf that is
    listed several times is given one piece. -/
theorem read_pieces_iff (leaves : g.leavesOf target = .ok (parts.map Prod.fst))
    (each : ∀ part ∈ parts, g.HasWidth part) {v : Value}
    (whole : v.width = (parts.map Prod.snd).sum)
    (some : ∀ id ∈ parts.map Prod.fst, ∃ u, (id, u) ∈ pieces v.bits parts ∧ g.value id = .ok u) :
    g.read target = .ok v ↔
      ∀ p ∈ pieces v.bits parts, ∀ q ∈ pieces v.bits parts, p.1 = q.1 → p.2 = q.2 := by
  constructor
  · intro read
    obtain ⟨vs, values⟩ : ∃ vs, g.Values (parts.map Prod.fst) vs :=
      forall₂_found fun id listed => (some id listed).imp fun _ both => both.2
    obtain rfl := Except.ok.inj ((read_values leaves values).symm.trans read)
    have valued : List.Forall₂ (fun part w => part ∈ parts ∧ g.value part.1 = .ok w) parts vs := by
      rw [Values, List.forall₂_map_left_iff] at values
      exact (List.forall₂_and_left _ _).mpr ⟨fun _ listed => listed, values⟩
    have widths : vs.map Value.width = parts.map Prod.snd := map_of_forall₂ valued fun part w both => by
      obtain ⟨u, given, value⟩ := some part.1 (List.mem_map_of_mem both.1)
      obtain rfl : u = w := Except.ok.inj (value.symm.trans both.2)
      exact hasWidth_unique (each _ (mem_pieces (Nat.le_of_eq whole.symm) given)) (each part both.1) rfl
    have paired : g.Values ((pieces (Value.concatLowFirst vs).bits parts).map Prod.fst)
        ((pieces (Value.concatLowFirst vs).bits parts).map Prod.snd) := by
      rwa [pieces_leaves, pieces_unique widths]
    rw [Values, List.forall₂_map_left_iff, List.forall₂_map_right_iff] at paired
    have held := List.forall₂_same.mp paired
    intro p listed q listed' same
    exact Except.ok.inj ((held p listed).symm.trans (same ▸ held q listed'))
  · intro alike
    refine read_pieces leaves whole fun p listed => ?_
    have named : p.1 ∈ parts.map Prod.fst :=
      pieces_leaves v.bits parts ▸ List.mem_map_of_mem listed
    obtain ⟨u, given, value⟩ := some p.1 named
    exact value.trans (congrArg _ (alike _ given p listed rfl))

/-- A value forced on a target is read back. -/
theorem injectWhole_reads (found : g.leafWidths target = .ok parts)
    (apart : (parts.map Prod.fst).Nodup) {v : Value} {report : PassReport} {h : Netlist}
    (done : injectWhole target v g = (.ok report, h)) :
    h.read target = .ok v ∧
      ∀ id ∈ parts.map Prod.fst, (h.leaves.get? id).map Leaf.drive = some .root := by
  cases cut : g.forceablePieces target v with
  | error x =>
    have refused : forceWhole target v g = (.error x, g) := step_error (by simp [Edit.ask, cut])
    cases (step_error refused).symm.trans done
  | ok ps =>
    obtain ⟨rfl, whole⟩ := forceablePieces_pieces found cut
    have settled := (step_ok (forceWhole_done cut)).symm.trans done
    have each : ∀ p ∈ pieces v.bits parts, ∃ leaf : Leaf,
        h.leaves.get? p.1 = some { leaf with drive := .root, value := p.2 } := fun p listed => by
      obtain ⟨leaf, there, input, -⟩ := forceablePieces_ok cut p listed
      have once : ((pieces v.bits parts).map Prod.fst).Nodup := by rwa [pieces_leaves]
      exact ⟨leaf, settle_staged settled there input (foldl_insert once listed _)⟩
    have bundles := settle_bundles settled
    have leaves := (leavesOf_congr (g := g) bundles target).trans (leafWidths_ok found).1
    constructor
    · refine read_pieces leaves whole fun p listed => ?_
      obtain ⟨leaf, after⟩ := each p listed
      exact value_ok after
    · rw [← pieces_leaves v.bits]
      intro id listed
      obtain ⟨p, piece, rfl⟩ := List.mem_map.mp listed
      obtain ⟨leaf, after⟩ := each p piece
      simp [after]

end Netlist

end CombLogic
