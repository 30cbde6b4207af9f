import CombLogic.Proofs.Block.Merged
import CombLogic.Proofs.Layout
import CombLogic.Proofs.Unknowns

/- Merging under unknown conditions. Where it is open whether an arm of a choice is taken, a leaf comes out
   unknown unless its value is the same either way. No value of an arm is ever picked over another one. -/
namespace CombLogic

open Expr Netlist Stmt

namespace Merge

/-- What the arms after some place come to for a leaf. -/
def remaining (m : Merge) (rest : List (Expr × Binding)) (leaf : LeafId) : Expr :=
  (m.fallback.entry leaf).merged (entries rest leaf)

/-- It is open whether an arm is taken: its condition is unknown, and all before it are 0. -/
def Open (m : Merge) (env : Env) (arm : Binding) (rest : List (Expr × Binding)) : Prop :=
  ∃ past condition bit, m.arms = past ++ (condition, arm) :: rest ∧
    (∀ p ∈ past, p.1.value env = .ok (.ofBool false)) ∧
      condition.value env = .ok (.ofBit bit) ∧ bit.isKnown = false

/-- A leaf comes out with all bits unknown, as many as the arm gives it, or with the value that it has
    both in the arm and without it. -/
def Undecided (m : Merge) (env : Env) (arm : Binding) (rest : List (Expr × Binding)) (leaf : LeafId) :
    Prop :=
  (m.after.entry leaf).value env = ((arm.entry leaf).value env).map (fun v => .unknown v.width) ∨
    (m.after.entry leaf).value env = (arm.entry leaf).value env ∧
      (m.remaining rest leaf).value env = (arm.entry leaf).value env

/-- The same with the width that the leaf has. Whatever the condition turns out to be, the value is
    below the one that the leaf then has. -/
structure Consistent (m : Merge) (env : Env) (arm : Binding) (rest : List (Expr × Binding))
    (leaf : LeafId) (width : Nat) : Prop where
  found : (m.after.entry leaf).Assigned → ∃ v, (m.after.entry leaf).value env = .ok v
  either : ∀ v, (m.after.entry leaf).value env = .ok v → v = .unknown width ∨
    (arm.entry leaf).value env = .ok v ∧ (m.remaining rest leaf).value env = .ok v
  below : ∀ v u, (m.after.entry leaf).value env = .ok v →
    ((arm.entry leaf).value env = .ok u ∨ (m.remaining rest leaf).value env = .ok u) → v.Below u

section

variable {g : Netlist} {b : Binding} {m : Merge} {env : Env} {arm : Binding}
  {rest : List (Expr × Binding)} {leaf : LeafId}

theorem Right.undecided (right : m.Right g b) (bound : leaf ∈ b.keys) (undecided : m.Open env arm rest) :
    m.Undecided env arm rest leaf := by
  obtain ⟨past, condition, bit, arms, fails, asked, unknown⟩ := undecided
  have joined := right.exact.each leaf (right.keys ▸ bound)
  have agree := joined.agree (condition, arm) (by simp [arms])
  have value : (m.after.entry leaf).value env = ((m.fallback.entry leaf).merged
      ((condition, arm.entry leaf) :: entries rest leaf)).value env := by
    rw [value_alike joined.form, arms, entries, List.map_append]
    exact merged_past (List.forall_mem_map.mpr fails)
  rw [Undecided, value]
  exact merged_undecided asked unknown agree

theorem Undecided.consistent {width : Nat} (undecided : m.Undecided env arm rest leaf)
    (unsettled : m.Open env arm rest) (suits : env.Suits g) (spans : m.Spans g env)
    (there : g.HasWidth (leaf, width)) : m.Consistent env arm rest leaf width := by
  obtain ⟨past, condition, bit, arms, -⟩ := unsettled
  have entry : ∀ p ∈ m.arms, p.1.Spans env 1 ∧ (p.2.entry leaf).Spans env width := fun p listed =>
    ⟨(spans.arms p listed).1, entry_spans suits (spans.arms p listed).2 there⟩
  have own := entry_spans suits spans.after there
  have first := (entry (condition, arm) (by simp [arms])).2
  have others : (m.remaining rest leaf).Spans env width := by
    refine spans_merged (List.forall_mem_map.mpr fun q later => ?_)
      (entry_spans suits spans.fallback there)
    exact entry q (by simp [arms, later])
  have either : ∀ v, (m.after.entry leaf).value env = .ok v → v = .unknown width ∨
      (arm.entry leaf).value env = .ok v ∧ (m.remaining rest leaf).value env = .ok v := by
    intro v found
    rcases undecided with blank | ⟨same, same'⟩
    · rw [found] at blank
      cases value : (arm.entry leaf).value env with
      | error x => simp [value, Except.map] at blank
      | ok u =>
        rw [value] at blank
        obtain rfl : v = .unknown u.width := Except.ok.inj blank
        exact .inl (by rw [first.wide u value])
    · exact .inr ⟨same ▸ found, same' ▸ same ▸ found⟩
  refine ⟨own.found, either, fun v u found resolved => ?_⟩
  have wide : u.width = width := resolved.elim (first.wide u) (others.wide u)
  rcases either v found with rfl | ⟨here, there⟩
  · exact Value.unknown_below wide
  · obtain rfl : v = u := by
      rcases resolved with one | other
      · exact Except.ok.inj (here.symm.trans one)
      · exact Except.ok.inj (there.symm.trans other)
    exact Value.below_refl v

end

end Merge

section

variable {K : Set Expr} {c : ExecContext} {g : Netlist} {settings : BlockSettings}
  {log : Option DiagnosticLog} {statements : List Stmt} {outputs : List LeafId}

theorem replayMerges_yields (inside : ∀ e ∈ bodyExprs statements, e ∈ K)
    (found : Block.outputs c.netlist statements = .ok outputs) :
    Yields K (Block.replayMerges c statements outputs) fun _ r => ∃ start : Binding,
      start.keys = outputs ∧ (∀ leaf e, start.get? leaf = some e → ∃ n, e = .unassigned n leaf) ∧
        Recorded c.netlist (bodyExprs statements) (bodyTargets statements) (bodyChoices statements)
          start [r.1] r.2 := by
  refine yields_bind (yields_both (start_yields inside (outputs_nodup found) (outputs_cover found))
    (unassigned_seeds outputs)) ?_
  rintro L _ start _ sharing ⟨⟨-, keys, runs⟩, seeds⟩
  refine yields_weaken (body_recorded sharing statements runs) fun _ _ _ recorded => ?_
  exact ⟨start, keys, fun leaf e here => (seeds leaf e here).resolve_left (by simp), recorded⟩

theorem map_run {α β : Type} {m : Executing α} {f : α → β} {r : β} {s t : ExecState}
    (run : (f <$> m) s = (.ok r, t)) : ∃ a, m s = (.ok a, t) ∧ f a = r := by
  rw [map_eq_pure_bind] at run
  obtain ⟨a, s', ran, done⟩ := executing_bind run
  cases done
  exact ⟨a, ran, rfl⟩

/-- The check phase of an accepted block went through. -/
theorem accepted_plan {s : Session} {block : BlockSummary}
    (found : Block.outputs g statements = .ok outputs) (free : ∀ id ∈ outputs, g.Free id)
    (accepted : Block.compile settings statements ⟨g, log⟩ = (.ok block, s)) : ∃ plan t,
      Block.plan ⟨g, settings⟩ statements outputs ⟨g.nextNode, log, #[]⟩ = (.ok plan, t) := by
  obtain ⟨result, t, run⟩ : ∃ result t,
      Block.plan ⟨g, settings⟩ statements outputs ⟨g.nextNode, log, #[]⟩ = (result, t) := ⟨_, _, rfl⟩
  cases result with
  | ok plan => exact ⟨plan, t, run⟩
  | error x =>
    obtain ⟨s', rejected⟩ := compile_rejects found free run
    cases rejected.symm.trans accepted

end

/-- Every choice of an accepted block is joined once, in the order of the text. A leaf that no arm of a
    choice assigns keeps its entry. Any other output comes out undecided where an arm is; and if all that
    is written has a bit, it does so with its own width. -/
theorem merges_undecided {w : World} {settings : BlockSettings} {log : Option DiagnosticLog}
    {builder : Builder} {statements : List Stmt} {g : Netlist} {block : BlockSummary} {s : Session}
    (allowed : w.Allows (.compile settings log builder))
    (written : builder.run w.netlist = (.ok statements, g))
    (accepted : builder.compile settings ⟨w.netlist, log⟩ = (.ok block, s)) :
    ∃ final merges t,
      Block.replay ⟨g, settings⟩ statements block.outputs ⟨g.nextNode, log, #[]⟩ = (.ok final, t) ∧
      Block.replayMerges ⟨g, settings⟩ statements block.outputs ⟨g.nextNode, log, #[]⟩ =
        (.ok (final, merges), t) ∧
      merges.map Merge.statement = bodyChoices statements ∧ ∀ m ∈ merges,
        m.arms.length = m.statement.armCount ∧
        (∀ leaf, Elsewhere g m.statement.targets leaf → m.after.get? leaf = m.before.get? leaf) ∧
        ∀ leaf ∈ block.outputs, leaf ∈ m.after.keys ∧ ∀ env arm rest, m.Open env arm rest →
          m.Undecided env arm rest leaf ∧
            (g.Bits (bodyExprs statements) (bodyTargets statements) → env.Suits g →
              ∃ width, g.HasWidth (leaf, width) ∧ m.Consistent env arm rest leaf width) := by
  obtain ⟨K, sharing, -, inside⟩ := allowed statements g written
  obtain ⟨drivers, checks, L, compiled⟩ := compile_compiled written sharing inside accepted
  have quietly : Block.compile settings statements ⟨g, log⟩ = (.ok block, s) := by
    rwa [Builder.compile, step_ok (edit_ok written)] at accepted
  obtain ⟨plan, t', planned⟩ := accepted_plan compiled.found compiled.free quietly
  rw [Block.plan_replay] at planned
  obtain ⟨final, t, replayed, -⟩ := executing_bind planned
  obtain ⟨⟨_, merges⟩, ran, rfl⟩ := map_run ((Block.replayMerges_fst _ _ _).symm ▸ replayed)
  obtain ⟨-, -, -, start, keys, seeds, recorded⟩ := replayMerges_yields (c := ⟨g, settings⟩) inside
    compiled.found K subset_rfl _ _ t ⟨sharing, by simp⟩ ran
  refine ⟨_, merges, t, replayed, ran, recorded.listed, fun m listed => ?_⟩
  have right := recorded.right m listed
  refine ⟨right.count, right.elsewhere, fun leaf output => ?_⟩
  have bound : leaf ∈ start.keys := keys ▸ output
  refine ⟨right.exact.keys ▸ right.keys ▸ bound, fun env arm rest unsettled => ?_⟩
  have undecided := right.undecided bound unsettled
  refine ⟨undecided, fun bits suits => ?_⟩
  have there : ∀ leaf ∈ block.outputs, ∃ width, g.HasWidth (leaf, width) := fun leaf output => by
    obtain ⟨entry, found, -⟩ := compiled.free leaf output
    exact ⟨entry.width, entry, found, rfl⟩
  have blank : start.Spans g env := by
    intro other e found
    obtain ⟨n, rfl⟩ := seeds other e found
    obtain ⟨width, known⟩ := there other (keys ▸ OrderedMap.mem_keys_of_get? found)
    exact ⟨width, known, spans_unassigned other⟩
  obtain ⟨width, known⟩ := there leaf output
  have spans := (recorded.spans env suits bits blank).2 m listed
  exact ⟨width, known, undecided.consistent unsettled suits spans known⟩

theorem fits_suits {g : Netlist} (fits : g.Fits) : g.env.Suits g := by
  rintro id width ⟨leaf, found, rfl⟩
  exact ⟨leaf.value, (g.env_value id).trans (value_ok found), fits id leaf found⟩

instance (g : Netlist) : Decidable g.Fits :=
  inferInstanceAs (Decidable (∀ id leaf, g.leaves.get? id = some leaf → _))

/-- A join of one arm, told by the value of its condition. -/
theorem open_single {m : Merge} {env : Env} {bit : Bit} (unknown : bit.isKnown = false)
    (asked : m.arms.map (fun p => (p.1.value env).toOption) = [some (.ofBit bit)]) :
    ∃ arm, m.Open env arm [] := by
  obtain ⟨⟨condition, arm⟩, single, value⟩ := List.map_eq_singleton_iff.mp asked
  exact ⟨arm, [], condition, bit, single, by simp, of_toOption value, unknown⟩

/-- A leaf that is set, and set to 0 under an unknown condition, beside one that is only set. -/
theorem default_undecided : ∃ (w : World) (builder : Builder) (g : Netlist) (m : Merge) (arm : Binding),
    w.Reachable ∧ (builder.run w.netlist).2 = g ∧ m.Open g.env arm [] ∧
      m.Consistent g.env arm [] 2 1 ∧ m.after.get? 3 = m.before.get? 3 := by
  let choice : Stmt := .ifElse (.signal 0 0) [.assign (.leaf 2) (.literal 2 (.zeros 1))] []
  let statements : List Stmt :=
    [.assign (.leaf 2) (.signal 1 1), .assign (.leaf 3) (.signal 1 1), choice]
  let builder : Builder := .number fun _ => .number fun _ => .number fun _ => .block statements
  let declared : List Call := [.leaf "c" (.unknown 1), .leaf "a" (.ofBool true), .leaf "y" (.unknown 1),
    .leaf "z" (.unknown 1)]
  let w := (World.empty 10).after declared
  let g := (builder.run w.netlist).2
  have reachable : w.Reachable := ⟨10, World.leads_after _ declared (by decide +kernel)⟩
  have accepted := run_of_toOption (r := builder.compile {} ⟨w.netlist, none⟩) (a := ⟨[2, 3], 4⟩)
    (by decide +kernel)
  have bits : g.Bits (bodyExprs statements) (bodyTargets statements) :=
    ⟨by decide +kernel, by decide +kernel⟩
  have suits : g.env.Suits g := fits_suits (by decide +kernel)
  have there : g.HasWidth (2, 1) := (hasWidth_iff).mpr (by decide +kernel)
  have asked : ((Block.replayMerges ⟨g, {}⟩ statements [2, 3] ⟨g.nextNode, none, #[]⟩).1.toOption.map
      fun r => r.2.map fun m => m.arms.map fun p => (p.1.value g.env).toOption) =
        some [[some (.ofBit .x)]] := by decide +kernel
  have apart : Elsewhere g choice.targets 3 := by
    intro target listed leaves found
    obtain rfl := List.mem_singleton.mp listed
    cases leavesOf_leaf.symm.trans found
    decide
  have written : builder.run w.netlist = (.ok statements, g) := rfl
  obtain ⟨final, merges, t, -, ran, listed, each⟩ :=
    merges_undecided (by decide +kernel) written accepted
  obtain ⟨m, rfl, own⟩ := List.map_eq_singleton_iff.mp (show merges.map Merge.statement = [choice] from listed)
  obtain ⟨arm, unsettled⟩ : ∃ arm, m.Open g.env arm [] := by
    rw [ran] at asked
    exact open_single rfl (List.cons.inj (Option.some.inj asked)).1
  obtain ⟨-, kept, values⟩ := each m (by simp)
  obtain ⟨-, open_⟩ := values 2 (by simp)
  obtain ⟨-, widths⟩ := open_ g.env arm [] unsettled
  obtain ⟨width, known, consistent⟩ := widths bits suits
  obtain rfl : width = 1 := hasWidth_unique known there rfl
  exact ⟨w, builder, g, m, arm, reachable, rfl, unsettled, consistent, kept 3 (own ▸ apart)⟩

/-- Without a bit in every part, a leaf may come out neither with its bits unknown nor as it would have
    to: where the arm has a sum over no bits for its single bit, no bit is left. -/
theorem sum_narrows : ∃ (w : World) (builder : Builder) (block : BlockSummary) (s : Session)
    (statements : List Stmt) (g : Netlist) (r : Binding × List Merge) (t : ExecState) (m : Merge)
    (arm : Binding), w.Reachable ∧ builder.run w.netlist = (.ok statements, g) ∧
      builder.compile {} ⟨w.netlist, none⟩ = (.ok block, s) ∧ 2 ∈ block.outputs ∧
      Block.replayMerges ⟨g, {}⟩ statements block.outputs ⟨g.nextNode, none, #[]⟩ = (.ok r, t) ∧
      m ∈ r.2 ∧ m.Open g.env arm [] ∧ g.env.Suits g ∧ g.HasWidth (2, 1) ∧
      (m.after.entry 2).value g.env = .ok (.zeros 0) ∧
      (m.remaining [] 2).value g.env = .ok (.zeros 1) ∧ ¬m.Consistent g.env arm [] 2 1 := by
  let statements : List Stmt := [.ifElse (.signal 0 0)
    [.assign (.leaf 2) (.binary 3 .add (.signal 1 1) (.literal 2 (.unknown 1)))]
    [.assign (.leaf 2) (.literal 4 (.zeros 1))]]
  let builder : Builder := .number fun _ => .number fun _ => .number fun _ => .number fun _ =>
    .number fun _ => .block statements
  let declared : List Call := [.leaf "c" (.unknown 1), .leaf "a" (.zeros 0), .leaf "y" (.unknown 1)]
  let w := (World.empty 10).after declared
  let g := (builder.run w.netlist).2
  have reachable : w.Reachable := ⟨10, World.leads_after _ declared (by decide +kernel)⟩
  have accepted := run_of_toOption (r := builder.compile {} ⟨w.netlist, none⟩) (a := ⟨[2], 3⟩)
    (by decide +kernel)
  have suits : g.env.Suits g := fits_suits (by decide +kernel)
  have there : g.HasWidth (2, 1) := (hasWidth_iff).mpr (by decide +kernel)
  have joined : ((Block.replayMerges ⟨g, {}⟩ statements [2] ⟨g.nextNode, none, #[]⟩).1.toOption.map
      fun r => r.2.map fun m => (m.arms.map fun p => (p.1.value g.env).toOption,
        ((m.after.entry 2).value g.env).toOption, ((m.remaining [] 2).value g.env).toOption)) =
          some [([some (.ofBit .x)], some (.zeros 0), some (.zeros 1))] := by decide +kernel
  obtain ⟨r, ran, shown⟩ := Option.map_eq_some_iff.mp joined
  obtain ⟨m, single, own⟩ := List.map_eq_singleton_iff.mp shown
  obtain ⟨asked, both⟩ := Prod.mk.inj own
  obtain ⟨after, other⟩ := Prod.mk.inj both
  obtain ⟨arm, unsettled⟩ := open_single rfl asked
  have after := of_toOption after
  refine ⟨w, builder, _, _, statements, g, r, _, m, arm, reachable, rfl, accepted, by simp,
    run_of_toOption ran, by simp [single], unsettled, suits, there, after, of_toOption other, ?_⟩
  intro consistent
  rcases consistent.either _ after with narrow | ⟨-, same⟩
  · cases narrow
  · cases same.symm.trans (of_toOption other)

end CombLogic
