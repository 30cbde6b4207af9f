import CombLogic.Proofs.Block.Chain
import CombLogic.Proofs.Locals

/- Chains of branches. A chain whose bodies assign the same outputs compiles, and from then on every pass
   leaves in the outputs what the first branch says whose condition is 1, or the last body if there is
   none. A chain without any branch stands under a condition that always holds, which the search for
   latches does not see through. -/
namespace CombLogic

open Expr Stmt
open Netlist hiding exprs

/-- A condition of one bit that avoids the outputs. -/
structure Netlist.Guard (g : Netlist) (outputs : Finset LeafId) (e : Expr) : Prop where
  single : (e.sized g.declared (some 1)).map Prod.snd = some 1
  stable : e.Stable g.declared (some 1)
  assigned : e.Assigned
  avoids : g.Avoids outputs e

/-- An assignment of an expression that has the width of its target and avoids the outputs. -/
structure Netlist.Setting (g : Netlist) (outputs : Finset LeafId) (a : Ref × Expr) : Prop where
  shares : (g.shares a.1 a.2).isSome
  stable : a.2.Stable g.declared (g.declared a.1)
  assigned : a.2.Assigned
  avoids : g.Avoids outputs a.2

/-- Assignments that assign all outputs and nothing else. -/
structure Netlist.Branch (g : Netlist) (outputs : Finset LeafId) (body : List (Ref × Expr)) : Prop where
  each : ∀ a ∈ body, g.Setting outputs a
  all : (body.map Prod.fst).toFinset.biUnion g.leafSet = outputs

/-- Branches over the same free outputs. -/
structure Block.Chain (g : Netlist) (branches : List (Expr × List (Ref × Expr)))
    (otherwise : List (Ref × Expr)) (outputs : Finset LeafId) : Prop where
  free : ∀ leaf ∈ outputs, g.Free leaf
  guards : ∀ p ∈ branches, g.Guard outputs p.1
  bodies : ∀ p ∈ branches, g.Branch outputs p.2
  last : g.Branch outputs otherwise

instance (g : Netlist) (outputs : Finset LeafId) (e : Expr) : Decidable (g.Guard outputs e) :=
  have : Decidable e.Assigned := inferInstanceAs (Decidable (e.All _))
  decidable_of_iff (_ ∧ _ ∧ _ ∧ _) ⟨fun all => ⟨all.1, all.2.1, all.2.2.1, all.2.2.2⟩,
    fun guard => ⟨guard.single, guard.stable, guard.assigned, guard.avoids⟩⟩

instance (g : Netlist) (outputs : Finset LeafId) (a : Ref × Expr) : Decidable (g.Setting outputs a) :=
  have : Decidable a.2.Assigned := inferInstanceAs (Decidable (a.2.All _))
  decidable_of_iff (_ ∧ _ ∧ _ ∧ _) ⟨fun all => ⟨all.1, all.2.1, all.2.2.1, all.2.2.2⟩,
    fun setting => ⟨setting.shares, setting.stable, setting.assigned, setting.avoids⟩⟩

instance (g : Netlist) (outputs : Finset LeafId) (body : List (Ref × Expr)) :
    Decidable (g.Branch outputs body) :=
  decidable_of_iff (_ ∧ _) ⟨fun both => ⟨both.1, both.2⟩, fun branch => ⟨branch.each, branch.all⟩⟩

instance (g : Netlist) (branches : List (Expr × List (Ref × Expr))) (otherwise : List (Ref × Expr))
    (outputs : Finset LeafId) : Decidable (Block.Chain g branches otherwise outputs) :=
  decidable_of_iff (_ ∧ _ ∧ _ ∧ _) ⟨fun all => ⟨all.1, all.2.1, all.2.2.1, all.2.2.2⟩,
    fun chain => ⟨chain.free, chain.guards, chain.bodies, chain.last⟩⟩

/-- The statement for a chain, with the next number for a new node. -/
def Stmt.chain (branches : List (Expr × List (Ref × Expr))) (otherwise : List (Ref × Expr))
    (n : Nat) : Stmt :=
  (elseIfs (assignAll otherwise) (branches.map fun p => (p.1, assignAll p.2)) : Numbering Id Stmt) n
    |>.run.1

/-- Statements with nothing the matter but, perhaps, outputs that some path leaves unassigned. -/
structure Block.Clear (g : Netlist) (outputs : Finset LeafId) (statements : List Stmt) : Prop where
  plain : BodyPlain g statements
  stable : BodyStable g statements
  written : ∀ e ∈ bodyExprs statements, e.Assigned
  backed : ∀ assigned, BodyBacked g outputs statements assigned

section

variable {K : Set Expr} {g : Netlist} {outputs : Finset LeafId} {settings : BlockSettings}
  {log : Option DiagnosticLog} {statements : List Stmt} {branches : List (Expr × List (Ref × Expr))}
  {otherwise body : List (Ref × Expr)} {e : Expr}

theorem avoids_backed (avoids : g.Avoids outputs e) (assigned : Finset LeafId) :
    ReadsAssigned g outputs assigned e :=
  fun n inside target read leaf within output => (avoids n inside target read leaf within output).elim

theorem clear_nil : Block.Clear g outputs [] :=
  ⟨trivial, trivial, by simp [bodyExprs], fun _ => trivial⟩

theorem clear_assigns (each : ∀ a ∈ body, g.Setting outputs a) :
    Block.Clear g outputs (assignAll body) := by
  induction body with
  | nil => exact clear_nil
  | cons a rest ih =>
    have here := each a (by simp)
    have later := ih fun a' listed => each a' (by simp [listed])
    refine ⟨⟨here.shares, later.plain⟩, ⟨here.stable, later.stable⟩, ?_, fun assigned =>
      ⟨avoids_backed here.avoids assigned, later.backed _⟩⟩
    exact List.forall_mem_append.mpr ⟨by simpa [Stmt.exprs] using here.assigned, later.written⟩

theorem clear_choice {thenBody elseBody : List Stmt} (guard : g.Guard outputs e)
    (one : Block.Clear g outputs thenBody) (two : Block.Clear g outputs elseBody) :
    Block.Clear g outputs [.ifElse e thenBody elseBody] := by
  obtain ⟨⟨t, width⟩, sized, single⟩ := Option.map_eq_some_iff.mp guard.single
  obtain rfl : width = 1 := single
  refine ⟨⟨⟨⟨t, sized⟩, one.plain, two.plain⟩, trivial⟩,
    ⟨⟨guard.stable, one.stable, two.stable⟩, trivial⟩, ?_,
    fun assigned => ⟨⟨avoids_backed guard.avoids assigned, one.backed _, two.backed _⟩, trivial⟩⟩
  simp only [bodyExprs, Stmt.exprs, List.append_nil, List.forall_mem_cons, List.forall_mem_append]
  exact ⟨guard.assigned, one.written, two.written⟩

theorem clear_nest (guards : ∀ p ∈ branches, g.Guard outputs p.1)
    (bodies : ∀ p ∈ branches, g.Branch outputs p.2) (last : g.Branch outputs otherwise) :
    Block.Clear g outputs (nest (assignAll otherwise) (branches.map fun p => (p.1, assignAll p.2))) := by
  induction branches with
  | nil => exact clear_assigns last.each
  | cons p rest ih =>
    refine clear_choice (guards p (by simp)) (clear_assigns (bodies p (by simp)).each) ?_
    exact ih (fun q listed => guards q (by simp [listed])) fun q listed => bodies q (by simp [listed])

theorem outputSet_assigns (body : List (Ref × Expr)) :
    Block.outputSet g (assignAll body) = (body.map Prod.fst).toFinset.biUnion g.leafSet := by
  have targets : bodyTargets (assignAll body) = body.map Prod.fst := by
    induction body with
    | nil => rfl
    | cons a rest ih =>
      have step : bodyTargets (assignAll (a :: rest)) = a.1 :: bodyTargets (assignAll rest) := rfl
      rw [step, ih]
      rfl
  rw [Block.outputSet, targets]

theorem outputSet_choice (thenBody elseBody : List Stmt) :
    Block.outputSet g [.ifElse e thenBody elseBody] =
      Block.outputSet g thenBody ∪ Block.outputSet g elseBody := by
  simp [Block.outputSet, bodyTargets, targets, List.toFinset_append, Finset.union_biUnion]

theorem outputSet_nest (bodies : ∀ p ∈ branches, g.Branch outputs p.2)
    (last : g.Branch outputs otherwise) : Block.outputSet g
      (nest (assignAll otherwise) (branches.map fun p => (p.1, assignAll p.2))) = outputs := by
  induction branches with
  | nil => exact (outputSet_assigns otherwise).trans last.all
  | cons p rest ih =>
    have first := (outputSet_assigns p.2).trans (bodies p (by simp)).all
    rw [List.map_cons, nest, outputSet_choice, first,
      ih fun q listed => bodies q (by simp [listed]), Finset.union_self]

theorem assigns_all (body : List (Ref × Expr)) (assigned : Finset LeafId) :
    bodyAssigns g (assignAll body) assigned =
      assigned ∪ (body.map Prod.fst).toFinset.biUnion g.leafSet := by
  induction body generalizing assigned with
  | nil => simp [assignAll, bodyAssigns]
  | cons a rest ih =>
    have step : bodyAssigns g (assignAll (a :: rest)) assigned =
        bodyAssigns g (assignAll rest) (assigned ∪ g.leafSet a.1) := rfl
    rw [step, ih]
    simp [Finset.union_assoc]

theorem nest_assigns (bodies : ∀ p ∈ branches, g.Branch outputs p.2)
    (last : g.Branch outputs otherwise) (assigned : Finset LeafId) : outputs ⊆ bodyAssigns g
      (nest (assignAll otherwise) (branches.map fun p => (p.1, assignAll p.2))) assigned := by
  induction branches with
  | nil =>
    rw [List.map_nil, nest, assigns_all, last.all]
    exact Finset.subset_union_right
  | cons p rest ih =>
    have first : outputs ⊆ bodyAssigns g (assignAll p.2) assigned := by
      rw [assigns_all, (bodies p (by simp)).all]
      exact Finset.subset_union_right
    exact Finset.subset_inter first (ih fun q listed => bodies q (by simp [listed]))

theorem given_isSome (body : List (Ref × Expr)) (each : ∀ a ∈ body, g.Setting outputs a)
    {leaf : LeafId} (listed : leaf ∈ (body.map Prod.fst).toFinset.biUnion g.leafSet) :
    ∃ e, g.given leaf body = some e := by
  induction body with
  | nil => simp at listed
  | cons a rest ih =>
    cases behind : g.given leaf rest with
    | some e => exact ⟨e, by simp [Netlist.given, behind]⟩
    | none =>
      have here : leaf ∈ g.leafSet a.1 := by
        rw [List.map_cons, List.toFinset_cons, Finset.biUnion_insert] at listed
        refine (Finset.mem_union.mp listed).resolve_right fun later => ?_
        obtain ⟨e, given⟩ := ih (fun a' listed => each a' (by simp [listed])) later
        cases given.symm.trans behind
      obtain ⟨ps, shares⟩ := Option.isSome_iff_exists.mp (each a (by simp)).shares
      rw [← shares_leaves shares, List.mem_toFinset] at here
      obtain ⟨p, share, rfl⟩ := List.mem_map.mp here
      have present : (ps.reverse.lookup p.1).isSome :=
        List.lookup_isSome_iff.mpr ⟨p, by simpa using share, by simp⟩
      obtain ⟨e, found⟩ := Option.isSome_iff_exists.mp present
      exact ⟨e, by simp [Netlist.given, behind, shares, found]⟩

section

variable (settings log) (sharing : Sharing K g.nextNode) (inside : ∀ e ∈ bodyExprs statements, e ∈ K)
  (named : g.Named) (free : ∀ leaf ∈ outputs, g.Free leaf) (clear : Block.Clear g outputs statements)
  (same : Block.outputSet g statements = outputs)

include free clear same

theorem clear_outputs : ∃ list, Block.outputs g statements = .ok list ∧ list.toFinset = outputs ∧
    ∀ leaf ∈ list, g.Free leaf := by
  obtain ⟨list, found⟩ := plain_outputs clear.plain
  have members : list.toFinset = outputs :=
    Finset.ext fun leaf => by rw [List.mem_toFinset, ← mem_outputSet found, same]
  exact ⟨list, found, members, fun leaf listed => free leaf (members ▸ List.mem_toFinset.mpr listed)⟩

include sharing inside named

theorem clear_accepts (all : outputs ⊆ bodyAssigns g statements ∅) : ∃ list s,
    Block.compile settings statements ⟨g, log⟩ = (.ok ⟨list, bodyCount statements⟩, s) ∧
      list.toFinset = outputs := by
  obtain ⟨list, found, members, free⟩ := clear_outputs free clear same
  have flow : Block.DefinitelyAssigned g statements := ⟨same.symm ▸ clear.backed ∅, same ▸ all⟩
  obtain ⟨plan, t, planned⟩ := plain_planned settings log sharing inside found
    clear.plain named (fun leaf listed => free_width (free leaf listed)) clear.stable clear.written flow
  obtain ⟨s, accepted⟩ := compile_accepts found free sharing inside planned
  exact ⟨list, s, accepted, members⟩

/-- Where a way through the text assigns nothing, outputs are left as latches. -/
theorem clear_latches (idle : [] ∈ bodyPaths statements) (some : outputs.Nonempty) : ∃ signal read s,
    Block.compile settings statements ⟨g, log⟩ = (.error (.unassignedRead signal read), s) := by
  obtain ⟨list, found, members, free⟩ := clear_outputs free clear same
  obtain ⟨final, t, ran, -⟩ := plain_replays settings log sharing inside found clear.plain
  have early : Block.ReadsEarly g statements list := .path [] idle (members.symm ▸ some)
  exact early_latches sharing inside named found free clear.stable ran early

end

/-- A driver that a block got still drives its leaf behind every later pass. -/
theorem settled_driver {w w' : World} {builder : Builder} {s : Session} {block : BlockSummary}
    (reachable : w.Reachable) (allowed : w.Allows (.compile settings log builder))
    (accepted : builder.compile settings ⟨w.netlist, log⟩ = (.ok block, s))
    (later : (w.call (.compile settings log builder)).Leads w') {report : PassReport} {h : Netlist}
    (settled : settle w'.netlist = (.ok report, h)) {id : LeafId} {leaf : Leaf}
    (found : s.netlist.leaves.get? id = some leaf) (driven : leaf.drive = .driven e) :
    ∃ v, h.value id = .ok v ∧ e.value h.env = .ok v := by
  have after : (w.call (.compile settings log builder)).netlist = s.netlist :=
    congrArg (fun r => r.2.netlist) accepted
  obtain ⟨M, kept⟩ := reachable_kept (reachable_call reachable allowed)
  obtain ⟨N, kept'⟩ := leads_kept later kept
  have passed : (w.call (.compile settings log builder)).Leads ⟨h, w'.made⟩ :=
    later.tail ⟨.settle, trivial, by simp only [World.call, World.edit, settled]⟩
  obtain ⟨leaf', found', -, drive⟩ := (leads_lasts passed kept).leaf id leaf (after ▸ found)
  have value := (settled_up_to_date kept' settled id leaf' e found' (drive e driven) (by simp)).1
  exact ⟨_, value_ok found', value⟩

/-- The condition of a chain without branches. -/
theorem literal_guard (g : Netlist) (outputs : Finset LeafId) (n : Nat) :
    g.Guard outputs (.literal n (.ofBool true)) := by
  have fixed : (Expr.literal n (.ofBool true)).Fixed g.declared 1 := by
    constructor <;> simp [Expr.natural, Expr.fitted, Value.ofBool, Value.ofBit, Value.width]
  have sized := fixed_sized fixed (some 1)
  refine ⟨by rw [sized]; rfl, fun r found => ?_, all_iff.mpr ⟨rfl, by simp [children]⟩,
    all_iff.mpr ⟨by simp [target?], by simp [children]⟩⟩
  obtain rfl := Option.some.inj (sized.symm.trans found)
  exact fixed

/-- The outputs of compiled branches have what the picked body says, behind every later pass. -/
theorem chain_settles {w w' : World} {builder : Builder} {s : Session} {block : BlockSummary}
    (reachable : w.Reachable) (allowed : w.Allows (.compile settings log builder))
    (written : builder.run w.netlist = (.ok (nest (assignAll otherwise)
      (branches.map fun p => (p.1, assignAll p.2))), g))
    (chain : Block.Chain g branches otherwise outputs)
    (accepted : builder.compile settings ⟨w.netlist, log⟩ = (.ok block, s))
    (same : block.outputs.toFinset = outputs)
    (later : (w.call (.compile settings log builder)).Leads w') {report : PassReport} {h : Netlist}
    (settled : settle w'.netlist = (.ok report, h)) {σ : Store}
    (picked : Scene.pick ⟨g, h.env, []⟩ σ otherwise branches = some body) {leaf : LeafId}
    (output : leaf ∈ outputs) : ∃ e v, g.given leaf body = some e ∧
      Scene.value ⟨g, h.env, []⟩ σ e = some v ∧ h.value leaf = .ok v := by
  obtain ⟨K, sharing, -, inside⟩ := allowed _ g written
  obtain ⟨drivers, checks, L, compiled⟩ := compile_compiled written sharing inside accepted
  have listed : leaf ∈ block.outputs := List.mem_toFinset.mp (same ▸ output)
  obtain ⟨entry, driver, found, driven, offered⟩ := compiled_driver compiled listed
  obtain ⟨v, holds, value⟩ := settled_driver reachable allowed accepted later settled found driven
  obtain ⟨L', start, final, replayed, L'', each⟩ :=
    passes_replayed sharing inside compiled.found compiled.passes
  obtain ⟨leaf', -, made⟩ := forall₂_right each (leaf, driver) offered
  obtain rfl : leaf = leaf' := made.own
  have sound : ∀ body, body = otherwise ∨ (∃ p ∈ branches, body = p.2) → g.Branch outputs body := by
    rintro body (rfl | ⟨p, given, rfl⟩)
    · exact chain.last
    · exact chain.bodies p given
  have branch := sound body (pick_mem picked)
  obtain ⟨e, given⟩ := given_isSome body branch.each (branch.all.symm ▸ output)
  have unbound : ∀ leaf, leaf ∉ outputs → start.get? leaf = none := fun leaf outside => by
    rwa [OrderedMap.get?_eq_none, replayed.keys, ← List.mem_toFinset, same]
  have values : ∀ body, body = otherwise ∨ (∃ p ∈ branches, body = p.2) →
      ∀ a ∈ body, g.Avoids outputs a.2 ∧ g.leafSet a.1 ⊆ outputs := fun body given a listed => by
    have branch := sound body given
    refine ⟨(branch.each a listed).avoids, branch.all ▸ ?_⟩
    exact Finset.subset_biUnion_of_mem g.leafSet (List.mem_toFinset.mpr (List.mem_map_of_mem listed))
  have entry : (final.entry leaf).value h.env = .ok v := (value_alike made.entry).symm.trans value
  exact ⟨e, v, given, nest_value replayed.traces (fun p listed => (chain.guards p listed).avoids) values
    unbound picked (replayed.keys ▸ listed) (outputs_assigned each leaf listed) given entry, holds⟩

end

/-- Chains take the first branch that holds. -/
theorem chain_means {w : World} {settings : BlockSettings} {log : Option DiagnosticLog}
    {builder : Builder} {g : Netlist} {branches : List (Expr × List (Ref × Expr))}
    {otherwise : List (Ref × Expr)} {outputs : Finset LeafId} {n : Nat} (reachable : w.Reachable)
    (allowed : w.Allows (.compile settings log builder))
    (written : builder.run w.netlist = (.ok [.chain branches otherwise n], g))
    (chain : Block.Chain g branches otherwise outputs) :
    (branches ≠ [] ∨ outputs = ∅ → ∃ block s,
      builder.compile settings ⟨w.netlist, log⟩ = (.ok block, s) ∧ block.outputs.toFinset = outputs ∧
        ∀ w', (w.call (.compile settings log builder)).Leads w' → ∀ report h,
          settle w'.netlist = (.ok report, h) → ∀ σ body,
            Scene.pick ⟨g, h.env, []⟩ σ otherwise branches = some body → ∀ leaf ∈ outputs,
              ∃ e v, g.given leaf body = some e ∧ Scene.value ⟨g, h.env, []⟩ σ e = some v ∧
                h.value leaf = .ok v) ∧
      (branches = [] → outputs ≠ ∅ → ∃ signal read s,
        builder.compile settings ⟨w.netlist, log⟩ = (.error (.unassignedRead signal read), s)) := by
  obtain ⟨K, sharing, -, inside⟩ := allowed _ g written
  have named : g.Named := by simpa [written] using run_named reachable builder
  cases branches with
  | nil =>
    have form : Stmt.chain [] otherwise n =
        .ifElse (.literal n (.ofBool true)) (assignAll otherwise) [] := rfl
    rw [form] at written inside
    have clear := clear_choice (literal_guard g outputs n) (clear_assigns chain.last.each) clear_nil
    have same : Block.outputSet g [.ifElse (.literal n (.ofBool true)) (assignAll otherwise) []] =
        outputs := by
      rw [outputSet_choice, outputSet_assigns, chain.last.all]
      exact Finset.union_empty outputs
    rw [compile_written written]
    refine ⟨fun none => ?_, fun _ some => ?_⟩
    · obtain rfl : outputs = ∅ := none.resolve_left (by simp)
      obtain ⟨list, s, accepted, leaves⟩ := clear_accepts settings log sharing
        inside named chain.free clear same (Finset.empty_subset _)
      exact ⟨_, s, accepted, leaves, by simp⟩
    · exact clear_latches settings log sharing inside named chain.free clear same
        (by simp [bodyPaths, paths]) (Finset.nonempty_iff_ne_empty.mpr some)
  | cons p rest =>
    have form : [Stmt.chain (p :: rest) otherwise n] = nest (assignAll otherwise)
        ((p :: rest).map fun p => (p.1, assignAll p.2)) := by
      simp only [Stmt.chain, List.map_cons, elseIfs_nest, nest]
      rfl
    rw [form] at written inside
    obtain ⟨list, s, accepted, leaves⟩ := clear_accepts settings log sharing
      inside named chain.free (clear_nest chain.guards chain.bodies chain.last)
      (outputSet_nest chain.bodies chain.last) (nest_assigns chain.bodies chain.last ∅)
    rw [← compile_written written] at accepted
    refine ⟨fun _ => ⟨_, s, accepted, leaves, ?_⟩, fun none => by simp at none⟩
    intro w' later report h settled σ body picked leaf output
    exact chain_settles reachable allowed written chain accepted leaves later settled picked output

/-- Two branches, of which the second one holds. -/
theorem second_branch_means : ∃ (w w' : World) (builder : Builder) (report : PassReport) (h : Netlist),
    w.Reachable ∧ (w.call (.compile {} none builder)).Leads w' ∧
      settle w'.netlist = (.ok report, h) ∧ h.value 2 = .ok (.ofBool true) := by
  let branches : List (Expr × List (Ref × Expr)) :=
    [(.signal 0 0, [(.leaf 2, .literal 2 (.ofBool false))]),
      (.signal 1 1, [(.leaf 2, .literal 3 (.ofBool true))])]
  let otherwise : List (Ref × Expr) := [(.leaf 2, .literal 4 (.unknown 1))]
  let builder : Builder := .number fun _ => .number fun _ => .number fun _ => .number fun _ =>
    .number fun n => .block [.chain branches otherwise (n + 1)]
  let declared : List Call :=
    [.leaf "a" (.ofBool false), .leaf "b" (.unknown 1), .leaf "y" (.unknown 1)]
  let w := (World.empty 10).after declared
  let g := (builder.run w.netlist).2
  let w₁ := w.call (.compile {} none builder)
  let w' := w₁.after [.settle, .force 1 (.ofBool true)]
  have reachable : w.Reachable := ⟨10, World.leads_after _ declared (by decide +kernel)⟩
  have later : w₁.Leads w' := World.leads_after _ _ (by decide +kernel)
  have written : builder.run w.netlist = (.ok [.chain branches otherwise 5], g) := rfl
  have chain : Block.Chain g branches otherwise {2} := by decide +kernel
  have passes : (settle w'.netlist).1.toOption.isSome := by decide +kernel
  obtain ⟨report, passed⟩ := Option.isSome_iff_exists.mp passes
  have settled := run_of_toOption passed
  have allowed : w.Allows (.compile {} none builder) := by decide +kernel
  obtain ⟨block, s, -, -, means⟩ :=
    (chain_means reachable allowed written chain).1 (.inl (by simp [branches]))
  have picked : Scene.pick ⟨g, (settle w'.netlist).2.env, []⟩ (fun _ => .unknown 1) otherwise branches =
      some [(.leaf 2, .literal 3 (.ofBool true))] := by decide +kernel
  obtain ⟨e, v, given, value, holds⟩ := means w' later report _ settled _ _ picked 2 (by simp)
  have last : g.given 2 [(.leaf 2, .literal 3 (.ofBool true))] = some (.literal 3 (.ofBool true)) := by
    decide +kernel
  obtain rfl := Option.some.inj (given.symm.trans last)
  obtain rfl : v = .ofBool true := (Option.some.inj value).symm
  exact ⟨w, w', builder, report, _, reachable, later, settled, holds⟩

/-- A chain without branches over a free leaf, and a chain of one branch that assigns a leaf as it is
    before it is assigned. -/
theorem empty_chain_rejected : ∃ (w : World) (builder builder' : Builder) (g g' : Netlist),
    w.Reachable ∧
      (w.Allows (.compile {} none builder) ∧
        builder.run w.netlist = (.ok [.chain [] [(.leaf 0, .literal 0 (.ofBool true))] 1], g) ∧
          Block.Chain g [] [(.leaf 0, .literal 0 (.ofBool true))] {0} ∧
            (builder.compile {} ⟨w.netlist, none⟩).1 = .error (.unassignedRead "y" "y")) ∧
      w.Allows (.compile {} none builder') ∧
        builder'.run w.netlist = (.ok [.chain [(.signal 0 1, [(.leaf 0, .unassigned 1 0)])]
          [(.leaf 0, .literal 2 (.ofBool true))] 3], g') ∧
          (builder'.compile {} ⟨w.netlist, none⟩).1 = .error (.unassignedRead "y" "y") := by
  let builder : Builder := .number fun n => .number fun m =>
    .block [.chain [] [(.leaf 0, .literal n (.ofBool true))] m]
  let builder' : Builder := .number fun c => .number fun n => .number fun m =>
    .block [.chain [(.signal c 1, [(.leaf 0, .unassigned n 0)])]
      [(.leaf 0, .literal m (.ofBool true))] (m + 1)]
  let declared : List Call := [.leaf "y" (.unknown 1), .leaf "a" (.ofBool false)]
  let w := (World.empty 10).after declared
  have reachable : w.Reachable := ⟨10, World.leads_after _ declared (by decide +kernel)⟩
  exact ⟨w, builder, builder', _, _, reachable,
    ⟨by decide +kernel, rfl, by decide +kernel, by decide +kernel⟩, by decide +kernel, rfl,
    by decide +kernel⟩

end CombLogic
