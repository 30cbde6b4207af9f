import CombLogic.Proofs.Block.Atomic
import CombLogic.Proofs.Netlist.Edits
import CombLogic.Proofs.Shared

/- Every call on a netlist, in any order, whether it succeeds or not. All of them keep what a netlist
   keeps, so it holds in every world that comes about from an empty one. -/
namespace CombLogic

open Expr Netlist Stmt

inductive Call where
  | leaf (name : String) (init : Value)
  | bundle (name : String) (elements : List Ref)
  | clone (id : BundleId) (name : String)
  | subscribe (id : LeafId)
  /-- Takes the number of a new expression node. -/
  | number
  | connect (target : Ref) (e : Expr)
  | wire (target source : Ref)
  | force (id : LeafId) (value : Value)
  | forceWhole (target : Ref) (value : Value)
  | inject (id : LeafId) (value : Value)
  | injectWhole (target : Ref) (value : Value)
  | settle
  /-- Makes a check, which is not watched yet. -/
  | check (selector : String) (conflict : Expr)
  /-- Watches a check that was made, the newest one under index 0. -/
  | watch (index : Nat)
  | compile (settings : BlockSettings) (log : Option DiagnosticLog) (builder : Builder)

namespace World

def empty (maxPassNodes : Nat) : World := ⟨.empty maxPassNodes, []⟩

def edit {α : Type} (w : World) (e : Edit α) : World := { w with netlist := (e w.netlist).2 }

def makeCheck (w : World) (selector : String) (conflict : Expr) : World :=
  match Edit.build (·.conflictCheck selector conflict) w.netlist with
  | (.ok check, g) => ⟨g, check :: w.made⟩
  | (.error _, g) => ⟨g, w.made⟩

def watchMade (w : World) (index : Nat) : World :=
  match w.made[index]? with
  | some check => { w with netlist := (addConflictCheck check w.netlist).2 }
  | none => w

/-- The world that a call leaves behind. -/
def call (w : World) : Call → World
  | .leaf name init => { w with netlist := (addLeaf name init w.netlist).2 }
  | .bundle name elements => { w with netlist := (addBundle name elements w.netlist).2 }
  | .clone id name => w.edit (cloneBundle id name)
  | .subscribe id => w.edit (Netlist.subscribe id)
  | .number => w.edit (Edit.build fun _ => Build.number)
  | .connect target e => w.edit (Netlist.connect target e)
  | .wire target source => w.edit (Netlist.wire target source)
  | .force id v => w.edit (Netlist.force id v)
  | .forceWhole target v => w.edit (Netlist.forceWhole target v)
  | .inject id v => w.edit (Netlist.inject id v)
  | .injectWhole target v => w.edit (Netlist.injectWhole target v)
  | .settle => w.edit Netlist.settle
  | .check selector conflict => w.makeCheck selector conflict
  | .watch index => w.watchMade index
  | .compile settings log builder =>
    { w with netlist := (builder.compile settings ⟨w.netlist, log⟩).2.netlist }

/-- Expressions whose numbers were all given out, one to each node, also among those that the world
    holds. -/
def Shares (w : World) (next : Nat) (es : List Expr) : Prop :=
  ∃ K, Sharing K next ∧ w.netlist.exprs w.made ⊆ K ∧ ∀ e ∈ es, e ∈ K

/-- The same for what a builder writes. -/
def Writes (w : World) (builder : Builder) : Prop :=
  ∀ statements g, builder.run w.netlist = (.ok statements, g) →
    w.Shares g.nextNode (bodyExprs statements)

/-- The expressions of a call are built from numbered nodes. No call asks for more than that. -/
def Allows (w : World) : Call → Prop
  | .connect _ e | .check _ e => w.Shares w.netlist.nextNode [e]
  | .compile _ _ builder => w.Writes builder
  | _ => True

/-- One world comes about from another by calls. -/
def Leads : World → World → Prop :=
  Relation.ReflTransGen fun w w' => ∃ c, w.Allows c ∧ w.call c = w'

def Reachable (w : World) : Prop := ∃ limit, (empty limit).Leads w

/-- The expressions of the drivers and of the checks. -/
def held (w : World) : List Expr :=
  ((List.range w.netlist.leaves.size).filterMap fun id => do
    (← w.netlist.leaves.get? id).drive.driver?) ++
    (w.netlist.checks.toList ++ w.made).map (·.conflict)

theorem mem_held (w : World) (e : Expr) : e ∈ w.held ↔ e ∈ w.netlist.exprs w.made := by
  unfold held
  rw [List.mem_append, List.mem_filterMap, List.mem_map]
  refine or_congr ⟨?_, ?_⟩ Iff.rfl
  · rintro ⟨id, -, found⟩
    obtain ⟨leaf, there, driver⟩ := Option.bind_eq_some_iff.mp found
    exact ⟨id, leaf, there, driver?_eq_some.mp driver⟩
  · rintro ⟨id, leaf, there, driven⟩
    exact ⟨id, List.mem_range.mpr (w.netlist.leaves.lt_size id there),
      Option.bind_eq_some_iff.mpr ⟨leaf, there, driver?_eq_some.mpr driven⟩⟩

theorem shares_iff (w : World) (next : Nat) (es : List Expr) :
    w.Shares next es ↔ WellNumbered (w.held ++ es) next := by
  rw [wellNumbered_iff]
  refine exists_congr fun K => and_congr_right fun _ => ?_
  simp only [List.mem_append, or_imp, forall_and, mem_held]
  exact Iff.rfl

instance (w : World) (next : Nat) (es : List Expr) : Decidable (w.Shares next es) :=
  decidable_of_iff _ (w.shares_iff next es).symm

theorem writes_ok {w : World} {builder : Builder} {statements : List Stmt} {g : Netlist}
    (run : builder.run w.netlist = (.ok statements, g)) :
    w.Writes builder ↔ w.Shares g.nextNode (bodyExprs statements) := by
  constructor
  · exact fun writes => writes statements g run
  · intro shares statements' g' run'
    cases run.symm.trans run'
    exact shares

theorem writes_error {w : World} {builder : Builder} {e : NetlistError} {g : Netlist}
    (run : builder.run w.netlist = (.error e, g)) : w.Writes builder := by
  intro statements g' run'
  cases run.symm.trans run'

instance (w : World) (builder : Builder) : Decidable (w.Writes builder) :=
  match run : builder.run w.netlist with
  | (.ok _, _) => decidable_of_iff _ (writes_ok run).symm
  | (.error _, _) => isTrue (writes_error run)

instance : (w : World) → (c : Call) → Decidable (w.Allows c)
  | w, .connect _ e => inferInstanceAs (Decidable (w.Shares _ [e]))
  | w, .check _ e => inferInstanceAs (Decidable (w.Shares _ [e]))
  | w, .compile _ _ builder => inferInstanceAs (Decidable (w.Writes builder))
  | _, .leaf .. | _, .bundle .. | _, .clone .. | _, .subscribe .. | _, .number | _, .wire ..
  | _, .force .. | _, .forceWhole .. | _, .inject .. | _, .injectWhole .. | _, .settle
  | _, .watch .. => inferInstanceAs (Decidable True)

/-- Calls one after the other. -/
def after (w : World) (calls : List Call) : World := calls.foldl call w

def AllowsAll : World → List Call → Prop
  | _, [] => True
  | w, c :: rest => w.Allows c ∧ (w.call c).AllowsAll rest

instance decidableAllowsAll : (w : World) → (calls : List Call) → Decidable (w.AllowsAll calls)
  | _, [] => inferInstanceAs (Decidable True)
  | w, c :: rest =>
    have : Decidable ((w.call c).AllowsAll rest) := decidableAllowsAll (w.call c) rest
    inferInstanceAs (Decidable (w.Allows c ∧ (w.call c).AllowsAll rest))

theorem leads_after (w : World) (calls : List Call) (allowed : w.AllowsAll calls) :
    w.Leads (w.after calls) := by
  induction calls generalizing w with
  | nil => exact .refl
  | cons c rest ih => exact .head ⟨c, allowed.1, rfl⟩ (ih (w.call c) allowed.2)

end World

section

variable {w w' : World} {K L : Set Expr}

theorem sharing_inter {next later : Nat} (left : Sharing K next) (right : Sharing L later) :
    Sharing (K ∩ L) next where
  operands e member a operand :=
    ⟨left.operands e member.1 a operand, right.operands e member.2 a operand⟩
  one_node a here b there same := left.one_node a here.1 b there.1 same
  numbered e member := left.numbered e member.1

/-- What is kept can be seen in any well-shared set. -/
theorem kept_within (kept : w.Kept K) (sharing : Sharing L w.netlist.nextNode)
    (sub : w.netlist.exprs w.made ⊆ L) : w.Kept L :=
  kept_extends kept (.refl _) sharing sub

theorem moves_build (kept : w.Kept K) :
    ∃ L, Moves ⟨w, K⟩ ⟨w.edit (Edit.build fun _ => Build.number), L⟩ :=
  ⟨K, .single (.number subset_rfl (kept.sharing.later (Nat.le_succ _)))⟩

theorem moves_makeCheck (kept : w.Kept K) (selector : String) {e : Expr} (member : e ∈ K) :
    ∃ L, Moves ⟨w, K⟩ ⟨w.makeCheck selector e, L⟩ := by
  unfold World.makeCheck
  cases built : w.netlist.conflictCheck selector e w.netlist.nextNode with
  | error x =>
    simp only [Edit.build, built]
    exact ⟨K, .refl⟩
  | ok r =>
    obtain ⟨check, next⟩ := r
    obtain ⟨L, sub, shared, good, -⟩ :=
      conflictCheck_makes kept.sharing member selector K subset_rfl _ _ _ kept.sharing built
    simp only [Edit.build, built]
    refine ⟨L, (Relation.ReflTransGen.single (.number sub shared)).trans (.single (.make ?_))⟩
    exact goodCheck_leaves (by rfl) good

theorem moves_watchMade (kept : w.Kept K) (index : Nat) :
    ∃ L, Moves ⟨w, K⟩ ⟨w.watchMade index, L⟩ := by
  unfold World.watchMade
  split
  · rename_i check found
    have listed := List.mem_of_getElem? found
    exact ⟨K, .single (.watch (kept.checks check (List.mem_append_right _ listed)))⟩
  · exact ⟨K, .refl⟩

theorem moves_extends {g g' : Netlist} {made : List ConflictCheck} (extended : Extends g g')
    (sub : K ⊆ L) (sharing : Sharing L g'.nextNode) : Moves ⟨⟨g, made⟩, K⟩ ⟨⟨g', made⟩, L⟩ := by
  have declared : Moves ⟨⟨g, made⟩, K⟩ ⟨⟨{ g' with nextNode := g.nextNode }, made⟩, K⟩ :=
    .single (.extend (extended.trans (.renumber _ _)) rfl)
  exact declared.tail (.number sub sharing)

theorem moves_watchAll (checks : List ConflictCheck) {g : Netlist} {made : List ConflictCheck}
    (good : ∀ check ∈ checks, g.GoodCheck K check) :
    Moves ⟨⟨g, made⟩, K⟩ ⟨⟨{ g with checks := g.checks ++ checks.toArray }, made⟩, K⟩ := by
  induction checks generalizing g with
  | nil => simpa using Relation.ReflTransGen.refl
  | cons check rest ih =>
    have joined : g.checks ++ (check :: rest).toArray = g.checks.push check ++ rest.toArray := by
      simp
    rw [joined]
    refine .head (.watch (good check (by simp))) (ih fun other later => ?_)
    exact goodCheck_leaves (by rfl) (good other (by simp [later]))

/-- An accepted block is attached by small changes. -/
theorem moves_compiled {settings : BlockSettings} {g h : Netlist} {made : List ConflictCheck}
    {statements : List Stmt} {outputs : List LeafId} {drivers : List (LeafId × Expr)}
    {checks : List ConflictCheck}
    (compiled : Compiled settings g K statements outputs drivers checks L h) :
    Moves ⟨⟨g, made⟩, K⟩ ⟨⟨h, made⟩, L⟩ := by
  have planned := compiled.planned
  have leaves : drivers.map Prod.fst = outputs := planned.leaves
  have attached := attached_renumber compiled.attached h.nextNode
  refine Relation.ReflTransGen.head (.number compiled.sub compiled.sharing) ?_
  refine .head (.attach attached (fun p listed => ?_) (fun p listed => ?_) ?_) ?_
  · exact compiled.free p.1 (leaves ▸ List.mem_map_of_mem listed)
  · obtain ⟨fit, width, drives⟩ := planned.drivers p listed
    obtain ⟨leaf, found, rfl⟩ := leaf_width drives.declared
    exact driverFor_leaves (by rfl) ⟨fit.1, leaf, found, drives_checked drives⟩
  · exact agree_nodup (leaves ▸ outputs_nodup compiled.found)
  · have watched : Moves ⟨⟨{ h with checks := g.checks }, made⟩, L⟩
        ⟨⟨{ h with checks := g.checks ++ checks.toArray }, made⟩, L⟩ := by
      refine moves_watchAll checks fun check listed => ?_
      obtain ⟨inside, checked, reads⟩ := planned.checks check listed
      exact ⟨inside, attached.checked (checked_leaves (by rfl) checked), reads⟩
    rw [← compiled.checks] at watched
    exact watched

/-- What compiling leaves: what the builder left, or a block over it. -/
theorem call_compiles {settings : BlockSettings} {log : Option DiagnosticLog} {builder : Builder}
    (allowed : w.Allows (.compile settings log builder)) :
    (w.call (.compile settings log builder)).netlist = (builder.run w.netlist).2 ∨
      ∃ statements g K outputs drivers checks L, builder.run w.netlist = (.ok statements, g) ∧
        Sharing K g.nextNode ∧ w.netlist.exprs w.made ⊆ K ∧
          Compiled settings g K statements outputs drivers checks L
            (w.call (.compile settings log builder)).netlist := by
  have shared : builder.Shared w.netlist := by
    intro statements g run
    obtain ⟨K, sharing, -, inside⟩ := allowed statements g run
    exact ⟨K, sharing, inside⟩
  obtain ⟨result, s', done⟩ : ∃ result s', builder.compile settings ⟨w.netlist, log⟩ = (result, s') :=
    ⟨_, _, rfl⟩
  simp only [World.call, done]
  cases result with
  | error e => exact .inl (compile_rejected shared done)
  | ok block =>
    obtain ⟨statements, written, -⟩ := compile_accepted shared done
    have run : builder.run w.netlist = (.ok statements, (builder.run w.netlist).2) :=
      Prod.ext written rfl
    obtain ⟨K, sharing, sub, inside⟩ := allowed _ _ run
    obtain ⟨drivers, checks, L, compiled⟩ := compile_compiled run sharing inside done
    exact .inr ⟨_, _, K, _, drivers, checks, L, run, sharing, sub, compiled⟩

theorem moves_compile (kept : w.Kept K) {settings : BlockSettings} {log : Option DiagnosticLog}
    {builder : Builder} (allowed : w.Allows (.compile settings log builder)) :
    ∃ K', w.Kept K' ∧ ∃ L, Moves ⟨w, K'⟩ ⟨w.call (.compile settings log builder), L⟩ := by
  have extended := run_extends builder w.netlist
  rcases call_compiles allowed with same |
    ⟨statements, g, L, outputs, drivers, checks, M, run, sharing, sub, compiled⟩
  · have left : w.call (.compile settings log builder) = ⟨(builder.run w.netlist).2, w.made⟩ :=
      congrArg (World.mk · w.made) same
    rw [left]
    exact ⟨K, kept, K, moves_extends extended subset_rfl
      (kept.sharing.later (run_later builder w.netlist))⟩
  · rw [run] at extended
    have common := kept_within kept (sharing_inter kept.sharing sharing)
      (Set.subset_inter (kept_exprs kept) sub)
    have prepared : Moves ⟨w, K ∩ L⟩ ⟨⟨g, w.made⟩, L⟩ :=
      moves_extends extended Set.inter_subset_right sharing
    exact ⟨K ∩ L, common, M, prepared.trans (moves_compiled compiled)⟩

/-- A call is made of small changes. -/
theorem call_moves (kept : w.Kept K) {c : Call} (allowed : w.Allows c) :
    ∃ K', w.Kept K' ∧ ∃ L, Moves ⟨w, K'⟩ ⟨w.call c, L⟩ := by
  have still : ∀ {w' : World}, (∃ L, Moves ⟨w, K⟩ ⟨w', L⟩) →
      ∃ K', w.Kept K' ∧ ∃ L, Moves ⟨w, K'⟩ ⟨w', L⟩ := fun moves => ⟨K, kept, moves⟩
  cases c with
  | leaf name init =>
    exact still (moving_declaring (declaring_addLeaf name init) _ _ K kept)
  | bundle name elements =>
    exact still (moving_declaring (declaring_addBundle name elements) _ _ K kept)
  | clone id name => exact still (moving_declaring (declaring_cloneBundle id name) _ _ K kept)
  | subscribe id => exact still (moving_subscribe id _ _ K kept)
  | number => exact still (moves_build kept)
  | connect target e =>
    obtain ⟨L, sharing, sub, inside⟩ := allowed
    exact ⟨L, kept_within kept sharing sub, moves_connect sharing (inside e (by simp)) target⟩
  | wire target source => exact still (moving_wire target source _ _ K kept)
  | force id v => exact still (moving_force id v _ _ K kept)
  | forceWhole target v => exact still (moving_forceWhole target v _ _ K kept)
  | inject id v => exact still (moving_inject id v _ _ K kept)
  | injectWhole target v => exact still (moving_injectWhole target v _ _ K kept)
  | settle => exact still (moving_settle _ _ K kept)
  | check selector conflict =>
    obtain ⟨L, sharing, sub, inside⟩ := allowed
    have shared := kept_within kept sharing sub
    exact ⟨L, shared, moves_makeCheck shared selector (inside conflict (by simp))⟩
  | watch index => exact still (moves_watchMade kept index)
  | compile settings log builder => exact moves_compile kept allowed

theorem call_kept (kept : w.Kept K) {c : Call} (allowed : w.Allows c) : ∃ L, (w.call c).Kept L := by
  obtain ⟨K', kept', L, moves⟩ := call_moves kept allowed
  exact ⟨L, moves_kept moves kept'⟩

theorem leads_kept (leads : w.Leads w') (kept : w.Kept K) : ∃ L, w'.Kept L := by
  induction leads with
  | refl => exact ⟨K, kept⟩
  | tail _ step ih =>
    obtain ⟨L, kept'⟩ := ih
    obtain ⟨c, allowed, rfl⟩ := step
    exact call_kept kept' allowed

theorem reachable_kept (reachable : w.Reachable) : ∃ K, w.Kept K := by
  obtain ⟨limit, leads⟩ := reachable
  exact leads_kept leads (kept_empty limit)

theorem reachable_call (reachable : w.Reachable) {c : Call} (allowed : w.Allows c) :
    (w.call c).Reachable := by
  obtain ⟨limit, leads⟩ := reachable
  exact ⟨limit, leads.tail ⟨c, allowed, rfl⟩⟩

/-- What every small change keeps holds after calls if it held before. -/
theorem leads_keeps {p : Netlist → Prop} (step : ∀ {s s' : Stage}, Move s s' →
    s.world.Kept s.known → p s.world.netlist → p s'.world.netlist) (leads : w.Leads w')
    (kept : w.Kept K) (start : p w.netlist) : p w'.netlist := by
  have run : ∀ {s s' : Stage}, Moves s s' → s.world.Kept s.known → p s.world.netlist →
      p s'.world.netlist := by
    intro s s' moves before start
    induction moves with
    | refl => exact start
    | tail earlier move ih => exact step move (moves_kept earlier before) ih
  induction leads with
  | refl => exact start
  | tail before call ih =>
    obtain ⟨L, between⟩ := leads_kept before kept
    obtain ⟨c, allowed, rfl⟩ := call
    obtain ⟨K', kept', M, moves⟩ := call_moves between allowed
    exact run moves kept' ih

/-- It holds in every world if it holds in the empty ones. -/
theorem reachable_keeps {p : Netlist → Prop} (step : ∀ {s s' : Stage}, Move s s' →
    s.world.Kept s.known → p s.world.netlist → p s'.world.netlist)
    (start : ∀ limit, p (.empty limit)) (reachable : w.Reachable) : p w.netlist := by
  obtain ⟨limit, leads⟩ := reachable
  exact leads_keeps step leads (kept_empty limit) (start limit)

theorem leads_lasts (leads : w.Leads w') (kept : w.Kept K) : Lasts w.netlist w'.netlist :=
  leads_keeps (fun move before lasts => lasts_trans lasts (move_lasts move before)) leads kept
    (lasts_refl _)

theorem reachable_leads (reachable : w.Reachable) (leads : w.Leads w') : w'.Reachable := by
  obtain ⟨limit, before⟩ := reachable
  exact ⟨limit, before.trans leads⟩

end

end CombLogic
