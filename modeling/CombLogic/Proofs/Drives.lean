import CombLogic.Proofs.Calls
import CombLogic.Proofs.Netlist.Checks
import CombLogic.Proofs.Netlist.Failures
import CombLogic.Proofs.Netlist.Turns

/- What holds of a netlist between any two calls: readers are those who read, what is staged can be
   forced, what waits is driven, and drivers are sized. No call turns a leaf but from undriven, so a
   driver stays for good and a root never gets one. -/
namespace CombLogic

open Expr Netlist

namespace Netlist

/-- What a netlist says of itself is right. -/
structure Consistent (g : Netlist) : Prop where
  readers : ∀ d id, id ∈ g.readersOf d ↔ g.DependsOn id d
  staged : ∀ id value, g.staged.get? id = some value → ∃ leaf, g.leaves.get? id = some leaf ∧
    (leaf.drive = .undriven ∨ leaf.drive = .root) ∧ value.width = leaf.width
  dirty : ∀ id ∈ g.dirty.keys, ∃ leaf e, g.leaves.get? id = some leaf ∧ leaf.drive = .driven e
  drivers : ∀ id leaf e, g.leaves.get? id = some leaf → leaf.drive = .driven e →
    e.Integerless ∧ e.Resolved
  /-- New checks are the ones from some number on. -/
  checks : g.oldChecks ≤ g.checks.size
  reads : ∀ check ∈ g.checks, ∀ d, d ∈ check.reads ↔ check.conflict.Reads d

theorem isDriven_false {drive : Drive} (input : drive.isDriven = false) :
    drive = .undriven ∨ drive = .root := by
  cases drive <;> simp_all [Drive.isDriven]

theorem kept_consistent {g : Netlist} {made : List ConflictCheck} {K : Set Expr}
    (kept : g.Kept made K) (linked : g.Linked) (evaluated : g.Evaluated) : g.Consistent where
  readers d id := readersOf_iff kept linked id d
  staged id value waits := by
    obtain ⟨leaf, found, input, width⟩ := kept.staged id value waits
    exact ⟨leaf, found, isDriven_false input, width⟩
  dirty := linked.waiting
  drivers id leaf e found driven := by
    obtain ⟨-, checked⟩ := kept.driver id leaf e found driven
    exact ⟨checked.integerless, checked.resolved⟩
  checks := evaluated.old
  reads check listed d := by
    have good := kept.checks check (List.mem_append_left _ (Array.mem_toList_iff.mpr listed))
    rw [good.reads, mem_signals kept.sharing good.inside]

end Netlist

theorem reachable_linked {w : World} (reachable : w.Reachable) : w.netlist.Linked := by
  refine reachable_keeps move_linked (fun limit => ⟨?_, ?_⟩) reachable
  · simp [readersOf, Netlist.empty]
  · simp [Netlist.empty, OrderedSet.empty]

theorem reachable_consistent {w : World} (reachable : w.Reachable) : w.netlist.Consistent := by
  obtain ⟨K, kept⟩ := reachable_kept reachable
  exact kept_consistent kept (reachable_linked reachable) (reachable_evaluated reachable)

namespace Call

/-- Calls that put drivers in their places. -/
def connects : Call → Bool
  | connect .. | wire .. | compile .. => true
  | _ => false

/-- A call runs a pass from a netlist, once it has staged what there was to stage. -/
def PassesFrom (g h : Netlist) : Call → Prop
  | settle => h = g
  | inject id v => Netlist.force id v g = (.ok (), h)
  | injectWhole target v => Netlist.forceWhole target v g = (.ok (), h)
  | _ => False

/-- What an undriven leaf may turn into: a driven one by a call that connects; a root by a pass that
    goes through and for which a value of the leaf was staged. -/
def Permits (c : Call) (g g' : Netlist) (id : LeafId) (drive : Drive) : Prop :=
  (c.connects = true ∧ drive.isDriven = true) ∨
    ∃ h report, c.PassesFrom g h ∧ Netlist.settle h = (.ok report, g') ∧ h.ByPass id drive

end Call

section

variable {w w' : World} {K : Set Expr} {permitted : LeafId → Drive → Prop}

theorem declaring_turns {α : Type} {e : Edit α} (declaring : Declaring e) (g : Netlist) :
    Turns permitted g (e g).2 :=
  extends_turns (declaring _ declarative_extends g)

theorem install_turns {offer : Netlist → Numbering (Except NetlistError) (List (LeafId × Expr))}
    {g : Netlist} (sharing : Sharing K g.nextNode) (makes : Makes K (offer g) g.Offers) :
    Turns ByDriver g ((do attachAll (← Edit.build offer) : Edit Unit) g).2 := by
  rcases install_cases sharing makes with same | ⟨drivers, next, L, -, -, offers, attached⟩
  · rw [same]
    exact turns_same rfl
  · have numbered : Turns ByDriver g { g with nextNode := next } := turns_same rfl
    exact turns_trans numbered (attached_turns attached offers.1)

/-- A pass that goes through turns the staged leaves; one that fails turns none. -/
theorem settle_turns {g h : Netlist} {made : List ConflictCheck} (kept : h.Kept made K)
    (same : h.leaves = g.leaves) :
    Turns (fun id drive => ∃ report, settle h = (.ok report, (settle h).2) ∧ h.ByPass id drive) g
      (settle h).2 := by
  refine turns_trans (turns_same same) ?_
  rcases settle_cases h with ⟨x, failed, -⟩ | ⟨report, pass, done, -⟩
  · rw [failed]
    exact turns_same rfl
  · rw [done]
    exact turns_mono (fun id drive turned => ⟨report, rfl, turned⟩) (commit_turns kept pass)

theorem compile_turns {settings : BlockSettings} {log : Option DiagnosticLog}
    {builder : Builder} (allowed : w.Allows (.compile settings log builder)) :
    Turns ByDriver w.netlist (w.call (.compile settings log builder)).netlist := by
  have prepared : Turns ByDriver w.netlist (builder.run w.netlist).2 :=
    extends_turns (run_extends builder w.netlist)
  rcases call_compiles allowed with same |
    ⟨statements, g, K, outputs, drivers, checks, L, run, -, -, compiled⟩
  · exact same ▸ prepared
  · rw [run] at prepared
    refine turns_trans prepared (turns_trans (attached_turns compiled.attached ?_) (turns_same rfl))
    intro p listed
    exact compiled.free p.1 (compiled.planned.leaves ▸ List.mem_map_of_mem listed)

theorem makeCheck_leaves (w : World) (selector : String) (conflict : Expr) :
    (w.makeCheck selector conflict).netlist.leaves = w.netlist.leaves := by
  cases built : w.netlist.conflictCheck selector conflict w.netlist.nextNode <;>
    simp only [World.makeCheck, Edit.build, built]

theorem watchMade_leaves (w : World) (index : Nat) :
    (w.watchMade index).netlist.leaves = w.netlist.leaves := by
  unfold World.watchMade
  cases w.made[index]? <;> rfl

theorem byDriver_permits {c : Call} {g g' h : Netlist} (connects : c.connects = true)
    (turns : Turns ByDriver g h) : Turns (c.Permits g g') g h :=
  turns_mono (fun _ _ driven => .inl ⟨connects, driven⟩) turns

/-- Behind what was staged by a call comes its pass, if the staging went through. -/
theorem pass_permits {α : Type} {e : Edit α} {c : Call} {g : Netlist} {made : List ConflictCheck}
    (kept : (e g).2.Kept made K) (same : (e g).2.leaves = g.leaves)
    (passes : ∀ a h, e g = (.ok a, h) → c.PassesFrom g h) :
    Turns (c.Permits g ((e >>= fun _ => settle) g).2) g ((e >>= fun _ => settle) g).2 := by
  obtain ⟨result, h, run⟩ : ∃ result h, e g = (result, h) := ⟨_, _, rfl⟩
  rw [run] at kept same
  cases result with
  | error x =>
    rw [step_error run]
    exact turns_same same
  | ok a =>
    rw [step_ok run]
    refine turns_mono (fun id drive => ?_) (settle_turns kept same)
    rintro ⟨report, done, turned⟩
    exact .inr ⟨h, report, passes a h run, done, turned⟩

theorem call_turns (kept : w.Kept K) {c : Call} (allowed : w.Allows c) :
    Turns (c.Permits w.netlist (w.call c).netlist) w.netlist (w.call c).netlist := by
  cases c with
  | leaf name init => exact declaring_turns (declaring_addLeaf name init) _
  | bundle name elements => exact declaring_turns (declaring_addBundle name elements) _
  | clone id name => exact declaring_turns (declaring_cloneBundle id name) _
  | subscribe id => exact extends_turns (subscribe_extends id _).1
  | number => exact turns_same rfl
  | connect target e =>
    obtain ⟨L, sharing, -, inside⟩ := allowed
    exact byDriver_permits rfl
      (install_turns sharing (connect_offers sharing (inside e (by simp)) target))
  | wire target source =>
    exact byDriver_permits rfl (install_turns kept.sharing (wire_offers target source))
  | force id v => exact turns_same (force_leaves id v _)
  | forceWhole target v => exact turns_same (forceWhole_leaves target v _)
  | inject id v =>
    obtain ⟨L, staged⟩ := call_kept kept (c := .force id v) trivial
    exact pass_permits staged (force_leaves id v _) fun _ _ run => run
  | injectWhole target v =>
    obtain ⟨L, staged⟩ := call_kept kept (c := .forceWhole target v) trivial
    exact pass_permits staged (forceWhole_leaves target v _) fun _ _ run => run
  | settle =>
    refine turns_mono (fun id drive => ?_) (settle_turns kept rfl)
    rintro ⟨report, done, turned⟩
    exact .inr ⟨w.netlist, report, rfl, done, turned⟩
  | check selector conflict => exact turns_same (makeCheck_leaves w selector conflict)
  | watch index => exact turns_same (watchMade_leaves w index)
  | compile settings log builder => exact byDriver_permits rfl (compile_turns allowed)

/-- A driver stays for good, and a root stays a root. -/
theorem leads_drive (reachable : w.Reachable) (leads : w.Leads w') (id : LeafId) :
    (∀ e, w.netlist.driveOf id = .driven e → w'.netlist.driveOf id = .driven e) ∧
      (w.netlist.driveOf id = .root → w'.netlist.driveOf id = .root) := by
  induction leads with
  | refl => exact ⟨fun _ driven => driven, fun root => root⟩
  | tail before step ih =>
    obtain ⟨c, allowed, rfl⟩ := step
    obtain ⟨L, kept⟩ := reachable_kept (reachable_leads reachable before)
    have turns := call_turns kept allowed
    exact ⟨fun e driven => turns_driven turns (ih.1 e driven), fun root => turns_root turns (ih.2 root)⟩

/-- Between any two calls a netlist is consistent. A call turns undriven leaves only, into what it may
    turn them; so what is driven keeps its driver for good, and a root stays a root. -/
theorem drive_turns_once (reachable : w.Reachable) :
    w.netlist.Consistent ∧
      (∀ c, w.Allows c → Turns (c.Permits w.netlist (w.call c).netlist) w.netlist
        (w.call c).netlist) ∧
      ∀ w', w.Leads w' → ∀ id, (∀ e, w.netlist.driveOf id = .driven e →
        w'.netlist.driveOf id = .driven e) ∧
          (w.netlist.driveOf id = .root → w'.netlist.driveOf id = .root) := by
  obtain ⟨K, kept⟩ := reachable_kept reachable
  exact ⟨reachable_consistent reachable, fun c allowed => call_turns kept allowed,
    fun w' leads id => leads_drive reachable leads id⟩

end

deriving instance DecidableEq for Drive

/-- A leaf that is staged and then put in from outside, and one that is connected to it for good. -/
theorem copy_drives : ∃ w w' : World, w.Reachable ∧ w.netlist.Consistent ∧
    w.netlist.driveOf 0 = .undriven ∧ w.call .settle = w' ∧ w'.netlist.driveOf 0 = .root ∧
      (∃ h report, Call.settle.PassesFrom w.netlist h ∧ settle h = (.ok report, w'.netlist) ∧
        0 ∈ h.staged.keys) ∧
          ∀ w'', w'.Leads w'' → w''.netlist.driveOf 1 = .driven (.signal 0 0) := by
  let calls : List Call := [.leaf "a" (.unknown 1), .leaf "y" (.unknown 1), .number,
    .connect (.leaf 1) (.signal 0 0), .force 0 (.ofBool true)]
  let w := (World.empty 10).after calls
  have reachable : w.Reachable := ⟨10, World.leads_after _ calls (by decide +kernel)⟩
  have before : w.netlist.driveOf 0 = .undriven := by decide +kernel
  have copied : w.netlist.driveOf 1 = .driven (.signal 0 0) := by decide +kernel
  have after : (w.call .settle).netlist.driveOf 0 = .root := by decide +kernel
  clear_value w
  obtain ⟨consistent, turns, lasts⟩ := drive_turns_once reachable
  refine ⟨w, _, reachable, consistent, before, rfl, after, ?_, fun w'' later => ?_⟩
  · rcases turns .settle trivial 0 with same | ⟨-, ⟨connects, -⟩ | ⟨h, report, start, done, turned⟩⟩
    · simp [before, after] at same
    · cases connects
    · exact ⟨h, report, start, done, turned.2⟩
  · exact (lasts w'' (.head ⟨.settle, trivial, rfl⟩ later) 1).1 _ copied

end CombLogic
