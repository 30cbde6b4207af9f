import CombLogic.Proofs.Block.Compile
import CombLogic.Proofs.Netlist.Declare
import CombLogic.Proofs.Shared

/- A block is attached as a whole or not at all. -/
namespace CombLogic

open Expr Netlist Stmt

/-- What writes a block: it declares scratch signals, asks for widths and elements, takes numbers for
    the nodes that it builds, and ends with the statements. -/
inductive Builder where
  | block (statements : List Stmt)
  | number (rest : Nat → Builder)
  | declare (scratch : Scratch) (rest : Ref → Builder)
  | width (target : Ref) (rest : Nat → Builder)
  | element (bundle : BundleId) (index : Nat) (rest : Option Ref → Builder)

namespace Builder

def run : Builder → Edit (List Stmt)
  | block statements => return statements
  | number rest => do run (rest (← Edit.build fun _ => Build.number))
  | declare scratch rest => do run (rest (← scratch.declare))
  | width target rest => do run (rest (← Edit.ask (·.widthOf target)))
  | element bundle index rest => do run (rest (← Edit.ask (·.element bundle index)))

/-- Writes a block and compiles it. -/
def compile (settings : BlockSettings) (builder : Builder) : Compiling BlockSummary := do
  Block.compile settings (← Compiling.edit builder.run)

/-- What it builds are nodes under numbers that were given out, one node for each. -/
def Shared (builder : Builder) (g : Netlist) : Prop :=
  ∀ statements g', builder.run g = (.ok statements, g') →
    ∃ K, Sharing K g'.nextNode ∧ ∀ e ∈ bodyExprs statements, e ∈ K

end Builder

/-- Only leaves and bundles were added and node numbers taken. -/
def Netlist.Prepares (g g' : Netlist) : Prop := Declares g { g' with nextNode := g.nextNode }

section

variable {g g' g'' : Netlist}

theorem declares_renumber (declares : Declares g g') (next : Nat) :
    Declares { g with nextNode := next } { g' with nextNode := next } where
  leaf := declares.leaf
  bundle := declares.bundle
  new := declares.new
  names := declares.names
  same := by rw [declares.same]

theorem prepares_trans (first : Prepares g g') (second : Prepares g' g'') : Prepares g g'' :=
  first.trans (declares_renumber second g.nextNode)

theorem declarative_prepares : Declarative Prepares :=
  ⟨.refl, prepares_trans, declares_addLeaf, declares_addBundle⟩

/-- A builder declares and takes numbers. -/
theorem run_respects {R : Netlist → Netlist → Prop} (declarative : Declarative R)
    (numbers : ∀ g : Netlist, R g { g with nextNode := g.nextNode + 1 }) (builder : Builder) :
    Respects R builder.run := by
  induction builder with
  | block statements => exact declaring_pure statements R declarative
  | number rest ih => exact respects_bind (R := R) declarative.trans numbers ih
  | declare scratch rest ih =>
    exact respects_bind (R := R) declarative.trans (declaring_scratch scratch R declarative) ih
  | width target rest ih =>
    exact respects_bind (R := R) declarative.trans (declaring_ask _ R declarative) ih
  | element bundle index rest ih =>
    exact respects_bind (R := R) declarative.trans (declaring_ask _ R declarative) ih

theorem run_prepares (builder : Builder) (g : Netlist) : Prepares g (builder.run g).2 :=
  run_respects declarative_prepares (fun g => .refl g) builder g

theorem run_extends (builder : Builder) (g : Netlist) : Extends g (builder.run g).2 :=
  run_respects declarative_extends (fun g => .renumber g _) builder g

theorem run_later (builder : Builder) (g : Netlist) : g.nextNode ≤ (builder.run g).2.nextNode :=
  run_respects (R := fun g g' => g.nextNode ≤ g'.nextNode) ⟨fun _ => Nat.le_refl _, Nat.le_trans,
    fun _ _ _ => Nat.le_refl _, fun _ _ _ => Nat.le_refl _⟩ (fun _ => Nat.le_succ _) builder g

end

/-- A block took effect on its outputs and on nothing else. -/
structure Installed (g : Netlist) (statements : List Stmt) (outputs : List LeafId) (g' : Netlist) :
    Prop where
  /-- The leaves of all targets, each at its first place. -/
  leaves : ∃ lists, (bodyTargets statements).mapM g.leavesOf = .ok lists ∧
    outputs = lists.flatten.eraseDups
  nodup : outputs.Nodup
  size : g'.leaves.size = g.leaves.size
  driven : ∀ id ∈ outputs, ∃ before after e, g.leaves.get? id = some before ∧
    before.drive = .undriven ∧ g'.leaves.get? id = some after ∧ after.drive = .driven e ∧
    e.Integerless ∧ e.Resolved ∧
    ∃ n, g'.sizeFor e (some after.width) g'.nextNode = .ok ((e, after.width), n)
  others : ∀ id before, id ∉ outputs → g.leaves.get? id = some before →
    ∃ after, g'.leaves.get? id = some after ∧ after.drive = before.drive
  values : ∀ id, g'.value id = g.value id
  dirty : ∀ id, id ∈ g'.dirty.keys ↔ id ∈ g.dirty.keys ∨ id ∈ outputs
  staged : g'.staged = g.staged

theorem compiled_installed {settings : BlockSettings} {g h : Netlist} {K L : Set Expr}
    {statements : List Stmt} {outputs : List LeafId} {drivers : List (LeafId × Expr)}
    {checks : List ConflictCheck}
    (compiled : Compiled settings g K statements outputs drivers checks L h) :
    Installed g statements outputs h := by
  obtain ⟨leaves, each, -, -⟩ := compiled.planned
  have attached := compiled.attached
  have same : drivers.map Prod.fst = outputs := leaves
  refine ⟨outputs_ok compiled.found, outputs_nodup compiled.found, attached.size, fun id listed => ?_,
    fun id before other found => ?_, fun id => ?_, fun id => ?_, ?_⟩
  · obtain ⟨before, found, undriven, -⟩ := compiled.free id listed
    obtain ⟨after, found', step⟩ := attached.leaf id before found
    rcases step.drive with ⟨other, -⟩ | ⟨e, offered, driven⟩
    · exact (other (same ▸ listed)).elim
    · obtain ⟨fit, width, drives⟩ := each (id, e) offered
      obtain ⟨leaf, here, rfl⟩ := leaf_width drives.declared
      obtain rfl : before = leaf := by simpa [found] using here
      have kept : after.width = before.width := by rw [step.same]
      have declared : h.declared = g.declared := by
        rw [← declared_attached attached]
        exact declared_congr rfl fun _ => rfl
      obtain ⟨n, -, sized, -⟩ :=
        sizeFor_again compiled.sharing fit.1 fit.2 (drives_congr declared drives)
      exact ⟨before, after, e, found, undriven, found', driven, fit.2, drives.resolved, n,
        kept ▸ sized⟩
  · obtain ⟨after, found', step⟩ := attached.leaf id before found
    rcases step.drive with ⟨-, drive⟩ | ⟨e, offered, -⟩
    · exact ⟨after, found', drive⟩
    · exact (other (same ▸ List.mem_map_of_mem offered)).elim
  · cases found : g.leaves.get? id with
    | some leaf => exact attached.value found
    | none =>
      have missing : h.leaves.get? id = none := by
        cases there : h.leaves.get? id with
        | none => rfl
        | some leaf =>
          obtain ⟨leaf', before, -⟩ := attached.back there
          simp [found] at before
      simp [Netlist.value, Netlist.leaf, found, missing]
  · exact same ▸ attached.dirty id
  · have kept := congrArg Netlist.staged attached.same
    exact kept

theorem edit_error {α : Type} {e : Edit α} {s : Session} {x : NetlistError} {h : Netlist}
    (failed : e s.netlist = (.error x, h)) :
    Compiling.edit e s = (.error (.netlist x), { s with netlist := h }) := by
  simp [Compiling.edit, failed, Except.mapError]

section

variable {settings : BlockSettings} {builder : Builder} {s s' : Session}

/-- A rejected block leaves what its builder left. -/
theorem compile_rejected (shared : builder.Shared s.netlist) {e : BlockError}
    (failed : builder.compile settings s = (.error e, s')) :
    s'.netlist = (builder.run s.netlist).2 := by
  obtain ⟨result, g, run⟩ : ∃ result g, builder.run s.netlist = (result, g) := ⟨_, _, rfl⟩
  rw [run]
  unfold Builder.compile at failed
  cases result with
  | error x =>
    rw [step_error (edit_error run)] at failed
    cases failed
    rfl
  | ok statements =>
    rw [step_ok (edit_ok run)] at failed
    obtain ⟨K, sharing, inside⟩ := shared statements g run
    rcases compile_cases settings { s with netlist := g } sharing inside with
      ⟨e', t, compiled, same⟩ | ⟨outputs, drivers, checks, L, t, compiled, -⟩
    · rw [compiled] at failed
      cases failed
      exact same
    · rw [compiled] at failed
      cases failed

theorem compile_compiled {K : Set Expr} {statements : List Stmt} {g : Netlist}
    (run : builder.run s.netlist = (.ok statements, g)) (sharing : Sharing K g.nextNode)
    (inside : ∀ e ∈ bodyExprs statements, e ∈ K) {block : BlockSummary}
    (done : builder.compile settings s = (.ok block, s')) :
    ∃ drivers checks L,
      Compiled settings g K statements block.outputs drivers checks L s'.netlist := by
  rw [Builder.compile, step_ok (edit_ok run)] at done
  obtain ⟨drivers, checks, L, -, compiled⟩ := accepted_compiled sharing inside done
  exact ⟨drivers, checks, L, compiled⟩

/-- An accepted block is installed over what its builder left. -/
theorem compile_accepted (shared : builder.Shared s.netlist) {block : BlockSummary}
    (done : builder.compile settings s = (.ok block, s')) : ∃ statements,
    (builder.run s.netlist).1 = .ok statements ∧
      Installed (builder.run s.netlist).2 statements block.outputs s'.netlist := by
  obtain ⟨result, g, run⟩ : ∃ result g, builder.run s.netlist = (result, g) := ⟨_, _, rfl⟩
  cases result with
  | error x =>
    rw [Builder.compile, step_error (edit_error run)] at done
    cases done
  | ok statements =>
    obtain ⟨K, sharing, inside⟩ := shared statements g run
    obtain ⟨drivers, checks, L, compiled⟩ := compile_compiled run sharing inside done
    rw [run]
    exact ⟨statements, rfl, compiled_installed compiled⟩

/-- Compiling a block changes nothing but for what its builder declared, or gives each output its
    driver. With all checks passed, none of the attachments can fail. -/
theorem compile_atomic (settings : BlockSettings) (builder : Builder) (s : Session)
    (shared : builder.Shared s.netlist) :
    Prepares s.netlist (builder.run s.netlist).2 ∧
    (∀ e s', builder.compile settings s = (.error e, s') →
      s'.netlist = (builder.run s.netlist).2) ∧
    (∀ block s', builder.compile settings s = (.ok block, s') → ∃ statements,
      (builder.run s.netlist).1 = .ok statements ∧
        Installed (builder.run s.netlist).2 statements block.outputs s'.netlist) ∧
    ∀ statements g outputs plan t, builder.run s.netlist = (.ok statements, g) →
      Block.outputs g statements = .ok outputs → (∀ id ∈ outputs, g.isTaken id = .ok false) →
      Block.plan ⟨g, settings⟩ statements outputs ⟨g.nextNode, s.log, #[]⟩ = (.ok plan, t) →
      (Block.attach plan.1 plan.2 { g with nextNode := t.nextNode }).1 = .ok () := by
  refine ⟨run_prepares builder s.netlist, fun e s' => compile_rejected shared,
    fun block s' => compile_accepted shared, ?_⟩
  intro statements g outputs plan t run found free planned
  obtain ⟨K, sharing, inside⟩ := shared statements g run
  exact attach_passes found (fun id listed => isTaken_false.mp (free id listed)) sharing inside
    planned

end

/-- A leaf that a block sets to 1. -/
theorem literal_atomic : ∃ (s s' : Session) (statements : List Stmt) (builder : Builder),
    builder.compile {} s = (.ok ⟨[0], 1⟩, s') ∧
      Installed (builder.run s.netlist).2 statements [0] s'.netlist := by
  let statements : List Stmt := [.assign (.leaf 0) (.literal 0 (.ofBool true))]
  let builder : Builder := .number fun _ => .block statements
  let s : Session := ⟨(addUnknown "y" 1 (.empty 10)).2, none⟩
  have shared : builder.Shared s.netlist := by
    intro written g run
    cases run
    exact (wellNumbered_iff _ _).mp (by decide +kernel)
  have accepted := run_of_toOption (r := builder.compile {} s) (a := ⟨[0], 1⟩) (by decide +kernel)
  obtain ⟨-, -, installs, -⟩ := compile_atomic {} builder s shared
  obtain ⟨written, run, installed⟩ := installs _ _ accepted
  exact ⟨s, _, written, builder, accepted, installed⟩

end CombLogic
