import CombLogic.Proofs.Block.Meaning
import CombLogic.Proofs.Netlist.Turns
import CombLogic.Proofs.Twins.Plan

/- Overlap rules. What a rule says, what is reported and which cases are unique decides whether a block is
   accepted and what is watched, and makes no difference to the hardware. -/
namespace CombLogic

open Expr Netlist Stmt

/-- The first matching item is meant. -/
def CaseKind.priority (kind : CaseKind) : CaseKind := { kind with unique := false }

/-- Two netlists made from one by giving some leaves drivers. The drivers of one are those of the other
    under other numbers: they have the same forms over the same leaves, constants and old nodes, and
    share their new nodes in the same way. -/
structure Netlist.SameHardware (g : Netlist) (outputs : List LeafId) (h h' : Netlist) : Prop where
  drivers : ∃ P n n', Twins g.nextNode P n n' ∧ ∀ id ∈ outputs, ∃ e e',
    h.driveOf id = .driven e ∧ h'.driveOf id = .driven e' ∧ (e, e') ∈ P
  others : ∀ id ∉ outputs, h.driveOf id = g.driveOf id ∧ h'.driveOf id = g.driveOf id

section

variable {settings settings' : BlockSettings} {log log' : Option DiagnosticLog} {g h h' : Netlist}
  {K L L' : Set Expr} {statements statements' : List Stmt} {outputs : List LeafId}
  {drivers drivers' : List (LeafId × Expr)} {checks checks' : List ConflictCheck}
  {block block' : BlockSummary} {s s' : Session}

theorem compiled_other (compiled : Compiled settings g K statements outputs drivers checks L h)
    {id : LeafId} (other : id ∉ outputs) : h.driveOf id = g.driveOf id := by
  have unlisted : id ∉ drivers.map Prod.fst := compiled.planned.leaves ▸ other
  exact (attached_other compiled.attached unlisted :)

theorem sameHardware_of_twins (compiled : Compiled settings g K statements outputs drivers checks L h)
    (compiled' : Compiled settings' g K statements' outputs drivers' checks' L' h')
    (same : TwinDrivers g.nextNode drivers drivers') : SameHardware g outputs h h' := by
  obtain ⟨P, n, n', twins, each⟩ := same
  refine ⟨⟨P, n, n', twins, fun id output => ?_⟩,
    fun id other => ⟨compiled_other compiled other, compiled_other compiled' other⟩⟩
  obtain ⟨leaf, e, found, driven, offered⟩ := compiled_driver compiled output
  obtain ⟨leaf', e', found', driven', offered'⟩ := compiled_driver compiled' output
  obtain ⟨p, listed, own, pair⟩ := forall₂_left each _ offered
  -- a leaf has one driver only
  have nodup : (drivers'.map Prod.fst).Nodup :=
    compiled'.planned.leaves ▸ outputs_nodup compiled'.found
  obtain rfl := List.inj_on_of_nodup_map nodup listed offered' own.symm
  exact ⟨e, e', (driveOf_found found).trans driven, (driveOf_found found').trans driven', pair⟩

/-- The check phase goes through under every milder rule, and comes to the same drivers. -/
theorem compiled_eases {f : CaseKind → CaseKind} (sharing : Sharing K g.nextNode)
    (inside : ∀ e ∈ bodyExprs statements, e ∈ K)
    (compiled : Compiled settings' g K statements outputs drivers checks L h)
    (eases : ∀ kind, (f kind).Eases settings.overlapRule settings'.overlapRule kind)
    (log : Option DiagnosticLog) :
    ∃ drivers' checks' t, Block.plan ⟨g, settings⟩ (bodyMapKinds f statements) outputs
      ⟨g.nextNode, log, #[]⟩ = (.ok (drivers', checks'), t) ∧
        TwinDrivers g.nextNode drivers' drivers := by
  obtain ⟨log', t, ran⟩ := compiled.passes
  exact plan_tracks eases sharing inside ran log

theorem outputs_targets (same : bodyTargets statements = bodyTargets statements') :
    Block.outputs g statements = Block.outputs g statements' := by
  simp only [Block.outputs, same]

/-- A block that is accepted under one rule is accepted under every milder one. -/
theorem accepted_milder (sharing : Sharing K g.nextNode)
    (inside : ∀ e ∈ bodyExprs statements, e ∈ K)
    (milder : settings.overlapRule.rank ≤ settings'.overlapRule.rank)
    (accepted : Block.compile settings' statements ⟨g, log'⟩ = (.ok block, s'))
    (log : Option DiagnosticLog) :
    ∃ s, Block.compile settings statements ⟨g, log⟩ = (.ok block, s) := by
  obtain ⟨outputs, count⟩ := block
  obtain ⟨drivers, checks, L, rfl, compiled⟩ := accepted_compiled sharing inside accepted
  have eases : ∀ kind, CaseKind.Eases settings.overlapRule settings'.overlapRule (id kind) kind :=
    fun kind => ⟨rfl, .inr ⟨rfl, milder⟩⟩
  obtain ⟨drivers', checks', t, ran, -⟩ := compiled_eases sharing inside compiled eases log
  rw [bodyMapKinds_id] at ran
  exact compile_accepts compiled.found compiled.free sharing inside ran

/-- Two accepted compiles of blocks that are the same but for which of their cases are unique. Both
    come to the drivers that the block has with priority cases only and with overlaps allowed. -/
theorem accepted_same (sharing : Sharing K g.nextNode) (inside : ∀ e ∈ bodyExprs statements, e ∈ K)
    (alike : bodyMapKinds .priority statements = bodyMapKinds .priority statements')
    (accepted : Block.compile settings statements ⟨g, log⟩ = (.ok block, s))
    (accepted' : Block.compile settings' statements' ⟨g, log'⟩ = (.ok block', s')) :
    block = block' ∧ SameHardware g block.outputs s.netlist s'.netlist := by
  obtain ⟨targets, exprs, count⟩ := bodyMapKinds_parts .priority statements
  obtain ⟨targets', exprs', count'⟩ := bodyMapKinds_parts .priority statements'
  have inside' : ∀ e ∈ bodyExprs statements', e ∈ K := by
    rwa [← exprs', ← alike, exprs]
  obtain ⟨drivers, checks, L, counted, compiled⟩ := accepted_compiled sharing inside accepted
  obtain ⟨drivers', checks', L', counted', compiled'⟩ := accepted_compiled sharing inside' accepted'
  have outputs : block.outputs = block'.outputs := by
    have found : Block.outputs g statements' = .ok block.outputs := by
      rw [← outputs_targets (targets.symm.trans (alike ▸ targets'))]
      exact compiled.found
    exact Except.ok.inj (found.symm.trans compiled'.found)
  have statements : block.statements = block'.statements := by
    rw [counted, counted', ← count, ← count', alike]
  have eases : ∀ rule kind, CaseKind.Eases .allow rule (CaseKind.priority kind) kind :=
    fun rule kind => ⟨rfl, .inl rfl⟩
  let allowing : BlockSettings := ⟨.allow, true⟩
  obtain ⟨plain, _, t, ran, same⟩ : ∃ plain checks t, Block.plan ⟨g, allowing⟩ _ _ _ = _ ∧ _ :=
    compiled_eases sharing inside compiled (eases _) none
  obtain ⟨plain', _, t', ran', same'⟩ : ∃ plain checks t, Block.plan ⟨g, allowing⟩ _ _ _ = _ ∧ _ :=
    compiled_eases sharing inside' compiled' (eases _) none
  rw [alike, outputs, ran'] at ran
  cases ran
  refine ⟨?_, sameHardware_of_twins compiled (outputs ▸ compiled') (twinDrivers_join same same')⟩
  cases block
  cases block'
  congr

/-- Overlap rules are no matter of hardware. -/
theorem overlap_rule_neutral (numbered : WellNumbered (bodyExprs statements) g.nextNode) :
    (∀ settings settings' log log' statements' block block' s s',
      bodyMapKinds .priority statements = bodyMapKinds .priority statements' →
        Block.compile settings statements ⟨g, log⟩ = (.ok block, s) →
          Block.compile settings' statements' ⟨g, log'⟩ = (.ok block', s') →
            block = block' ∧ SameHardware g block.outputs s.netlist s'.netlist) ∧
    (∀ settings settings' log log' block s',
      settings.overlapRule.rank ≤ settings'.overlapRule.rank →
        Block.compile settings' statements ⟨g, log'⟩ = (.ok block, s') →
          ∃ s, Block.compile settings statements ⟨g, log⟩ = (.ok block, s)) := by
  obtain ⟨K, sharing, inside⟩ := (wellNumbered_iff _ _).mp numbered
  constructor
  · intro settings settings' log log' statements' block block' s s' alike accepted accepted'
    exact accepted_same sharing inside alike accepted accepted'
  · intro settings settings' log log' block s' milder accepted
    exact accepted_milder sharing inside milder accepted log

end

/-- Two equal items, warned of as items of a unique case and then compiled as a priority case. -/
theorem overlap_compiled : ∃ (g : Netlist) (statements statements' : List Stmt) (s s' : Session),
    Block.compile ⟨.warn, true⟩ statements ⟨g, some .empty⟩ = (.ok ⟨[1], 4⟩, s) ∧
      Block.compile ⟨.deny, false⟩ statements' ⟨g, none⟩ = (.ok ⟨[1], 4⟩, s') ∧
        SameHardware g [1] s.netlist s'.netlist ∧
          ∃ t, Block.compile ⟨.allow, true⟩ statements ⟨g, none⟩ = (.ok ⟨[1], 4⟩, t) := by
  let items : List CaseItem := [.mk [.literal 2 (.ofBool true)] [.assign (.leaf 1) (.signal 3 0)],
    .mk [.literal 4 (.ofBool true)] [.assign (.leaf 1) (.literal 5 (.ofBool true))]]
  let block : Bool → List Stmt := fun unique => [.assign (.leaf 1) (.literal 0 (.ofBool false)),
    .case ⟨false, unique⟩ (.signal 1 0) items []]
  let w := (World.empty 10).after [.leaf "sel" (.unknown 1), .leaf "y" (.unknown 1)]
  let g : Netlist := { w.netlist with nextNode := 6 }
  have numbered : WellNumbered (bodyExprs (block true)) g.nextNode := by decide +kernel
  have alike : bodyMapKinds .priority (block true) = bodyMapKinds .priority (block false) := rfl
  have accepted := run_of_toOption (r := Block.compile ⟨.warn, true⟩ (block true) ⟨g, some .empty⟩)
    (a := ⟨[1], 4⟩) (by decide +kernel)
  have accepted' := run_of_toOption (r := Block.compile ⟨.deny, false⟩ (block false) ⟨g, none⟩)
    (a := ⟨[1], 4⟩) (by decide +kernel)
  clear_value g w block
  obtain ⟨same, milder⟩ := overlap_rule_neutral numbered
  obtain ⟨-, hardware⟩ := same _ _ _ _ _ _ _ _ _ alike accepted accepted'
  exact ⟨g, block true, block false, _, _, accepted, accepted', hardware,
    milder _ _ none _ _ _ (by decide) accepted⟩

end CombLogic
