import CombLogic.Proofs.Block.Finished
import CombLogic.Proofs.Block.Plan

/- The checks of the outputs of a block. Over finished entries for known leaves there is one way in
   which they can fail, which is an entry that is not assigned. -/
namespace CombLogic

open Expr Netlist

/-- From a state that is ready, a computation fails only with errors of some kind. -/
def FailsAs {α : Type} (kind : BlockError → Prop) (K : Set Expr) (m : Executing α) : Prop :=
  ∀ L, K ⊆ L → ∀ s x s', s.Ready L → m s = (.error x, s') → kind x

/-- It does not fail, or rejects a signal as read before it is assigned. -/
abbrev Latches {α : Type} (K : Set Expr) (m : Executing α) : Prop :=
  FailsAs (fun x => ∃ signal read, x = .unassignedRead signal read) K m

section

variable {α β : Type} {kind : BlockError → Prop} {K L : Set Expr} {m : Executing α}
  {f : α → Executing β}

theorem failsAs_pure (a : α) : FailsAs kind K (pure a) := by
  intro L sub s x s' ready run
  cases run

theorem failsAs_bind {post : Set Expr → α → Prop} (first : FailsAs kind K m) (made : Yields K m post)
    (rest : ∀ L next a, K ⊆ L → Sharing L next → post L a → FailsAs kind L (f a)) :
    FailsAs kind K (m >>= f) := by
  intro L sub s x s'' ready run
  obtain ⟨r, s', before⟩ : ∃ r s', m s = (r, s') := ⟨_, _, rfl⟩
  cases r with
  | error y =>
    cases (step_error before).symm.trans run
    exact first L sub s x s'' ready before
  | ok a =>
    obtain ⟨L', grown, still, here⟩ := made L sub s a s' ready before
    exact rest L' s'.nextNode a (sub.trans grown) still.sharing here L' subset_rfl s' x s'' still
      ((step_ok before).symm.trans run)

theorem failsAs_ask {r : Except NetlistError α} {a : α} (found : r = .ok a) :
    FailsAs kind K (Executing.ask r) := by
  subst found
  intro L sub s x s' ready run
  cases run

theorem failsAs_build {b : Numbering (Except NetlistError) α} (succeeds : Succeeds K b) :
    FailsAs kind K (Executing.build b) := by
  intro L sub s x s' ready run
  obtain ⟨r, done⟩ := succeeds L sub s.nextNode ready.sharing
  simp only [Executing.build, done] at run
  cases run

theorem failsAs_mapM {g : β → Executing α} (bs : List β) (each : ∀ b ∈ bs, FailsAs kind K (g b))
    (made : ∀ b ∈ bs, Yields K (g b) fun _ _ => True) : FailsAs kind K (bs.mapM g) := by
  induction bs generalizing K with
  | nil => exact failsAs_pure []
  | cons b rest ih =>
    rw [List.mapM_cons]
    refine failsAs_bind (each b (by simp)) (made b (by simp)) fun L _ a sub _ _ => ?_
    have made' := fun b' later => yields_mono (made b' (List.mem_cons_of_mem b later)) sub
    have others : Yields L (rest.mapM g) fun _ _ => True :=
      yields_weaken (yields_mapM (fun _ _ _ _ _ here => here) rest made') fun _ _ _ _ => trivial
    have behind := ih (fun b' later L' sub' => each b' (by simp [later]) L' (sub.trans sub')) made'
    exact failsAs_bind behind others fun _ _ _ _ _ _ => failsAs_pure _

end

section

variable {K L : Set Expr} {next : Nat} {g : Netlist} {b : Binding} {e : Expr} {leaf : LeafId}
  {width : Nat}

/-- What is sized for good and stands for no other value can drive a target of its width. -/
theorem sizedDriver_succeeds (sharing : Sharing K next) (member : e ∈ K) {target : Ref}
    (resolved : e.Resolved) (declared : g.declared target = some width)
    (fixed : e.Fixed g.declared width) : Succeeds K (g.sizedDriver target e) := by
  unfold sizedDriver
  cases missed : e.firstPlaceholder? with
  | some placeholder =>
    obtain ⟨n, inside, here⟩ := find_some missed
    cases (resolved n inside).symm.trans here
  | none =>
    refine succeeds_bind (succeeds_ask (of_toOption declared)) (makes_width target) ?_
    intro L width' sub declared'
    obtain rfl : width = width' := Option.some.inj (declared.symm.trans declared')
    have builds := sizeFor_builds (g := g) sharing member (some width)
    have again := fixed_sized fixed (some width)
    refine succeeds_bind (succeeds_mono (succeeds_of_builds builds again) sub)
      (makes_mono (makes_sized sharing member (some width)) sub) ?_
    rintro L' ⟨s, actual⟩ _ ⟨-, ⟨t, sized, -⟩, -⟩
    obtain ⟨-, rfl⟩ := Prod.mk.inj (Option.some.inj (again.symm.trans sized))
    simp only [ne_eq, not_true_eq_false, ↓reduceIte]
    exact succeeds_pure s

theorem get_succeeds (b : Binding) (leaf : LeafId) :
    Succeeds (ε := NetlistError) K (b.get leaf) := by
  unfold Binding.get
  split
  · exact succeeds_pure _
  · exact succeeds_node

/-- Every leaf has a name. -/
def Netlist.Named (g : Netlist) : Prop :=
  ∀ id leaf, g.leaves.get? id = some leaf → (g.names.text? leaf.name).isSome

theorem free_width (free : g.Free leaf) : ∃ width, g.HasWidth (leaf, width) := by
  obtain ⟨entry, found, -⟩ := free
  exact ⟨entry.width, entry, found, rfl⟩

theorem named_leafName (named : g.Named) (there : g.HasWidth (leaf, width)) :
    ∃ name, g.leafName leaf = .ok name := by
  obtain ⟨entry, found, -⟩ := there
  exact leafName_ok found (named leaf entry found)

theorem ensureAssigned_latches (named : g.Named) (fixed : e.Fixed g.declared width)
    {signal : Except NetlistError String} {name : String} (known : signal = .ok name) :
    Latches K (Block.ensureAssigned g signal e) := by
  unfold Block.ensureAssigned
  cases missed : e.firstUnassigned? with
  | none => exact failsAs_pure ()
  | some read =>
    obtain ⟨n, inside, here⟩ := find_some missed
    obtain ⟨other, known'⟩ : ∃ other, g.leafName read = .ok other := by
      have sized := fitted_known e fixed.2 (by simp [fixed.1]) n inside
      cases n <;> simp only [unassigned?, reduceCtorEq, Option.some.injEq] at here
      obtain ⟨own, natural⟩ := Option.isSome_iff_exists.mp sized
      obtain ⟨w, declared, -⟩ := Option.bind_eq_some_iff.mp natural
      exact named_leafName named (here ▸ leaf_width declared)
    intro L sub s x s' ready run
    have failed : (do
        throw (.unassignedRead (← Executing.ask signal) (← Executing.ask (g.leafName read))) :
          Executing Unit) s = (.error (.unassignedRead name other), s) := by
      rw [known, known']
      rfl
    cases failed.symm.trans run
    exact ⟨name, other, rfl⟩

theorem checkOutput_latches (good : b.Good K) (named : g.Named) (finished : b.Finished g)
    (there : g.HasWidth (leaf, width)) : Latches K (Block.checkOutput g b leaf) := by
  obtain ⟨name, known⟩ := named_leafName named there
  have entry := entry_finished finished there
  refine failsAs_bind (failsAs_build (get_succeeds b leaf)) (yields_build (get_fits good leaf)) ?_
  rintro L _ e sub sharing ⟨fit, alike⟩
  have done := finished_alike alike entry
  refine failsAs_bind (ensureAssigned_latches named done.fixed known)
    (ensureAssigned_yields sharing fit.1 _) fun L₁ _ _ sub₁ sharing₁ assigned => ?_
  have resolved : e.Resolved := fun n inside => by
    have := assigned n inside
    have := done.read n inside
    cases n <;> simp_all [placeholder?, unassigned?, target?]
  have declared : g.declared (.leaf leaf) = some width := by
    obtain ⟨entry, found, rfl⟩ := there
    simp [declared_get, found]
  refine failsAs_bind
    (failsAs_build (sizedDriver_succeeds sharing₁ (sub₁ fit.1) resolved declared done.fixed))
    (yields_build (sizedDriver_makes sharing₁ (sub₁ fit.1) (.leaf leaf))) ?_
  exact fun _ _ _ _ _ _ => failsAs_pure _

theorem checkOutputs_latch (good : b.Good K) (named : g.Named) (finished : b.Finished g)
    (leaves : List LeafId) (there : ∀ leaf ∈ leaves, ∃ width, g.HasWidth (leaf, width)) :
    Latches K (leaves.mapM (Block.checkOutput g b)) := by
  refine failsAs_mapM leaves (fun leaf listed => ?_) fun leaf _ =>
    yields_weaken (checkOutput_yields good leaf) fun _ _ _ _ => trivial
  obtain ⟨width, here⟩ := there leaf listed
  exact checkOutput_latches good named finished here

/-- Outputs that pass their checks are assigned. -/
theorem outputs_assigned {leaves : List LeafId} {ds : List (LeafId × Expr)}
    (each : List.Forall₂ (fun leaf p => Output g b leaf L p) leaves ds) :
    ∀ leaf ∈ leaves, (b.entry leaf).Assigned := by
  intro leaf listed
  obtain ⟨p, -, output⟩ := forall₂_left each leaf listed
  obtain ⟨width, drives⟩ := output.drives
  exact assigned_alike output.entry.symm (assigned_of_resolved drives.resolved)

end

end CombLogic
