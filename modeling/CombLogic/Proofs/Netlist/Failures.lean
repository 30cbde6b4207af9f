import CombLogic.Proofs.Netlist.Edits

/- Calls that fail. All checks of a call come before its first change, for every leaf of a target, so
   a call that fails has changed nothing. Only a failed pass has used up the staged values. -/
namespace CombLogic

open Netlist

/-- If the call fails, the netlist is as it was. -/
def Atomic {α : Type} (e : Edit α) : Prop := ∀ g x h, e g = (.error x, h) → h = g

section

variable {α β : Type} {g : Netlist}

theorem atomic_ask (f : Netlist → Except NetlistError α) : Atomic (Edit.ask f) := by
  intro g x h failed
  exact (congrArg Prod.snd failed).symm

theorem atomic_build (f : Netlist → Numbering (Except NetlistError) α) : Atomic (Edit.build f) := by
  intro g x h failed
  unfold Edit.build at failed
  split at failed
  · cases failed
  · exact (congrArg Prod.snd failed).symm

/-- A call of which the first part makes sure that the second one succeeds. -/
theorem atomic_bind {e : Edit α} {f : α → Edit β} (first : Atomic e)
    (rest : ∀ g a h, e g = (.ok a, h) → ∃ b k, f a h = (.ok b, k)) : Atomic (e >>= f) := by
  intro g x k failed
  obtain ⟨result, h, run⟩ : ∃ result h, e g = (result, h) := ⟨_, _, rfl⟩
  cases result with
  | error y =>
    obtain rfl : h = k := congrArg Prod.snd ((step_error run).symm.trans failed)
    exact first g y h run
  | ok a =>
    obtain ⟨b, k', done⟩ := rest g a h run
    cases done.symm.trans ((step_ok run).symm.trans failed)

theorem attachAll_done (drivers : List (LeafId × Expr)) (g : Netlist) :
    ∃ u h, (attachAll drivers : Edit Unit) g = (.ok u, h) := ⟨_, _, rfl⟩

theorem connect_atomic (target : Ref) (e : Expr) : Atomic (connect target e) :=
  atomic_bind (atomic_build _) fun _ drivers h _ => attachAll_done drivers h

theorem wire_atomic (target source : Ref) : Atomic (wire target source) :=
  atomic_bind (atomic_build _) fun _ drivers h _ => attachAll_done drivers h

theorem requireForceable_iff {id : LeafId} {value : Value} :
    g.requireForceable id value = .ok () ↔ g.Forceable id value := by
  refine ⟨requireForceable_ok, ?_⟩
  rintro ⟨leaf, found, undriven, width⟩
  simp [requireForceable, leaf_of_get found, undriven, width, bind, Except.bind, pure, Except.pure]

theorem force_done {id : LeafId} {value : Value} (fits : g.Forceable id value) :
    force id value g = (.ok (), { g with staged := g.staged.insert id value }) := by
  have asked : Edit.ask (·.requireForceable id value) g = (.ok (), g) := by
    simp [Edit.ask, requireForceable_iff.mpr fits]
  exact step_ok asked

theorem force_atomic (id : LeafId) (value : Value) : Atomic (force id value) :=
  atomic_bind (atomic_ask _) fun _ _ _ _ => ⟨_, _, rfl⟩

/-- Staged values do not bear on what can be forced, so every one of the pieces finds its place. -/
theorem forceAll_done (parts : List (LeafId × Value))
    (fits : ∀ part ∈ parts, g.Forceable part.1 part.2) :
    (forIn parts PUnit.unit fun part _ => do
      force part.1 part.2
      pure (ForInStep.yield PUnit.unit) : Edit PUnit) g =
      (.ok PUnit.unit, { g with
        staged := parts.foldl (fun staged part => staged.insert part.1 part.2) g.staged }) := by
  induction parts generalizing g with
  | nil => rfl
  | cons part rest ih =>
    have here := fits part List.mem_cons_self
    have first : (do
        force part.1 part.2
        pure (ForInStep.yield PUnit.unit) : Edit (ForInStep PUnit)) g =
        (.ok (.yield PUnit.unit), { g with staged := g.staged.insert part.1 part.2 }) :=
      step_ok (force_done here)
    rw [List.forIn_cons, step_ok first]
    exact ih fun other later => fits other (List.mem_cons_of_mem _ later)

theorem requireAll_ok {parts : List (LeafId × Value)}
    (done : (forIn parts PUnit.unit fun part _ => do
      g.requireForceable part.1 part.2
      pure (ForInStep.yield PUnit.unit) : Except NetlistError PUnit) = .ok PUnit.unit) :
    ∀ part ∈ parts, g.Forceable part.1 part.2 := by
  induction parts with
  | nil => simp
  | cons part rest ih =>
    rw [List.forIn_cons] at done
    obtain ⟨step, first, done⟩ := bind_ok done
    obtain ⟨u, fits, yielded⟩ := bind_ok first
    cases yielded
    intro other member
    rcases List.mem_cons.mp member with rfl | later
    · exact requireForceable_ok fits
    · exact ih done other later

theorem forceablePieces_ok {target : Ref} {value : Value} {parts : List (LeafId × Value)}
    (done : g.forceablePieces target value = .ok parts) :
    ∀ part ∈ parts, g.Forceable part.1 part.2 := by
  obtain ⟨expected, -, done⟩ := bind_ok done
  split at done
  · obtain ⟨name, -, failed⟩ := bind_ok done
    cases failed
  · obtain ⟨widths, -, done⟩ := bind_ok done
    obtain ⟨u, checked, done⟩ := bind_ok done
    cases done
    exact requireAll_ok checked

theorem forceWhole_done {target : Ref} {value : Value} {parts : List (LeafId × Value)}
    (pieces : g.forceablePieces target value = .ok parts) :
    forceWhole target value g = (.ok (), { g with
      staged := parts.foldl (fun staged part => staged.insert part.1 part.2) g.staged }) := by
  have asked : Edit.ask (·.forceablePieces target value) g = (.ok parts, g) := by
    simp [Edit.ask, pieces]
  exact (step_ok asked).trans (step_ok (forceAll_done parts (forceablePieces_ok pieces)))

theorem forceWhole_atomic (target : Ref) (value : Value) : Atomic (forceWhole target value) := by
  refine atomic_bind (atomic_ask _) fun g parts h asked => ?_
  obtain ⟨pieces, rfl⟩ := Prod.mk.inj asked
  exact ⟨_, _, step_ok (forceAll_done parts (forceablePieces_ok pieces))⟩

/-- Staging leaves the leaves alone. -/
theorem force_leaves (id : LeafId) (value : Value) (g : Netlist) :
    (force id value g).2.leaves = g.leaves := by
  rcases force_cases id value g with ⟨x, failed⟩ | ⟨-, done⟩
  · rw [failed]
  · rw [done]

theorem forceWhole_leaves (target : Ref) (value : Value) (g : Netlist) :
    (forceWhole target value g).2.leaves = g.leaves := by
  cases pieces : g.forceablePieces target value with
  | error x =>
    have failed : forceWhole target value g = (.error x, g) :=
      step_error (by simp [Edit.ask, pieces])
    rw [failed]
  | ok parts => rw [forceWhole_done pieces]

/-- Who hears of a pass: nobody if it fails. -/
def notified : Except NetlistError PassReport → List Notice
  | .ok report => report.notices
  | .error _ => []

/-- Whatever call fails, for whichever leaf of its target, has left the netlist as it was. A pass that
    fails has used up the staged values and notified nobody, and so has a call that fails in its
    pass. -/
theorem failures_atomic (g : Netlist) :
    (∀ x h, settle g = (.error x, h) → h = { g with staged := .empty } ∧
      notified (settle g).1 = []) ∧
    (∀ id value x h, force id value g = (.error x, h) → h = g) ∧
    (∀ target e x h, connect target e g = (.error x, h) → h = g) ∧
    (∀ target source x h, wire target source g = (.error x, h) → h = g) ∧
    ∀ target value,
      (∃ x, forceWhole target value g = (.error x, g) ∧
        injectWhole target value g = (.error x, g)) ∨
      ∃ h, forceWhole target value g = (.ok (), h) ∧ injectWhole target value g = settle h := by
  refine ⟨fun x h failed => ?_, fun id value => force_atomic id value g,
    fun target e => connect_atomic target e g, fun target source => wire_atomic target source g,
    fun target value => ?_⟩
  · rcases settle_cases g with ⟨y, dropped, -⟩ | ⟨report, pass, done, -⟩
    · rw [dropped] at failed ⊢
      exact ⟨(congrArg Prod.snd failed).symm, rfl⟩
    · cases done.symm.trans failed
  · obtain ⟨result, h, run⟩ : ∃ result h, forceWhole target value g = (result, h) := ⟨_, _, rfl⟩
    cases result with
    | error x =>
      obtain rfl := forceWhole_atomic target value g x h run
      exact .inl ⟨x, run, step_error run⟩
    | ok u => exact .inr ⟨h, run, step_ok run⟩

end

/-- A target of which only the last leaf cannot be forced, and a pass that fails while its first leaf
    is staged. -/
theorem loop_unchanged : ∃ g : Netlist, g.staged.keys = [0] ∧
    injectWhole (.bundle 0) (.zeros 2) g = (.error (.forcedDriven "b"), g) ∧
    settle g = (.error (.combinationalLoop [1] ["b"]), { g with staged := .empty }) := by
  let declared : Netlist := (addBundle "p" [.leaf 0, .leaf 1]
    (addUnknown "b" 1 (addUnknown "a" 1 (.empty 10)).2).2).2
  let g : Netlist := (force 0 (.zeros 1) (connect (.leaf 1) (.signal 0 1) declared).2).2
  have staged : g.staged.keys = [0] := by decide +kernel
  have refused : (forceWhole (.bundle 0) (.zeros 2) g).1 = .error (.forcedDriven "b") := by
    decide +kernel
  have failed : (settle g).1 = .error (.combinationalLoop [1] ["b"]) := by decide +kernel
  clear_value g
  obtain ⟨settles, -, -, -, injects⟩ := failures_atomic g
  refine ⟨g, staged, ?_, ?_⟩
  · rcases injects (.bundle 0) (.zeros 2) with ⟨x, forced, injected⟩ | ⟨h, forced, -⟩
    · rw [forced] at refused
      rw [injected, Except.error.inj refused]
    · rw [forced] at refused
      cases refused
  · obtain ⟨unchanged, -⟩ := settles _ _ (Prod.ext failed rfl)
    exact Prod.ext failed unchanged

end CombLogic
