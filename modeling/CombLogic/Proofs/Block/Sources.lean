import CombLogic.Proofs.Block.Finished

/- Where the nodes of an entry come from: the text, the leaves that are not bound, and the choices and
   constants that execution adds. What holds of all of these holds throughout every entry. -/
namespace CombLogic

open Expr Stmt
open Netlist hiding exprs

/-- What may be said of the nodes of an entry: it holds of whatever sizing and execution add. -/
structure Additive (p : Expr → Prop) : Prop where
  blind : ∀ n, p n.shape ↔ p n
  parents : ∀ n : Expr, n.isAtom = false → p n
  literals : ∀ n value, p (.literal n value)
  reads : ∀ node target, p (.read node target)

/-- All nodes that a binding holds, or that stand for a leaf that is not bound. -/
def Binding.Every (b : Binding) (p : Expr → Prop) : Prop := ∀ leaf, (b.entry leaf).All p

section

variable {g : Netlist} {p : Expr → Prop} {b after : Binding} {e r : Expr}

theorem every_parent (adds : Additive p) (parent : e.isAtom = false)
    (operands : ∀ a ∈ e.children, a.All p) : e.All p :=
  all_iff.mpr ⟨adds.parents e parent, operands⟩

theorem held_every (adds : Additive p) (every : b.Every p) (target : Ref) : (g.held b target).All p :=
  held_all (fun _ _ leaf _ => every leaf) (fun _ => adds.reads _ _) fun _ => adds.parents _ rfl

theorem sized_every (adds : Additive p) (text : e.All p) {t : Expr} {context : Option Nat}
    {width : Nat} (sized : e.sized g.declared context = some (t, width)) : t.All p := by
  obtain ⟨w, fits⟩ := sized_fitted sized
  exact all_fitted adds.literals adds.parents e fits fun n inside _ => text n inside

theorem subst_every (adds : Additive p) (every : b.Every p) {t : Expr} (inner : t.All p)
    (form : r.shape = t.subst (g.held b)) : r.All p := by
  refine all_alike adds.blind (shape_shape r).symm (form ▸ ?_)
  exact (subst_all adds.blind adds.parents adds.reads t).mpr
    ⟨inner, fun _ target _ => held_every adds every target⟩

theorem picked_every (adds : Additive p) {arms : List (Expr × Expr)} {fallback : Expr}
    (picked : Picked arms fallback e) (each : ∀ a ∈ arms, a.1.All p ∧ a.2.All p)
    (last : fallback.All p) : e.All p := by
  induction picked with
  | last alike => exact all_alike adds.blind alike last
  | same alike _ _ => exact all_alike adds.blind alike (each _ List.mem_cons_self).2
  | mux alike _ ih =>
    obtain ⟨condition, value⟩ := each _ List.mem_cons_self
    have later := ih (fun a later => each a (by simp [later])) last
    exact all_alike adds.blind alike
      (every_parent adds rfl (by simpa [children] using ⟨condition, value, later⟩))

theorem ored_every (adds : Additive p) {rs : List Expr} (ored : Ored rs e) (each : ∀ r ∈ rs, r.All p) :
    e.All p := by
  induction ored with
  | none n => exact all_iff.mpr ⟨adds.literals _ _, by simp [children]⟩
  | one listed => exact each _ listed
  | or _ _ left right => exact every_parent adds rfl (by simpa [children] using ⟨left, right⟩)

theorem every_bindAll {ds : List (LeafId × Expr)} (every : b.Every p) (each : ∀ d ∈ ds, d.2.All p) :
    (Executing.bindAll b ds).Every p := by
  intro leaf
  by_cases listed : leaf ∈ ds.map Prod.fst
  · obtain ⟨e, -, member, found⟩ := bindAll_listed (b := b) listed
    exact entry_of_get found ▸ each _ member
  · have same : (Executing.bindAll b ds).entry leaf = b.entry leaf := by
      simp only [Binding.entry, bindAll_unlisted listed]
    exact same ▸ every leaf

theorem joined_every (adds : Additive p) {arms : List (Expr × Binding)} {fallback : Binding}
    (joined : Gathered arms fallback b after) (every : b.Every p)
    (each : ∀ a ∈ arms, a.1.All p ∧ a.2.Every p) (last : fallback.Every p) : after.Every p := by
  intro leaf
  cases found : after.get? leaf with
  | some e =>
    rw [entry_of_get found]
    refine picked_every adds (joined.merges leaf e found) ?_ (last leaf)
    exact List.forall_mem_map.mpr fun a given => ⟨(each a given).1, (each a given).2 leaf⟩
  | none =>
    have unbound : b.get? leaf = none := by
      rw [OrderedMap.get?_eq_none] at found ⊢
      rwa [← joined.keys]
    have same : after.entry leaf = b.entry leaf := by simp only [Binding.entry, found, unbound]
    exact same ▸ every leaf

theorem shares_every (adds : Additive p) (every : b.Every p) (text : e.All p) {target : Ref}
    {ps ds : List (LeafId × Expr)} (shares : g.shares target e = some ps) (answers : g.Answers b ps ds) :
    ∀ d ∈ ds, d.2.All p := by
  intro d listed
  obtain ⟨share, given, -, form⟩ := forall₂_right answers d listed
  refine subst_every adds every ?_ form
  cases target with
  | leaf leaf =>
    obtain ⟨t, width, -, sized, rfl⟩ := shares_leaf.mp shares
    obtain rfl := List.mem_singleton.mp given
    exact sized_every adds text sized
  | bundle id =>
    obtain ⟨t, parts, widths, -, sized, rfl⟩ := shares_bundle.mp shares
    obtain ⟨part, -, low, rfl⟩ := mem_plainSlices given
    unfold piece
    split
    · exact all_iff.mpr ⟨adds.literals _ _, by simp [children]⟩
    · exact every_parent adds rfl (by simpa [children] using sized_every adds text sized)

theorem spelled_every (adds : Additive p) (every : b.Every p) {wildcard : Bool} {selector : Expr}
    {patterns : List Expr} (text : selector.All p) (texts : ∀ pattern ∈ patterns, pattern.All p)
    (spelled : Spelled g b wildcard selector patterns e) : e.All p := by
  obtain ⟨rs, stand, -, -, ored⟩ := spelled
  refine ored_every adds ored fun r listed => ?_
  obtain ⟨pattern, given, t, width, sized, form⟩ := forall₂_right stand r listed
  have compared : (Expr.caseMatch 0 selector pattern wildcard).All p :=
    every_parent adds rfl (by simpa [children] using ⟨text, texts pattern given⟩)
  exact subst_every adds every (sized_every adds compared sized) form

mutual

theorem traces_every (adds : Additive p) {b after : Binding} (s : Stmt) (text : ∀ e ∈ s.exprs, e.All p)
    (every : b.Every p) (traces : s.Traces g b after) : after.Every p := by
  cases traces with
  | assign shares answers =>
    exact every_bindAll every (shares_every adds every (text _ (by simp [exprs])) shares answers)
  | ifElse asks first second joined =>
    obtain ⟨t, sized, form⟩ := asks
    have condition := subst_every adds every (sized_every adds (text _ (by simp [exprs])) sized) form
    have inner := body_every adds _ (fun e listed => text e (by simp [exprs, listed])) every first
    have inner' := body_every adds _ (fun e listed => text e (by simp [exprs, listed])) every second
    exact joined_every adds joined every (by simpa using ⟨condition, inner⟩) inner'
  | @case kind selector t width items default found arms _ fallback _ sized spelled each last joined =>
    have selected := sized_every adds (text selector (by simp [exprs])) sized
    have inner := items_every adds items (fun e listed => text e (by simp [exprs, listed])) every each
    have inner' := body_every adds _ (fun e listed => text e (by simp [exprs, listed])) every last
    refine joined_every adds joined every (fun a listed => ?_) inner'
    obtain ⟨condition, arm⟩ := List.of_mem_zip listed
    obtain ⟨item, given, spells⟩ := forall₂_right spelled _ condition
    exact ⟨spelled_every adds every selected
      (fun pattern here => text pattern (patterns_written item given pattern here)) spells, inner _ arm⟩

theorem body_every (adds : Additive p) {b after : Binding} (body : List Stmt)
    (text : ∀ e ∈ bodyExprs body, e.All p) (every : b.Every p) (traces : BodyTraces g body b after) :
    after.Every p := by
  cases traces with
  | nil => exact every
  | cons first later =>
    have here := traces_every adds _ (fun e listed => text e (by simp [bodyExprs, listed])) every first
    exact body_every adds _ (fun e listed => text e (by simp [bodyExprs, listed])) here later

theorem items_every (adds : Additive p) {b : Binding} {arms : List Binding} (items : List CaseItem)
    (text : ∀ e ∈ itemExprs items, e.All p) (every : b.Every p) (trace : ItemsTrace g items b arms) :
    ∀ arm ∈ arms, arm.Every p := by
  cases items with
  | nil =>
    cases trace
    simp
  | cons item rest =>
    obtain ⟨patterns, body⟩ := item
    cases trace with
    | cons first later =>
      have inner : ∀ e ∈ bodyExprs body, e.All p := fun e listed => text e (by simp [itemExprs, listed])
      have others : ∀ e ∈ itemExprs rest, e.All p := fun e listed => text e (by simp [itemExprs, listed])
      exact List.forall_mem_cons.mpr
        ⟨body_every adds body inner every first, items_every adds rest others every later⟩

end

end

theorem additive_signal (d : LeafId) : Additive (·.signal? ≠ some d) where
  blind n := by cases n <;> simp [shape, signal?]
  parents n parent := by cases n <;> simp_all [isAtom, signal?]
  literals _ _ := by simp [signal?]
  reads _ _ := by simp [signal?]

/-- The signal of a leaf that is bound gets into an entry only from the text. -/
theorem body_signals {g : Netlist} {b after : Binding} {body : List Stmt} {d leaf : LeafId}
    (bound : d ∈ b.keys) (start : ∀ leaf e, b.get? leaf = some e → ¬e.Reads d)
    (traces : BodyTraces g body b after) (read : (after.entry leaf).Reads d) :
    ∃ e ∈ bodyExprs body, e.Reads d := by
  by_contra none
  push Not at none
  have text : ∀ e ∈ bodyExprs body, e.All (·.signal? ≠ some d) := fun e listed =>
    not_not.mp fun some => none e listed (reads_iff_all.mpr some)
  have every : b.Every (·.signal? ≠ some d) := by
    intro other
    cases found : b.get? other with
    | some e =>
      rw [entry_of_get found]
      exact not_not.mp fun some => start other e found (reads_iff_all.mpr some)
    | none =>
      have differ : other ≠ d := fun same =>
        (OrderedMap.get?_eq_none b other).mp found (same ▸ bound)
      simp only [Binding.entry, found, Option.getD_none]
      exact all_iff.mpr ⟨by simpa [signal?] using differ, by simp [children]⟩
  exact reads_iff_all.mp read (body_every (additive_signal d) body text every traces leaf)

end CombLogic
