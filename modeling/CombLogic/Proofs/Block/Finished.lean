import CombLogic.Proofs.Block.Flow
import CombLogic.Proofs.Block.Traces
import CombLogic.Proofs.Sizing.Fixed

/- What symbolic execution binds is finished: it reads no targets any more, and it has the width of its
   leaf, whatever it is sized for. That takes statements whose expressions are sized for good. -/
namespace CombLogic

open Expr Sizing Netlist Stmt

variable {d : Ref → Option Nat}

/-- An expression that is sized for good and reads no target. -/
structure Expr.Finished (d : Ref → Option Nat) (e : Expr) (width : Nat) : Prop where
  fixed : e.Fixed d width
  read : e.All (·.target? = none)

theorem finished_alike {a b : Expr} {width : Nat} (alike : a.shape = b.shape)
    (finished : b.Finished d width) : a.Finished d width where
  fixed := fixed_same alike finished.fixed
  read := all_alike (fun n => by cases n <;> simp [shape, target?]) alike finished.read

theorem finished_atom {e : Expr} {width : Nat} (atom : e.children = []) (fixed : e.Fixed d width)
    (own : e.target? = none) : e.Finished d width :=
  ⟨fixed, all_iff.mpr ⟨own, by simp [atom]⟩⟩

theorem finished_parent {e : Expr} {width : Nat} (parent : e.isAtom = false) (fixed : e.Fixed d width)
    (operands : ∀ a ∈ e.children, a.All (·.target? = none)) : e.Finished d width :=
  ⟨fixed, all_iff.mpr ⟨by cases e <;> simp_all [isAtom, target?], operands⟩⟩

theorem finished_mux {c t f : Expr} {width : Nat} (n : Nat) (condition : c.Finished d 1)
    (whenTrue : t.Finished d width) (whenFalse : f.Finished d width) :
    (Expr.mux n c t f).Finished d width :=
  finished_parent rfl (fixed_mux n condition.fixed whenTrue.fixed whenFalse.fixed)
    (by simpa [children] using ⟨condition.read, whenTrue.read, whenFalse.read⟩)

theorem finished_concat {parts : List Expr} {ws : List Nat} (n : Nat)
    (each : List.Forall₂ (Finished d) parts ws) : (Expr.concat n parts).Finished d ws.sum := by
  refine finished_parent rfl (fixed_concat n (each.imp fun _ _ => Finished.fixed)) fun a operand => ?_
  obtain ⟨w, -, done⟩ := forall₂_left each a operand
  exact done.read

/-- What is joined by or from match bits is a bit. -/
theorem finished_ored {rs : List Expr} {e : Expr} (ored : Ored rs e)
    (each : ∀ r ∈ rs, r.Finished d 1) : e.Finished d 1 := by
  induction ored with
  | none n => exact finished_atom rfl (fixed_literal n (.ofBool false)) rfl
  | one listed => exact each _ listed
  | or _ _ left right =>
    exact finished_parent rfl (fixed_or _ left.fixed right.fixed)
      (by simpa [children] using ⟨left.read, right.read⟩)

theorem finished_picked {arms : List (Expr × Expr)} {fallback e : Expr} {width : Nat}
    (picked : Picked arms fallback e) (each : ∀ p ∈ arms, p.1.Finished d 1 ∧ p.2.Finished d width)
    (last : fallback.Finished d width) : e.Finished d width := by
  induction picked with
  | last alike => exact finished_alike alike last
  | same alike _ _ => exact finished_alike alike (each _ List.mem_cons_self).2
  | mux alike _ ih =>
    obtain ⟨own, first⟩ := each _ List.mem_cons_self
    exact finished_alike alike
      (finished_mux 0 own first (ih (fun p later => each p (by simp [later])) last))

/-- With every read replaced by something finished, a sized expression is finished. -/
theorem finished_subst {answer : Ref → Expr} (answers : ∀ target width, d target = some width →
    (answer target).Finished d width) {e : Expr} {width : Nat} (fixed : e.Fixed d width) :
    (e.subst answer).Finished d width := by
  refine ⟨fixed_subst (fun target width known => (answers target width known).fixed) fixed, ?_⟩
  have known : e.All fun n => (n.natural d).isSome :=
    fitted_known e fixed.2 (by simp [fixed.1])
  clear fixed
  induction e using operand_induction with
  | step e ih =>
    obtain ⟨own, operands⟩ := all_iff.mp known
    have below := fun a member => ih a member (operands a member)
    by_cases stays : ∀ node target, e ≠ .read node target
    · refine all_iff.mpr ⟨?_, fun a member => ?_⟩
      · cases e with
        | read node target => exact (stays node target rfl).elim
        | _ => rfl
      · rw [children_subst stays] at member
        obtain ⟨b, inside, rfl⟩ := List.mem_map.mp member
        exact below b inside
    · push Not at stays
      obtain ⟨node, target, rfl⟩ := stays
      obtain ⟨natural, found⟩ := Option.isSome_iff_exists.mp own
      obtain ⟨w, declared, -⟩ := Option.bind_eq_some_iff.mp found
      exact (finished_alike (shape_shape (answer target)) (answers target w declared)).read

section

variable {g : Netlist} {b after : Binding} {leaf : LeafId} {target : Ref} {width : Nat}

/-- What is bound to a leaf is finished for it. -/
def Binding.Finished (g : Netlist) (b : Binding) : Prop :=
  ∀ leaf e, b.get? leaf = some e → ∃ width, g.HasWidth (leaf, width) ∧ e.Finished g.declared width

theorem entry_finished (finished : b.Finished g) (there : g.HasWidth (leaf, width)) :
    (b.entry leaf).Finished g.declared width := by
  unfold Binding.entry
  cases found : b.get? leaf with
  | none => exact finished_atom rfl (fixed_signal 0 there) rfl
  | some e =>
    obtain ⟨width', known, done⟩ := finished leaf e found
    obtain rfl : width' = width := hasWidth_unique known there rfl
    exact done

/-- A target with a width has leaves. -/
theorem declared_parts (declared : g.declared target = some width) :
    ∃ parts, g.leafWidths target = .ok parts ∧ (parts.map Prod.snd).sum = width := by
  have found : g.widthOf target = .ok width := of_toOption declared
  have nested : ∀ depth target total, g.widthWithin depth target = .ok total → g.Nested target := by
    intro depth
    induction depth with
    | zero =>
      intro target total found
      cases target with
      | leaf id =>
        obtain ⟨leaf, known, -⟩ := bind_ok found
        exact .leaf (by simp [leaf_ok.mp known])
      | bundle => cases found
    | succ depth ih =>
      intro target total found
      cases target with
      | leaf id =>
        obtain ⟨leaf, known, -⟩ := bind_ok found
        exact .leaf (by simp [leaf_ok.mp known])
      | bundle id =>
        obtain ⟨bundle, known, found⟩ := bind_ok found
        obtain ⟨widths, each, -⟩ := bind_ok found
        refine .bundle (bundle_ok.mp known) fun e listed => ?_
        obtain ⟨total, -, here⟩ := forall₂_left (mapM_ok each) e listed
        exact ih e total here
  obtain ⟨parts, leaves⟩ := nested_iff.mp (nested _ _ _ found)
  exact ⟨parts, leaves, declared_total declared leaves⟩

theorem held_finished (finished : b.Finished g) (declared : g.declared target = some width) :
    (g.held b target).Finished g.declared width := by
  obtain ⟨parts, found, rfl⟩ := declared_parts declared
  refine held_sums found (fun part listed => ?_) fun _ _ => finished_concat 0
  exact entry_finished finished ((leafWidths_ok found).2 part listed)

theorem finished_insert {e : Expr} (finished : b.Finished g) (there : g.HasWidth (leaf, width))
    (done : e.Finished g.declared width) : Binding.Finished g (b.insert leaf e) := by
  intro other f found
  rw [OrderedMap.get?_insert] at found
  split at found
  · rename_i same
    obtain rfl := Option.some.inj found
    exact ⟨width, same ▸ there, done⟩
  · exact finished other f found

theorem finished_bindAll {ds : List (LeafId × Expr)} (finished : b.Finished g)
    (each : ∀ p ∈ ds, ∃ width, g.HasWidth (p.1, width) ∧ p.2.Finished g.declared width) :
    (Executing.bindAll b ds).Finished g := by
  induction ds generalizing b with
  | nil => exact finished
  | cons p rest ih =>
    obtain ⟨width, there, done⟩ := each p (by simp)
    exact ih (finished_insert finished there done) fun q later => each q (by simp [later])

theorem finished_joined {arms : List (Expr × Binding)} {fallback : Binding}
    (joined : Gathered arms fallback b after) (finished : b.Finished g)
    (each : ∀ p ∈ arms, p.1.Finished g.declared 1 ∧ p.2.Finished g) (last : fallback.Finished g) :
    after.Finished g := by
  intro leaf e found
  have listed : leaf ∈ b.keys := joined.keys ▸ OrderedMap.mem_keys_of_get? found
  obtain ⟨f, before⟩ := OrderedMap.get?_of_mem_keys listed
  obtain ⟨width, there, -⟩ := finished leaf f before
  refine ⟨width, there, finished_picked (joined.merges leaf e found) ?_ (entry_finished last there)⟩
  refine List.forall_mem_map.mpr fun p member => ?_
  exact ⟨(each p member).1, entry_finished (each p member).2 there⟩

/-- What sizing makes of an expression for a context is sized for good. -/
def Expr.Stable (d : Ref → Option Nat) (e : Expr) (context : Option Nat) : Prop :=
  ∀ r ∈ e.sized d context, r.1.Fixed d r.2

instance (d : Ref → Option Nat) (e : Expr) (width : Nat) : Decidable (e.Fixed d width) :=
  inferInstanceAs (Decidable (_ ∧ _))

instance (d : Ref → Option Nat) (e : Expr) (context : Option Nat) : Decidable (e.Stable d context) :=
  inferInstanceAs (Decidable (∀ r ∈ e.sized d context, _))

/-- Where every part has a bit, sizing is for good. -/
theorem proper_stable {e : Expr} {context : Option Nat} (proper : e.Proper d)
    (bits : context ≠ some 0) : e.Stable d context :=
  fun _ sized => (sized_settles sized bits proper).1

namespace Stmt

variable (g : Netlist)

mutual

/-- The expressions of a statement are sized for good where they stand. -/
def Stable : Stmt → Prop
  | .assign target e => e.Stable g.declared (g.declared target)
  | .ifElse condition thenBody elseBody =>
    condition.Stable g.declared (some 1) ∧ BodyStable thenBody ∧ BodyStable elseBody
  | .case kind selector items default =>
    (∀ r ∈ selector.sized g.declared none, ItemsStable kind.wildcard r.1 items) ∧ BodyStable default

def BodyStable : List Stmt → Prop
  | [] => True
  | s :: rest => Stable s ∧ BodyStable rest

/-- The same for the matches of a sized selector. -/
def ItemsStable (wildcard : Bool) (selector : Expr) : List CaseItem → Prop
  | [] => True
  | .mk patterns body :: rest =>
    (∀ pattern ∈ patterns, (Expr.caseMatch 0 selector pattern wildcard).Stable g.declared none) ∧
      BodyStable body ∧ ItemsStable wildcard selector rest

end

mutual

def decideStable : (s : Stmt) → Decidable (Stable g s)
  | .assign target e => inferInstanceAs (Decidable (e.Stable g.declared (g.declared target)))
  | .ifElse condition thenBody elseBody =>
    have := decideBodyStable thenBody
    have := decideBodyStable elseBody
    inferInstanceAs (Decidable (condition.Stable g.declared (some 1) ∧ _ ∧ _))
  | .case kind selector items default =>
    have := fun sized => decideItemsStable kind.wildcard sized items
    have := decideBodyStable default
    inferInstanceAs (Decidable ((∀ r ∈ selector.sized g.declared none, _) ∧ _))

def decideBodyStable : (body : List Stmt) → Decidable (BodyStable g body)
  | [] => inferInstanceAs (Decidable True)
  | s :: rest =>
    have := decideStable s
    have := decideBodyStable rest
    inferInstanceAs (Decidable (_ ∧ _))

def decideItemsStable (wildcard : Bool) (selector : Expr) :
    (items : List CaseItem) → Decidable (ItemsStable g wildcard selector items)
  | [] => inferInstanceAs (Decidable True)
  | .mk patterns body :: rest =>
    have := decideBodyStable body
    have := decideItemsStable wildcard selector rest
    inferInstanceAs (Decidable ((∀ pattern ∈ patterns, _) ∧ _ ∧ _))

end

instance (body : List Stmt) : Decidable (BodyStable g body) := decideBodyStable g body

variable {g}

theorem itemsStable_patterns {wildcard : Bool} {selector : Expr} {items : List CaseItem}
    (stable : ItemsStable g wildcard selector items) : ∀ item ∈ items, ∀ pattern ∈ item.patterns,
      (Expr.caseMatch 0 selector pattern wildcard).Stable g.declared none := by
  induction items with
  | nil => simp
  | cons item rest ih =>
    obtain ⟨patterns, body⟩ := item
    exact List.forall_mem_cons.mpr ⟨stable.1, ih stable.2.2⟩

end Stmt

theorem shares_finished {e : Expr} {ps ds : List (LeafId × Expr)} (finished : b.Finished g)
    (stable : e.Stable g.declared (g.declared target)) (shares : g.shares target e = some ps)
    (answers : g.Answers b ps ds) :
    ∀ p ∈ ds, ∃ width, g.HasWidth (p.1, width) ∧ p.2.Finished g.declared width := by
  have each : ∀ p ∈ ps, ∃ width, g.HasWidth (p.1, width) ∧ p.2.Fixed g.declared width := by
    cases target with
    | leaf leaf =>
      obtain ⟨t, width, declared, sized, rfl⟩ := shares_leaf.mp shares
      rw [declared] at stable
      obtain ⟨entry, found, own⟩ := leaf_width declared
      simpa using ⟨width, ⟨entry, found, own⟩, stable (t, width) sized⟩
    | bundle id =>
      obtain ⟨t, parts, widths, declared, sized, rfl⟩ := shares_bundle.mp shares
      rw [declared] at stable
      have fixed := stable (t, _) sized
      intro p listed
      obtain ⟨part, given, same, own⟩ := forall₂_left (fixed_slices fixed (by omega)) p listed
      exact ⟨part.2, same ▸ (leafWidths_ok widths).2 part given, own⟩
  intro p listed
  obtain ⟨share, given, same, form⟩ := forall₂_right answers p listed
  obtain ⟨width, there, fixed⟩ := each share given
  refine ⟨width, same ▸ there, finished_alike (shape_shape p.2).symm (form ▸ ?_)⟩
  exact finished_subst (fun target width => held_finished finished) fixed

/-- What stands for the match of a selector with a pattern is a bit. -/
theorem standsFor_finished {wildcard : Bool} {selector pattern r : Expr} (finished : b.Finished g)
    (stable : (Expr.caseMatch 0 selector pattern wildcard).Stable g.declared none)
    (stands : StandsFor g b wildcard selector pattern r) : r.Finished g.declared 1 := by
  obtain ⟨t, width, sized, form⟩ := stands
  have fixed : t.Fixed g.declared width := stable (t, width) sized
  obtain ⟨w, fits⟩ := sized_fitted sized
  obtain rfl : width = 1 := by
    cases fit_step fits with
    | atom _ leaf => cases leaf
    | caseMatch => rfl
  exact finished_alike (shape_shape r).symm
    (form ▸ finished_subst (fun target width => held_finished finished) fixed)

theorem spelled_finished {wildcard : Bool} {selector e : Expr} {patterns : List Expr}
    (finished : b.Finished g) (stable : ∀ pattern ∈ patterns,
      (Expr.caseMatch 0 selector pattern wildcard).Stable g.declared none)
    (spelled : Spelled g b wildcard selector patterns e) : e.Finished g.declared 1 := by
  obtain ⟨rs, stand, -, -, ored⟩ := spelled
  refine finished_ored ored fun r listed => ?_
  obtain ⟨pattern, given, stands⟩ := forall₂_right stand r listed
  exact standsFor_finished finished (stable pattern given) stands

mutual

/-- Statements whose expressions are sized for good bind finished expressions. -/
theorem traces_finished {b after : Binding} (s : Stmt) (stable : s.Stable g) (finished : b.Finished g)
    (traces : s.Traces g b after) : after.Finished g := by
  cases traces with
  | assign shares answers =>
    exact finished_bindAll finished (shares_finished finished stable shares answers)
  | ifElse asks first second joined =>
    obtain ⟨condition, inner, inner'⟩ := stable
    obtain ⟨t, sized, form⟩ := asks
    have fixed := finished_subst (fun target width => held_finished finished) (condition _ sized)
    refine finished_joined joined finished ?_ (body_finished _ inner' finished second)
    rintro p listed
    obtain rfl := List.mem_singleton.mp listed
    exact ⟨finished_alike (shape_shape _).symm (form ▸ fixed), body_finished _ inner finished first⟩
  | @case kind selector t width items default found arms _ fallback _ sized spelled each last joined =>
    obtain ⟨inner, inner'⟩ := stable
    have inner := inner _ sized
    refine finished_joined joined finished (fun p listed => ?_) (body_finished _ inner' finished last)
    obtain ⟨condition, arm⟩ := List.of_mem_zip listed
    obtain ⟨item, given, spells⟩ := forall₂_right spelled _ condition
    exact ⟨spelled_finished finished (itemsStable_patterns inner item given) spells,
      items_finished items inner finished each _ arm⟩

theorem body_finished {b after : Binding} (body : List Stmt) (stable : BodyStable g body)
    (finished : b.Finished g) (traces : BodyTraces g body b after) : after.Finished g := by
  cases traces with
  | nil => exact finished
  | cons first later =>
    exact body_finished _ stable.2 (traces_finished _ stable.1 finished first) later

theorem items_finished {wildcard : Bool} {selector : Expr} {b : Binding} {arms : List Binding}
    (items : List CaseItem) (stable : ItemsStable g wildcard selector items) (finished : b.Finished g)
    (trace : ItemsTrace g items b arms) : ∀ arm ∈ arms, arm.Finished g := by
  cases trace with
  | nil => simp
  | cons first later =>
    obtain ⟨-, inner, others⟩ := stable
    exact List.forall_mem_cons.mpr
      ⟨body_finished _ inner finished first, items_finished _ others finished later⟩

end

end

end CombLogic
