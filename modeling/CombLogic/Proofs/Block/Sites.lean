import CombLogic.Proofs.Block.Run

/- The places of a block where several items of a case must not match at once, and how a run comes to
   each of them. It is settled that a run does not get there as soon as it takes another branch. -/
namespace CombLogic

open Expr

namespace Scene

variable (c : Scene)

/-- The joint match of an item's patterns. -/
def joint (wildcard : Bool) (selector : Expr) (patterns : List Expr) (σ : Store) : Option Value := do
  anyOf (← patterns.mapM fun pattern => c.matches? wildcard selector pattern σ)

/-- Whether a case takes none of some items, tried in turn. -/
def misses (wildcard : Bool) (selector : Expr) : List CaseItem → Store → Option Bool
  | [], _ => some true
  | item :: rest, σ => do
    if ← c.taken wildcard selector item.patterns σ then return false
    else misses wildcard selector rest σ

/-- Whether a case takes an item and none of those before it. -/
def takes (wildcard : Bool) (selector : Expr) (before : List CaseItem) (item : CaseItem) (σ : Store) :
    Option Bool := do
  if ← c.misses wildcard selector before σ then c.taken wildcard selector item.patterns σ
  else return false

/-- An answer that depends on a selector as it is sized. -/
def sizing {α : Type} (selector : Expr) (answer : Expr → Option α) : Option α := do
  let (sized, _) ← selector.sized c.netlist.declared none
  answer sized

end Scene

/-- A unique case of several items. -/
structure Site where
  wildcard : Bool
  selector : Expr
  items : List CaseItem
  /-- The store with which a run comes to the case, or none if it passes the case by. There is no
      answer for a run that stops before either is settled. -/
  reach : Scene → Store → Option (Option Store)

namespace Site

/-- A site in a branch that is entered under a condition. -/
def under (asked : Scene → Store → Option Bool) (site : Site) : Site :=
  { site with reach := fun c σ => do if ← asked c σ then site.reach c σ else return none }

/-- A site behind a statement. -/
def after (s : Stmt) (site : Site) : Site :=
  { site with reach := fun c σ => do site.reach c (← c.run s σ) }

/-- The match bit of an item. -/
def matchBit (site : Site) (c : Scene) (σ : Store) (item : CaseItem) : Option Value :=
  c.sizing site.selector fun selector => c.joint site.wildcard selector item.patterns σ

/-- The match bits of at least two items are 1. -/
def Clashes (site : Site) (c : Scene) (σ : Store) : Prop :=
  2 ≤ site.items.countP fun item => site.matchBit c σ item = some (.ofBool true)

/-- A run comes to the case and finds at least two items matching. -/
def Conflicts (site : Site) (c : Scene) (σ : Store) : Prop :=
  ∃ τ, site.reach c σ = some (some τ) ∧ site.Clashes c τ

instance (site : Site) (c : Scene) (σ : Store) : Decidable (site.Clashes c σ) :=
  inferInstanceAs (Decidable (_ ≤ _))

instance (site : Site) (c : Scene) (σ : Store) : Decidable (site.Conflicts c σ) :=
  match reached : site.reach c σ with
  | some (some τ) =>
    decidable_of_iff (site.Clashes c τ) ⟨fun clashes => ⟨τ, reached, clashes⟩,
      fun ⟨τ', there, clashes⟩ => by rwa [← Option.some.inj (Option.some.inj (there.symm.trans reached))]⟩
  | some none | none => isFalse fun ⟨τ, there, _⟩ => by simp [reached] at there

section

variable {site : Site} {asked : Scene → Store → Option Bool} {c : Scene} {σ τ : Store} {s : Stmt}

theorem conflicts_under (entered : asked c σ = some true) :
    (site.under asked).Conflicts c σ ↔ site.Conflicts c σ := by
  have same : (site.under asked).reach c σ = site.reach c σ := by simp [under, entered]
  unfold Conflicts
  rw [same]
  rfl

theorem not_conflicts_under (passed : asked c σ = some false) : ¬(site.under asked).Conflicts c σ := by
  simp [Conflicts, under, passed]

theorem conflicts_after (run : c.run s σ = some τ) :
    (site.after s).Conflicts c σ ↔ site.Conflicts c τ := by
  have same : (site.after s).reach c σ = site.reach c τ := by simp [after, run]
  unfold Conflicts
  rw [same]
  rfl

end

end Site

namespace Stmt

mutual

/-- The sites of a statement in the order of the text, as seen from where the statement starts. -/
def sites : Stmt → List Site
  | .assign .. => []
  | .ifElse e thenBody elseBody =>
    (bodySites thenBody).map (.under fun c => c.condition e) ++
      (bodySites elseBody).map (.under fun c σ => (c.condition e σ).map (!·))
  | .case kind selector items default =>
    (if kind.unique ∧ 1 < items.length then
      [⟨kind.wildcard, selector, items, fun _ σ => some (some σ)⟩] else []) ++
    (itemSites kind.wildcard selector [] items ++
      (bodySites default).map (.under fun c σ =>
        c.sizing selector fun selector => c.misses kind.wildcard selector items σ))

def bodySites : List Stmt → List Site
  | [] => []
  | s :: rest => sites s ++ (bodySites rest).map (.after s)

/-- The sites of the items that follow others in a case. -/
def itemSites (wildcard : Bool) (selector : Expr) : List CaseItem → List CaseItem → List Site
  | _, [] => []
  | before, .mk patterns body :: rest =>
    (bodySites body).map (.under fun c σ =>
      c.sizing selector fun selector => c.takes wildcard selector before (.mk patterns body) σ) ++
    itemSites wildcard selector (before ++ [.mk patterns body]) rest

end

end Stmt

open Stmt

section

variable {c : Scene} {σ σ' τ : Store} {site : Site} {wildcard : Bool} {selector t : Expr} {width : Nat}

namespace Site

theorem settles_under {asked : Scene → Store → Option Bool} (bit : Bool)
    (answer : asked c σ = some bit) (inside : bit = true → (site.reach c σ).isSome) :
    ((site.under asked).reach c σ).isSome := by
  cases bit with
  | true => simpa [under, answer] using inside rfl
  | false => simp [under, answer]

theorem settles_after {s : Stmt} (run : c.run s σ = some τ) (later : (site.reach c τ).isSome) :
    ((site.after s).reach c σ).isSome := by
  simpa [after, run] using later

end Site

namespace Scene

theorem misses_append {items : List CaseItem} (item : CaseItem) {missed : Bool}
    (before : c.misses wildcard t items σ = some missed) :
    c.misses wildcard t (items ++ [item]) σ =
      if missed then (c.taken wildcard t item.patterns σ).map (!·) else some false := by
  induction items with
  | nil =>
    obtain rfl := Option.some.inj before
    cases taken : c.taken wildcard t item.patterns σ with
    | none => simp [misses, taken]
    | some bit => cases bit <;> simp [misses, taken]
  | cons first rest ih =>
    obtain ⟨bit, taken, before⟩ := Option.bind_eq_some_iff.mp before
    cases bit with
    | true =>
      obtain rfl := Option.some.inj before
      simp [misses, taken]
    | false =>
      rw [List.cons_append, misses, taken]
      exact ih before

/-- A run of items ends in the default if no item is taken. -/
theorem runItems_misses {items : List CaseItem} {default : Store → Option Store}
    (done : c.runItems wildcard t items default σ = some σ') :
    ∃ missed, c.misses wildcard t items σ = some missed ∧
      (missed = true → default σ = some σ') := by
  induction items with
  | nil => exact ⟨true, rfl, fun _ => by simpa [runItems] using done⟩
  | cons item rest ih =>
    obtain ⟨patterns, body⟩ := item
    simp only [runItems] at done
    obtain ⟨bit, taken, done⟩ := Option.bind_eq_some_iff.mp done
    cases bit with
    | true => exact ⟨false, by simp [misses, CaseItem.patterns, taken], by simp⟩
    | false =>
      obtain ⟨missed, before, last⟩ := ih done
      exact ⟨missed, by simpa [misses, CaseItem.patterns, taken] using before, last⟩

end Scene

/-- The sites of items behind one that was taken. -/
theorem items_pass (sized : selector.sized c.netlist.declared none = some (t, width))
    {past : List CaseItem} (items : List CaseItem)
    (before : c.misses wildcard t past σ = some false) :
    ∀ site ∈ itemSites wildcard selector past items, (site.reach c σ).isSome := by
  induction items generalizing past with
  | nil => simp [itemSites]
  | cons item rest ih =>
    obtain ⟨patterns, body⟩ := item
    simp only [itemSites, List.mem_append, List.mem_map]
    rintro _ (⟨site, -, rfl⟩ | later)
    · exact Site.settles_under false (by simp [Scene.sizing, sized, Scene.takes, before]) (by simp)
    · exact ih (by simpa using Scene.misses_append (.mk patterns body) before) _ later

mutual

/-- A run that comes to its end settles for every site whether it got there. -/
theorem run_reaches (s : Stmt) {σ σ' : Store} (done : c.run s σ = some σ') :
    ∀ site ∈ s.sites, (site.reach c σ).isSome := by
  cases s with
  | assign => simp [sites]
  | ifElse e thenBody elseBody =>
    simp only [Scene.run] at done
    obtain ⟨bit, answer, done⟩ := Option.bind_eq_some_iff.mp done
    simp only [sites, List.mem_append, List.mem_map]
    rintro _ (⟨site, listed, rfl⟩ | ⟨site, listed, rfl⟩)
    · refine Site.settles_under bit answer ?_
      rintro rfl
      exact runAll_reaches thenBody done site listed
    · refine Site.settles_under (!bit) (by simp [answer]) fun other => ?_
      obtain rfl : bit = false := by simpa using other
      exact runAll_reaches elseBody done site listed
  | case kind selector items default =>
    simp only [Scene.run] at done
    obtain ⟨⟨t, width⟩, sized, done⟩ := Option.bind_eq_some_iff.mp done
    simp only [sites, List.mem_append, List.mem_map]
    rintro site (own | inner | ⟨site, listed, rfl⟩)
    · split at own
      · obtain rfl := List.mem_singleton.mp own
        rfl
      · simp at own
    · exact items_reach sized items rfl done site inner
    · obtain ⟨missed, before, last⟩ := Scene.runItems_misses done
      refine Site.settles_under missed (by simp [Scene.sizing, sized, before]) fun all => ?_
      exact runAll_reaches default (last all) site listed

theorem runAll_reaches (body : List Stmt) {σ σ' : Store} (done : c.runAll body σ = some σ') :
    ∀ site ∈ bodySites body, (site.reach c σ).isSome := by
  cases body with
  | nil => simp [bodySites]
  | cons s rest =>
    simp only [Scene.runAll] at done
    obtain ⟨τ, run, done⟩ := Option.bind_eq_some_iff.mp done
    simp only [bodySites, List.mem_append, List.mem_map]
    rintro _ (listed | ⟨site, listed, rfl⟩)
    · exact run_reaches s run _ listed
    · exact Site.settles_after run (runAll_reaches rest done site listed)

theorem items_reach {wildcard : Bool} {selector t : Expr} {width : Nat} {past : List CaseItem}
    {default : Store → Option Store} {σ σ' : Store}
    (sized : selector.sized c.netlist.declared none = some (t, width)) (items : List CaseItem)
    (before : c.misses wildcard t past σ = some true)
    (done : c.runItems wildcard t items default σ = some σ') :
    ∀ site ∈ itemSites wildcard selector past items, (site.reach c σ).isSome := by
  cases items with
  | nil => simp [itemSites]
  | cons item rest =>
    obtain ⟨patterns, body⟩ := item
    simp only [Scene.runItems] at done
    obtain ⟨bit, answer, done⟩ := Option.bind_eq_some_iff.mp done
    have answer : c.taken wildcard t (CaseItem.mk patterns body).patterns σ = some bit := answer
    have past_too := Scene.misses_append (.mk patterns body) before
    simp only [itemSites, List.mem_append, List.mem_map]
    rintro _ (⟨site, listed, rfl⟩ | later)
    · refine Site.settles_under bit ?_ ?_
      · simp [Scene.sizing, sized, Scene.takes, before, answer]
      · rintro rfl
        exact runAll_reaches body done site listed
    · cases bit with
      | true => exact items_pass sized rest (by simpa [answer] using past_too) _ later
      | false => exact items_reach sized rest (by simpa [answer] using past_too) done _ later

end

end

end CombLogic
