import CombLogic.Proofs.Block.Guards

/- Watched conditions against the sites they are built for. A condition cannot be 1 unless all
   conditions of its path are; and where they are, it is 1 exactly if a run comes to the site and
   finds several items matching. -/
namespace CombLogic

open Expr

namespace Value

theorem ones_low (vs : List Value) (single : ∀ v ∈ vs, v.width = 1) :
    (vs.flatMap bits).countP (· == .one) = vs.countP (· = ofBool true) := by
  induction vs with
  | nil => rfl
  | cons v rest ih =>
    obtain ⟨bit, bits⟩ := single_bit.mp (single v (by simp))
    obtain rfl : v = ⟨[bit]⟩ := congrArg mk bits
    rw [List.flatMap_cons, List.countP_append, ih fun w later => single w (by simp [later]),
      List.countP_cons, Nat.add_comm]
    cases bit <;> simp [ofBool, ofBit, Bit.ofBool]

/-- The 1 bits of single bits side by side. -/
theorem ones_concat (vs : List Value) (single : ∀ v ∈ vs, v.width = 1) :
    (concat vs).bits.countP (· == .one) = vs.countP (· = ofBool true) := by
  rw [concat, concatLowFirst, ones_low vs.reverse fun v listed => single v (by simpa using listed),
    List.countP_reverse]

theorem multiHot_true (v : Value) :
    v.multiHot = ofBool true ↔ 2 ≤ v.bits.countP (· == .one) := by
  unfold multiHot
  dsimp only
  split
  · simpa [ofBool, Bit.ofBool]
  · rename_i few
    refine iff_of_false (fun same => ?_) few
    split at same <;> cases same

end Value

namespace Scene

variable {c : Scene} {σ : Store} {wildcard : Bool} {selector : Expr}

theorem matches_width {pattern : Expr} {v : Value}
    (found : c.matches? wildcard selector pattern σ = some v) : v.width = 1 := by
  obtain ⟨⟨t, width⟩, sized, found⟩ := Option.bind_eq_some_iff.mp found
  obtain ⟨w, fits⟩ := sized_fitted sized
  have value := valueOn_outcome (of_toOption found)
  cases fit_step fits with
  | atom _ leaf => cases leaf
  | caseMatch =>
    cases value with
    | wildMatch => rfl
    | exactMatch => rfl

theorem anyOf_width {vs : List Value} {v : Value} (single : ∀ w ∈ vs, w.width = 1)
    (joined : anyOf vs = some v) : v.width = 1 := by
  have folded : ∀ (vs : List Value) (u : Value), u.width = 1 → (∀ w ∈ vs, w.width = 1) →
      vs.foldlM (fun v w => (v.or w).toOption) u = some v → v.width = 1 := by
    intro vs
    induction vs with
    | nil => exact fun u narrow _ done => Option.some.inj done ▸ narrow
    | cons w rest ih =>
      intro u narrow each done
      rw [List.foldlM_cons] at done
      obtain ⟨r, here, done⟩ := Option.bind_eq_some_iff.mp done
      have second := each w (by simp)
      obtain ⟨r', made, wide⟩ := Value.bitwise_ok "or" Bit.or (a := u) (b := w) (.inr (.inl narrow))
      obtain rfl : r = r' := Except.ok.inj ((of_toOption here).symm.trans made)
      refine ih r ?_ (fun w' later => each w' (by simp [later])) done
      rw [wide, narrow, second]
      rfl
  cases vs with
  | nil => exact Option.some.inj joined ▸ rfl
  | cons u rest =>
    exact folded rest u (single u (by simp)) (fun w later => single w (by simp [later])) joined

theorem joint_width {patterns : List Expr} {v : Value}
    (found : c.joint wildcard selector patterns σ = some v) : v.width = 1 := by
  obtain ⟨vs, each, joined⟩ := Option.bind_eq_some_iff.mp found
  refine anyOf_width (fun w listed => ?_) joined
  obtain ⟨pattern, -, here⟩ := forall₂_right (mapM_some.mp each) w listed
  exact matches_width here

end Scene

/-- A condition that is watched for a site, under the conditions of a path. -/
structure Watches (g : Netlist) (b : Binding) (path : List Expr) (site : Site) (e : Expr) : Prop where
  integerless : e.Integerless
  assigned : e.Assigned → ∀ p ∈ path, p.Assigned
  masked : ∀ env, Is env e true → ∀ p ∈ path, Is env p true
  exact : ∀ env σ v, Holds env b σ → e.Assigned → (∀ p ∈ path, Is env p true) →
    (site.reach (sceneOf g env b) σ).isSome → e.value env = .ok v →
      (v = .ofBool true ↔ site.Conflicts (sceneOf g env b) σ)

/-- A guard that is 1 exactly where a run enters a branch. -/
def Admits (g : Netlist) (b : Binding) (asked : Scene → Store → Option Bool) (guard : Expr) : Prop :=
  ∀ env σ bit, Holds env b σ → asked (sceneOf g env b) σ = some bit → guard.Assigned →
    (Is env guard true ↔ bit = true)

section

variable {g : Netlist} {b b' : Binding} {K L : Set Expr} {path found before : List Expr}
  {wildcard : Bool} {selector t e guard : Expr} {items : List CaseItem} {site : Site} {env : Env}
  {σ : Store}

theorem is_ofBool {bit want : Bool} (value : e.value env = .ok (.ofBool bit)) :
    Is env e want ↔ bit = want := by
  unfold Is
  rw [value]
  cases bit <;> cases want <;> decide

theorem decides_is {asked : Scene → Store → Option Bool} (decides : Decides g b asked L e)
    (holds : Holds env b σ) {bit : Bool} (answer : asked (sceneOf g env b) σ = some bit)
    (assigned : e.Assigned) (want : Bool) : Is env e want ↔ bit = want :=
  is_ofBool (decides.leads env σ bit holds answer assigned)

theorem decides_admits {asked : Scene → Store → Option Bool} (decides : Decides g b asked L e) :
    Admits g b asked e :=
  fun _ _ _ holds answer assigned => decides_is decides holds answer assigned true

/-- The guard of the other branch. -/
theorem decides_rejects {asked : Scene → Store → Option Bool} (decides : Decides g b asked L e)
    (needs : Needs [(e, false)] guard true) :
    Admits g b (fun c σ => (asked c σ).map (!·)) guard := by
  intro env σ bit holds answer assigned
  obtain ⟨other, here, rfl⟩ := Option.map_eq_some_iff.mp answer
  have operand := needs.assigned.mp assigned (e, false) List.mem_cons_self
  simpa [needs.value] using decides_is decides holds here operand false

/-- No item of a case is taken exactly if all match conditions are 0. -/
theorem misses_all (guards : Guards g b wildcard t items K found) (holds : Holds env b σ)
    (assigned : ∀ e ∈ found, e.Assigned) {bit : Bool}
    (answer : (sceneOf g env b).misses wildcard t items σ = some bit) :
    (∀ e ∈ found, Is env e false) ↔ bit = true := by
  induction guards with
  | nil =>
    obtain rfl := Option.some.inj answer
    simp
  | cons decides _ ih =>
    obtain ⟨taken, here, answer⟩ := Option.bind_eq_some_iff.mp answer
    have first := decides_is decides holds here (assigned _ (by simp)) false
    rw [List.forall_mem_cons, first]
    cases taken with
    | true =>
      obtain rfl := Option.some.inj answer
      simp
    | false =>
      rw [ih (fun e later => assigned e (by simp [later])) answer]
      simp

theorem sizing_some {α : Type} {answer : Expr → Option α} {width : Nat}
    (sized : selector.sized g.declared none = some (t, width)) :
    (sceneOf g env b).sizing selector answer = answer t := by
  simp only [Scene.sizing, sceneOf, sized, Option.bind_eq_bind, Option.bind_some]

theorem needs_misses {width : Nat} (sized : selector.sized g.declared none = some (t, width))
    (guards : Guards g b wildcard t items K found)
    (needs : Needs (found.map (·, false)) guard true) :
    Admits g b (fun c σ => c.sizing selector fun t => c.misses wildcard t items σ) guard := by
  intro env σ bit holds answer assigned
  simp only [sizing_some sized] at answer
  have operands : ∀ e ∈ found, e.Assigned := fun e listed =>
    needs.assigned.mp assigned (e, false) (List.mem_map_of_mem listed)
  rw [needs.value, ← misses_all guards holds operands answer]
  simp

theorem needs_takes {width : Nat} {item : CaseItem}
    (sized : selector.sized g.declared none = some (t, width))
    (guards : Guards g b wildcard t items K before)
    (decides : Decides g b (fun c => c.taken wildcard t item.patterns) L e)
    (needs : Needs ((e, true) :: before.map (·, false)) guard true) :
    Admits g b (fun c σ => c.sizing selector fun t => c.takes wildcard t items item σ) guard := by
  intro env σ bit holds answer assigned
  simp only [sizing_some sized] at answer
  obtain ⟨missed, here, answer⟩ := Option.bind_eq_some_iff.mp answer
  have own := needs.assigned.mp assigned _ List.mem_cons_self
  have operands : ∀ e ∈ before, e.Assigned := fun e listed =>
    needs.assigned.mp assigned (e, false) (List.mem_cons_of_mem _ (List.mem_map_of_mem listed))
  have others : (∀ p ∈ before.map (·, false), Is env p.1 p.2) ↔ missed = true := by
    simpa using misses_all guards holds operands here
  rw [needs.value, List.forall_mem_cons, others]
  cases missed with
  | true => simpa using decides_is decides holds answer own true
  | false =>
    obtain rfl := Option.some.inj answer
    simp

/-- The items whose match bit is 1. -/
theorem joints_count {c : Scene} {vs : List Value}
    (each : List.Forall₂ (fun item v => c.joint wildcard t item.patterns σ = some v) items vs) :
    vs.countP (· = .ofBool true) =
      items.countP fun item => c.joint wildcard t item.patterns σ = some (.ofBool true) := by
  induction each with
  | nil => rfl
  | cons here _ ih => simp only [List.countP_cons, ih, here, Option.some.injEq]

/-- The condition of a case itself. -/
theorem watches_case {width : Nat} (sized : selector.sized g.declared none = some (t, width))
    (joints : Joints g b wildcard t items L found) (integerless : e.Integerless)
    (watched : Watched path found e) :
    Watches g b path ⟨wildcard, selector, items, fun _ σ => some (some σ)⟩ e := by
  obtain ⟨m, n, needs⟩ := watched
  have above : ∀ p ∈ path, (p, true) ∈
      path.map (·, true) ++ [(Expr.unary n .multiHot (.concat m found), true)] :=
    fun p listed => List.mem_append_left _ (List.mem_map_of_mem listed)
  have several : (Expr.unary n .multiHot (.concat m found), true) ∈
      path.map (·, true) ++ [(Expr.unary n .multiHot (.concat m found), true)] := by simp
  refine ⟨integerless, fun done p listed => needs.assigned.mp done _ (above p listed),
    fun env one p listed => (needs.value env).mp one _ (above p listed), ?_⟩
  intro env σ v holds done passed reached value
  obtain ⟨w, here⟩ := needs.defined env v value _ several
  obtain ⟨u, joined, rfl⟩ := value_unary.mp here
  obtain ⟨vs, values, rfl⟩ := value_concat.mp joined
  have operands : ∀ f ∈ found, f.Assigned := by
    have multiple := needs.assigned.mp done _ several
    have parts := assigned_operand (a := .concat m found) multiple (by simp [children])
    exact fun f listed => assigned_operand parts (by simpa [children] using listed)
  have each := mapM_some.mp ((renders_values joints holds operands vs).mp values)
  have single : ∀ v ∈ vs, v.width = 1 := by
    intro v listed
    obtain ⟨item, -, found⟩ := forall₂_right each v listed
    exact Scene.joint_width found
  calc v = .ofBool true ↔ Is env e true := by simp [Is, value]
    _ ↔ Is env (.unary n .multiHot (.concat m found)) true := by
      have under : ∀ p ∈ path.map (·, true), Is env p.1 p.2 := by simpa using passed
      rw [needs.value, List.forall_mem_append, and_iff_right under, List.forall_mem_singleton]
    _ ↔ 2 ≤ vs.countP (· = .ofBool true) := by
      rw [Is, here, Except.ok.injEq, ← Value.ones_concat vs single]
      exact Value.multiHot_true _
    _ ↔ Site.Conflicts ⟨wildcard, selector, items, fun _ σ => some (some σ)⟩ (sceneOf g env b) σ := by
      rw [joints_count each]
      simp [Site.Conflicts, Site.Clashes, Site.matchBit, sizing_some sized]

/-- In a branch, the condition stands for the site as seen from before the branch. -/
theorem watches_under {asked : Scene → Store → Option Bool} (admits : Admits g b asked guard)
    (watches : Watches g b (guard :: path) site e) : Watches g b path (site.under asked) e where
  integerless := watches.integerless
  assigned done p listed := watches.assigned done p (List.mem_cons_of_mem _ listed)
  masked env one p listed := watches.masked env one p (List.mem_cons_of_mem _ listed)
  exact env σ v holds done passed reached value := by
    obtain ⟨r, reached⟩ := Option.isSome_iff_exists.mp reached
    obtain ⟨bit, answer, reached⟩ := Option.bind_eq_some_iff.mp reached
    have entered := admits env σ bit holds answer (watches.assigned done guard List.mem_cons_self)
    cases bit with
    | true =>
      have here : site.reach (sceneOf g env b) σ = some r := reached
      have all : ∀ p ∈ guard :: path, Is env p true :=
        List.forall_mem_cons.mpr ⟨entered.mpr rfl, passed⟩
      rw [watches.exact env σ v holds done all (by simp [here]) value, Site.conflicts_under answer]
    | false =>
      refine iff_of_false ?_ (Site.not_conflicts_under answer)
      rintro rfl
      exact absurd (entered.mp (watches.masked env value guard List.mem_cons_self)) (by decide)

/-- Behind a statement, the same from before the statement. -/
theorem watches_after {s : Stmt} (follows : Follows g b (fun c => c.run s) L b')
    (watches : Watches g b' path site e) : Watches g b path (site.after s) e where
  integerless := watches.integerless
  assigned := watches.assigned
  masked := watches.masked
  exact env σ v holds done passed reached value := by
    obtain ⟨r, reached⟩ := Option.isSome_iff_exists.mp reached
    obtain ⟨τ, run, reached⟩ := Option.bind_eq_some_iff.mp reached
    have scene : sceneOf g env b' = sceneOf g env b := by simp [sceneOf, follows.keys]
    have exact := watches.exact env τ v (follows.holds env σ τ holds run) done passed
    rw [scene] at exact
    rw [exact (by simp [reached]) value, Site.conflicts_after run]

end

end CombLogic
