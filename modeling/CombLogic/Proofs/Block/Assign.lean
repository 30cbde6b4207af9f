import CombLogic.Proofs.Block.Executing
import CombLogic.Proofs.Block.Leads

/- Steps of symbolic execution against steps of a run: reading, and storing in a leaf or in all leaves
   of a bundle. -/
namespace CombLogic

open Expr

/-- The entries of a binding are nodes without integers. -/
structure Binding.Good (b : Binding) (K : Set Expr) : Prop where
  within : b.Within K
  integerless : ∀ leaf e, b.get? leaf = some e → e.Integerless

/-- A binding follows a piece of a program: from a store that agrees with the binding before, a run of
    the piece comes to a store that agrees with the one after. -/
structure Follows (g : Netlist) (b : Binding) (run : Scene → Store → Option Store) (L : Set Expr)
    (after : Binding) : Prop where
  good : after.Good L
  keys : after.keys = b.keys
  holds : ∀ env σ σ', Holds env b σ → run (sceneOf g env b) σ = some σ' → Holds env after σ'

/-- The expression that is built for what a run asks. Once all it reads is assigned, it has the value
    of the answer, and no value where there is no answer. -/
structure Renders (g : Netlist) (b : Binding) (asked : Scene → Store → Option Value) (L : Set Expr)
    (r : Expr) : Prop where
  inside : r ∈ L
  integerless : r.Integerless
  value : ∀ env σ v, Holds env b σ → r.Assigned →
    (r.value env = .ok v ↔ asked (sceneOf g env b) σ = some v)

section

variable {K L : Set Expr} {next : Nat} {g : Netlist} {b b' : Binding} {env : Env} {σ σ' : Store}

theorem good_mono (sub : K ⊆ L) (good : b.Good K) : b.Good L :=
  ⟨within_mono sub good.within, good.integerless⟩

theorem good_insert {leaf : LeafId} {e : Expr} (good : b.Good K) (inside : e ∈ K)
    (integerless : e.Integerless) : Binding.Good (b.insert leaf e) K := by
  constructor
  · intro other f found
    rw [OrderedMap.get?_insert] at found
    split at found
    · exact Option.some.inj found ▸ inside
    · exact good.within other f found
  · intro other f found
    rw [OrderedMap.get?_insert] at found
    split at found
    · exact Option.some.inj found ▸ integerless
    · exact good.integerless other f found

theorem holds_insert {leaf : LeafId} {e : Expr} {v : Value} (holds : Holds env b σ)
    (leads : Leads env e v) : Holds env (b.insert leaf e) (Function.update σ leaf v) := by
  intro other f found
  rw [OrderedMap.get?_insert] at found
  split at found
  · rename_i same
    obtain rfl := Option.some.inj found
    subst same
    simpa using leads
  · rename_i differ
    rw [Function.update_of_ne (by simpa [eq_comm] using differ)]
    exact holds other f found

theorem keys_insert_of_mem {leaf : LeafId} {e : Expr} (listed : leaf ∈ b.keys) :
    (OrderedMap.insert b leaf e).keys = b.keys := by
  rw [OrderedMap.keys_insert, if_pos listed]

theorem follows_refl (good : b.Good L) : Follows g b (fun _ σ => some σ) L b :=
  ⟨good, rfl, fun _ _ _ holds done => Option.some.inj done ▸ holds⟩

theorem follows_trans {run run' : Scene → Store → Option Store} {b'' : Binding}
    (first : Follows g b run K b') (rest : Follows g b' run' L b'') :
    Follows g b (fun c σ => run c σ >>= run' c) L b'' := by
  refine ⟨rest.good, rest.keys.trans first.keys, fun env σ σ'' holds done => ?_⟩
  obtain ⟨σ', here, done⟩ := Option.bind_eq_some_iff.mp done
  have scene : sceneOf g env b' = sceneOf g env b := by simp [sceneOf, first.keys]
  exact rest.holds env σ' σ'' (first.holds env σ σ' holds here) (scene ▸ done)

theorem renders_mono {asked : Scene → Store → Option Value} {r : Expr} (sub : K ⊆ L)
    (renders : Renders g b asked K r) : Renders g b asked L r :=
  ⟨sub renders.inside, renders.integerless, renders.value⟩

theorem Renders.leads {asked : Scene → Store → Option Value} {r : Expr} (renders : Renders g b asked L r)
    (env : Env) (σ : Store) (v : Value) (holds : Holds env b σ)
    (found : asked (sceneOf g env b) σ = some v) : Leads env r v :=
  fun assigned => (renders.value env σ v holds assigned).mpr found

theorem held_integerless (good : b.Good K) (target : Ref) : (g.held b target).Integerless := by
  refine held_all (fun _ _ leaf _ => ?_) (fun _ => rfl) fun _ => rfl
  unfold Binding.entry
  cases found : b.get? leaf with
  | some e => exact good.integerless leaf e found
  | none => exact all_iff.mpr ⟨rfl, by simp [children]⟩

theorem replaces_renders (good : b.Good K) {e t r : Expr} (alike : e.shape = t.shape)
    (integerless : t.Integerless) (replaces : Replaces (g.held b) e L r) :
    Renders g b (·.value · t) L r := by
  obtain ⟨inside, form⟩ := replaces
  refine ⟨inside, ?_, fun env σ v holds assigned => resolved_value holds form alike assigned⟩
  have substituted : (e.subst (g.held b)).Integerless :=
    (subst_integerless e).mpr ⟨integerless_alike alike integerless, fun _ target _ =>
      held_integerless good target⟩
  exact integerless_alike (shape_shape r).symm (form ▸ substituted)

theorem sized_integerless {e t : Expr} {context : Option Nat} {width : Nat}
    (done : e.sized g.declared context = some (t, width)) : t.Integerless := by
  obtain ⟨w, fits⟩ := sized_fitted done
  exact fitted_integerless fits

/-- What a run of an assignment finds and stores. -/
theorem assign_some {c : Scene} {target : Ref} {e t : Expr} {width : Nat}
    (declared : c.netlist.declared target = some width)
    (sized : e.sized c.netlist.declared (some width) = some (t, width))
    (done : c.assign target e σ = some σ') : ∃ v, c.value σ t = some v ∧ match target with
      | .leaf leaf => Function.update σ leaf v = σ'
      | .bundle _ => ∃ parts, c.netlist.leafWidths target = .ok parts ∧
          Scene.storeParts v 0 parts σ = some σ' := by
  simp only [Scene.assign, declared, sized, Option.bind_eq_bind, Option.bind_some, ne_eq,
    not_true_eq_false, ↓reduceIte, Option.bind_eq_some_iff] at done
  obtain ⟨v, found, done⟩ := done
  refine ⟨v, found, ?_⟩
  cases target with
  | leaf leaf => exact Option.some.inj done
  | bundle id =>
    obtain ⟨parts, here, done⟩ := Option.bind_eq_some_iff.mp done
    exact ⟨parts, of_toOption here, done⟩

/-- A slice leads to the part that the run stores. -/
theorem piece_leads {e : Expr} {v w : Value} {low width : Nat} (leads : Leads env e v)
    (stored : Scene.part v low width = some w) : Leads env (Netlist.piece e low width) w := by
  intro assigned
  unfold Netlist.piece at assigned ⊢
  unfold Scene.part at stored
  split at stored
  · rename_i empty
    obtain rfl := Option.some.inj stored
    simp [empty, Expr.value, valueOn]
  · rename_i bits
    simp only [bits, ↓reduceIte] at assigned ⊢
    have here : e.valueOn env env.unreadable = .ok v :=
      leads (assigned_operand assigned (by simp [children]))
    simp only [Expr.value, valueOn, here, bind, Except.bind, of_toOption stored]
    rfl

/-- Binding all pieces of an expression follows storing all parts of its value. -/
theorem bindAll_holds {e : Expr} {v : Value} {low : Nat} {parts : List (LeafId × Nat)}
    {ds : List (LeafId × Expr)} (holds : Holds env b σ) (leads : Leads env e v)
    (alike : List.Forall₂ Netlist.Alike ds (Netlist.plainSlices e low parts))
    (stored : Scene.storeParts v low parts σ = some σ') :
    Holds env (Executing.bindAll b ds) σ' := by
  induction parts generalizing low ds b σ with
  | nil =>
    cases alike
    obtain rfl := Option.some.inj stored
    exact holds
  | cons part rest ih =>
    obtain ⟨leaf, width⟩ := part
    obtain ⟨⟨id, s⟩, later, ⟨same, form⟩, alikes, rfl⟩ := List.forall₂_cons_right_iff.mp alike
    simp only [Scene.storeParts, Option.bind_eq_bind, Option.bind_eq_some_iff] at stored
    obtain ⟨w, here, stored⟩ := stored
    have first : Leads env s w := leads_alike form (piece_leads leads here)
    obtain rfl : id = leaf := same
    have bound : Holds env (Executing.bindAll (OrderedMap.insert b id s) later) σ' :=
      ih (holds_insert holds first) alikes stored
    exact bound

theorem bindAll_good {ds : List (LeafId × Expr)} (good : b.Good K)
    (each : ∀ p ∈ ds, p.2 ∈ K ∧ p.2.Integerless) : Binding.Good (Executing.bindAll b ds) K := by
  induction ds generalizing b with
  | nil => exact good
  | cons p rest ih =>
    obtain ⟨inside, integerless⟩ := each p (by simp)
    exact ih (good_insert good inside integerless) fun q later => each q (by simp [later])

theorem bindAll_keys {ds : List (LeafId × Expr)} (covered : ∀ p ∈ ds, p.1 ∈ b.keys) :
    (Executing.bindAll b ds).keys = b.keys := by
  induction ds generalizing b with
  | nil => rfl
  | cons p rest ih =>
    have same := keys_insert_of_mem (e := p.2) (covered p (by simp))
    refine (ih fun q later => ?_).trans same
    exact same ▸ covered q (by simp [later])

/-- A binding has an entry for every leaf of a target. -/
def Covers (g : Netlist) (keys : List LeafId) (target : Ref) : Prop :=
  ∀ leaves, g.leavesOf target = .ok leaves → ∀ leaf ∈ leaves, leaf ∈ keys

theorem plainSlices_integerless {e : Expr} (integerless : e.Integerless)
    (parts : List (LeafId × Nat)) (low : Nat) :
    ∀ p ∈ Netlist.plainSlices e low parts, p.2.Integerless := by
  induction parts generalizing low with
  | nil => simp [Netlist.plainSlices]
  | cons part rest ih =>
    obtain ⟨leaf, width⟩ := part
    intro p listed
    rcases List.mem_cons.mp listed with rfl | later
    · unfold Netlist.piece
      split
      · exact all_iff.mpr ⟨rfl, by simp [children]⟩
      · refine all_iff.mpr ⟨rfl, fun a operand => ?_⟩
        obtain rfl : a = e := by simpa [children] using operand
        exact integerless
    · exact ih _ p later

/-- What an assignment binds: the sized expression with what is bound in place of its reads, or a part
    of it for each leaf. -/
inductive Binds (g : Netlist) (b : Binding) (e : Expr) (L : Set Expr) :
    Ref → List (LeafId × Expr) → Prop where
  | leaf {leaf : LeafId} {t r : Expr} {width : Nat} (declared : g.declared (.leaf leaf) = some width)
      (sized : e.sized g.declared (some width) = some (t, width))
      (replaces : Replaces (g.held b) t L r) : Binds g b e L (.leaf leaf) [(leaf, r)]
  | bundle {id : BundleId} {t r : Expr} {width : Nat} {parts : List (LeafId × Nat)}
      {ds : List (LeafId × Expr)} (declared : g.declared (.bundle id) = some width)
      (sized : e.sized g.declared (some width) = some (t, width))
      (replaces : Replaces (g.held b) t L r) (widths : g.leafWidths (.bundle id) = .ok parts)
      (insides : ∀ p ∈ ds, p.2 ∈ L)
      (alike : List.Forall₂ Netlist.Alike ds (Netlist.plainSlices r 0 parts)) :
      Binds g b e L (.bundle id) ds

theorem assign_binds (sharing : Sharing K next) (within : b.Within K) {e : Expr} (member : e ∈ K)
    (c : ExecContext) {target : Ref} : Yields K (Executing.assign c target e b) fun L after =>
      ∃ ds, Binds c.netlist b e L target ds ∧ after = Executing.bindAll b ds := by
  refine yields_bind (yields_ask fun width found L _ => found) fun L₁ _ width sub₁ _ found => ?_
  have declared : c.netlist.declared target = some width := by
    simp [Netlist.declared, found, Except.toOption]
  refine yields_bind (yields_mono (yields_build (Netlist.makes_sized sharing member _)) sub₁) ?_
  rintro L₂ _ ⟨s, actual⟩ sub₂ sharing₂ ⟨inside, ⟨t, sized, alike⟩, -⟩
  by_cases differ : actual ≠ width
  · simp only [if_pos differ]
    exact yields_reject
  obtain rfl := not_not.mp differ
  simp only [ne_eq, not_true_eq_false, ↓reduceIte]
  refine yields_bind (yields_build (resolve_makes sharing₂
    (within_mono (sub₁.trans sub₂) within) inside)) ?_
  rintro L₃ _ r _ _ ⟨inner, form⟩
  have form : r.shape = t.subst (c.netlist.held b) := form.trans (subst_alike alike)
  cases target with
  | leaf leaf =>
    exact yields_pure fun _ sub => ⟨_, .leaf declared sized ⟨sub inner, form⟩, rfl⟩
  | bundle id =>
    refine yields_bind (yields_build (Netlist.distribute_pieces inner _)) ?_
    rintro L₄ _ ds sub₄ _ ⟨insides, parts, widths, alikes⟩
    exact yields_pure fun _ sub => ⟨ds, .bundle declared sized ⟨sub (sub₄ inner), form⟩ widths
      (fun p listed => sub (insides p listed)) alikes, rfl⟩

theorem binds_follow {e : Expr} {target : Ref} {ds : List (LeafId × Expr)} (good : b.Good L)
    (covered : Covers g b.keys target) (binds : Binds g b e L target ds) :
    Follows g b (fun c => c.assign target e) L (Executing.bindAll b ds) := by
  cases binds with
  | @leaf leaf t r _ declared sized replaces =>
    have renders := replaces_renders good rfl (sized_integerless sized) replaces
    have listed : leaf ∈ b.keys := covered [leaf] Netlist.leavesOf_leaf leaf (by simp)
    refine ⟨good_insert good renders.inside renders.integerless, keys_insert_of_mem listed, ?_⟩
    intro env σ σ' holds done
    obtain ⟨v, found, stored⟩ := assign_some (c := sceneOf g env b) declared sized done
    obtain rfl : Function.update σ leaf v = σ' := stored
    exact holds_insert holds (renders.leads env σ v holds found)
  | @bundle id t r _ parts ds declared sized replaces widths insides alike =>
    have renders := replaces_renders good rfl (sized_integerless sized) replaces
    have leaves := (Netlist.leafWidths_ok widths).1
    have same : ds.map Prod.fst = parts.map Prod.fst :=
      (Netlist.alike_leaves alike).trans (Netlist.plainSlices_leaves _ _ _)
    refine ⟨bindAll_good good fun p listed => ⟨insides p listed, ?_⟩,
      bindAll_keys fun p listed => ?_, ?_⟩
    · obtain ⟨q, inner, -, form⟩ := forall₂_left alike p listed
      exact integerless_alike form (plainSlices_integerless renders.integerless parts 0 q inner)
    · exact covered _ leaves p.1 (same ▸ List.mem_map_of_mem listed)
    · intro env σ σ' holds done
      obtain ⟨v, found, parts', here, stored⟩ := assign_some (c := sceneOf g env b) declared sized done
      obtain rfl : parts = parts' := Except.ok.inj (widths.symm.trans here)
      exact bindAll_holds holds (renders.leads env σ v holds found) alike stored

/-- A condition leads to the bit that the run finds for it. -/
structure Decides (g : Netlist) (b : Binding) (asked : Scene → Store → Option Bool) (L : Set Expr)
    (r : Expr) : Prop where
  inside : r ∈ L
  integerless : r.Integerless
  leads : ∀ env σ bit, Holds env b σ → asked (sceneOf g env b) σ = some bit →
    Leads env r (.ofBool bit)

theorem bit_some {v : Value} {bit : Bool} (known : Scene.bit? v = some bit) : v = .ofBool bit := by
  obtain ⟨bits⟩ := v
  unfold Scene.bit? at known
  split at known <;> simp_all [Value.ofBool, Value.ofBit, Bit.ofBool]

theorem condition_some {c : Scene} {e t : Expr} {bit : Bool}
    (sized : e.sized c.netlist.declared (some 1) = some (t, 1))
    (asked : c.condition e σ = some bit) : ∃ v, c.value σ t = some v ∧ Scene.bit? v = some bit := by
  simp only [Scene.condition, sized, Option.bind_eq_bind, Option.bind_some, ne_eq,
    not_true_eq_false, ↓reduceIte] at asked
  exact Option.bind_eq_some_iff.mp asked

/-- The condition of a choice: its sized form with what is bound in place of its reads. -/
def Asks (g : Netlist) (b : Binding) (e r : Expr) : Prop :=
  ∃ t, e.sized g.declared (some 1) = some (t, 1) ∧ r.shape = t.subst (g.held b)

theorem condition_asks (sharing : Sharing K next) (within : b.Within K) {e : Expr} (member : e ∈ K)
    (c : ExecContext) :
    Yields K (Executing.condition c e b) fun L r => r ∈ L ∧ Asks c.netlist b e r := by
  refine yields_bind (yields_build (Netlist.makes_sized sharing member (some 1))) ?_
  rintro L _ ⟨s, width⟩ sub sharing' ⟨inside, ⟨t, sized, alike⟩, -⟩
  by_cases differ : width ≠ 1
  · simp only [if_pos differ]
    exact yields_throw fun s => ⟨_, _, rfl⟩
  obtain rfl := not_not.mp differ
  simp only [ne_eq, not_true_eq_false, ↓reduceIte]
  refine yields_weaken (yields_build (resolve_makes sharing' (within_mono sub within) inside)) ?_
  exact fun _ r _ replaces => ⟨replaces.1, t, sized, replaces.2.trans (subst_alike alike)⟩

theorem asks_decides {e r : Expr} (good : b.Good L) (inside : r ∈ L) (asks : Asks g b e r) :
    Decides g b (fun scene => scene.condition e) L r := by
  obtain ⟨t, sized, form⟩ := asks
  have renders := replaces_renders good rfl (sized_integerless sized) ⟨inside, form⟩
  refine ⟨renders.inside, renders.integerless, fun env σ bit holds asked => ?_⟩
  obtain ⟨v, found, known⟩ := condition_some (c := sceneOf g env b) sized asked
  exact bit_some known ▸ renders.leads env σ v holds found

theorem condition_yields (sharing : Sharing K next) (good : b.Good K) {e : Expr} (member : e ∈ K)
    (c : ExecContext) : Yields K (Executing.condition c e b)
      (Decides c.netlist b fun scene => scene.condition e) :=
  yields_weaken (condition_asks sharing good.within member c) fun _ _ sub both =>
    asks_decides (good_mono sub good) both.1 both.2

end

end CombLogic
