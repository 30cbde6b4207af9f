import CombLogic.Proofs.Block.Paths
import CombLogic.Proofs.Block.Plain

/- Chains of branches whose bodies are assignments. Their text reads none of the leaves that they
   assign, so what an arm gives a leaf is what its last assignment to that leaf says, evaluated on the
   settled values; and a run takes the first branch whose condition is 1. -/
namespace CombLogic

open Expr Stmt
open Netlist hiding exprs

/-- Assignments one after the other. -/
def Stmt.assignAll (body : List (Ref × Expr)) : List Stmt := body.map fun a => .assign a.1 a.2

/-- Choices nested in the last place, with a body behind all of them. -/
def Stmt.nest (last : List Stmt) : List (Expr × List Stmt) → List Stmt
  | [] => last
  | (condition, body) :: rest => [.ifElse condition body (nest last rest)]

/-- What the last assignment to a leaf gives it. -/
def Netlist.given (g : Netlist) (leaf : LeafId) : List (Ref × Expr) → Option Expr
  | [] => none
  | a :: rest => (given g leaf rest).or ((g.shares a.1 a.2).bind fun ps => ps.reverse.lookup leaf)

/-- The first branch whose condition is 1, or the last resort. There is no answer if a condition that
    is asked is not a known bit. -/
def Scene.pick {α : Type} (c : Scene) (σ : Store) (last : α) : List (Expr × α) → Option α
  | [] => some last
  | (condition, body) :: rest => do
    if ← c.condition condition σ then return body else c.pick σ last rest

section

variable {K L : Set Expr} {g : Netlist} {outputs : Finset LeafId} {b arm after : Binding}
  {leaf : LeafId} {e r : Expr} {ps ds : List (LeafId × Expr)}

theorem elseIfs_nest (last : List Stmt) (branch : Expr × List Stmt)
    (rest : List (Expr × List Stmt)) (n : Nat) :
    (elseIfs last (branch :: rest) : Numbering Id Stmt) n =
      (.ifElse branch.1 branch.2 (nest last rest), n) := by
  induction rest generalizing branch with
  | nil => rfl
  | cons next rest ih =>
    have inner := ih next
    simp only [elseIfs, nest, bind, StateT.bind] at inner ⊢
    rw [inner]
    rfl

theorem subst_congr {answer answer' : Ref → Expr} (e : Expr) (same : ∀ node target,
    e.Contains (.read node target) → (answer target).shape = (answer' target).shape) :
    e.subst answer = e.subst answer' := by
  induction e using operand_induction with
  | step e ih =>
    have operand : ∀ a ∈ e.children, a.subst answer = a.subst answer' :=
      fun a member => ih a member fun node target inside => same node target (.within member inside)
    cases e with
    | signal | literal | integer | unassigned => rfl
    | read node target => exact same node target (.root _)
    | unary _ _ a | slice _ a | extend _ a => simp only [subst, operand a (by simp [children])]
    | binary _ _ p q | caseMatch _ p q =>
      simp only [subst, operand p (by simp [children]), operand q (by simp [children])]
    | mux _ c t f =>
      simp only [subst, operand c (by simp [children]), operand t (by simp [children]),
        operand f (by simp [children])]
    | concat _ parts =>
      simp only [subst, substAll_eq_map]
      exact congrArg _ (List.map_congr_left fun a member => operand a (by simpa [children] using member))

/-- Where only some leaves are bound, an expression that avoids them stands for itself. -/
theorem subst_outside (unbound : ∀ leaf, leaf ∉ outputs → b.get? leaf = none)
    (avoids : g.Avoids outputs e) : e.subst (g.held b) = e.subst (g.held .empty) := by
  have entry : ∀ leaf, leaf ∉ outputs → b.entry leaf = Binding.entry .empty leaf :=
    fun leaf outside => by simp [Binding.entry, unbound leaf outside]
  refine subst_congr e fun node target inside => ?_
  have apart : ∀ leaf ∈ g.leafSet target, leaf ∉ outputs := avoids _ inside target rfl
  cases target with
  | leaf leaf =>
    exact congrArg shape (entry leaf (apart leaf (by simp [leafSet, leavesOf_leaf, Except.toOption])))
  | bundle id =>
    cases known : g.leavesOf (.bundle id) with
    | error x => simp [Netlist.held, known]
    | ok leaves =>
      have same : leaves.map b.entry = leaves.map (Binding.entry .empty) :=
        List.map_congr_left fun leaf listed =>
          entry leaf (apart leaf (by simpa [leafSet, known, Except.toOption] using listed))
      simp only [Netlist.held, known, same]

theorem sized_avoids (avoids : g.Avoids outputs e) {t : Expr} {context : Option Nat} {width : Nat}
    (sized : e.sized g.declared context = some (t, width)) : g.Avoids outputs t := by
  obtain ⟨w, fits⟩ := sized_fitted sized
  refine all_fitted (by simp [target?]) (fun n parent => ?_) e fits fun n inside _ => avoids n inside
  cases n <;> simp_all [isAtom, target?]

theorem shares_avoid (avoids : g.Avoids outputs e) {target : Ref}
    (shares : g.shares target e = some ps) : ∀ p ∈ ps, g.Avoids outputs p.2 := by
  intro p listed
  cases target with
  | leaf id =>
    obtain ⟨t, width, -, sized, rfl⟩ := shares_leaf.mp shares
    obtain rfl := List.mem_singleton.mp listed
    exact sized_avoids avoids sized
  | bundle id =>
    obtain ⟨t, parts, widths, -, sized, rfl⟩ := shares_bundle.mp shares
    obtain ⟨part, given, low, rfl⟩ := mem_plainSlices listed
    unfold piece
    split
    · exact all_iff.mpr ⟨by simp [target?], by simp [children]⟩
    · exact all_iff.mpr ⟨by simp [target?], List.forall_mem_singleton.mpr (sized_avoids avoids sized)⟩

/-- On the settled values, an expression has one value before and after resolution. -/
theorem plain_value {env : Env} {σ : Store} {v : Value} :
    (e.subst (g.held .empty)).value env = .ok v ↔ Scene.value ⟨g, env, []⟩ σ e = some v := by
  have holds : Holds env .empty σ := fun leaf e found => by simp at found
  have assigned : ∀ target, (g.held .empty target).Assigned := by
    refine fun target => held_all (fun _ _ leaf _ => ?_) (fun _ => rfl) fun _ => rfl
    exact all_iff.mpr ⟨rfl, by simp [Binding.entry, children]⟩
  have answered : ∀ target w, (g.held .empty target).value env = .ok w ↔
      (sceneOf g env .empty).read σ target = .ok w := fun target w => held_value holds (assigned target)
  rw [value_subst]
  constructor
  · intro found
    have mono := valueOn_mono e (fun node target _ w => (answered target w).mp) v found
    exact congrArg Except.toOption mono
  · intro found
    exact valueOn_mono e (fun node target _ w => (answered target w).mpr) v (of_toOption found)

theorem answers_lookup (answers : g.Answers b ps ds) (leaf : LeafId) :
    (∀ e, ps.reverse.lookup leaf = some e →
      ∃ f, ds.reverse.lookup leaf = some f ∧ f.shape = e.subst (g.held b)) ∧
      (ps.reverse.lookup leaf = none → ds.reverse.lookup leaf = none) := by
  have each := List.rel_reverse answers
  generalize ps.reverse = shares at each ⊢
  generalize ds.reverse = entries at each ⊢
  induction each with
  | nil => simp
  | @cons p d _ _ here _ ih =>
    obtain ⟨own, form⟩ := here
    rw [List.lookup_cons, List.lookup_cons, own]
    cases leaf == p.1 with
    | true => simp [form]
    | false => simpa using ih

/-- An assignment that avoids the outputs binds what it says, and leaves other entries. -/
theorem bindAll_given (answers : g.Answers b ps ds) (avoids : ∀ p ∈ ps, g.Avoids outputs p.2)
    (unbound : ∀ leaf, leaf ∉ outputs → b.get? leaf = none) (leaf : LeafId) :
    (∀ e, ps.reverse.lookup leaf = some e →
      ∃ f, (Executing.bindAll b ds).get? leaf = some f ∧ f.shape = e.subst (g.held .empty)) ∧
      (ps.reverse.lookup leaf = none → (Executing.bindAll b ds).get? leaf = b.get? leaf) := by
  obtain ⟨there, nowhere⟩ := answers_lookup answers leaf
  rw [get?_bindAll]
  refine ⟨fun e share => ?_, fun missing => by rw [nowhere missing]; rfl⟩
  obtain ⟨f, entry, form⟩ := there e share
  obtain ⟨before, later, order, -⟩ := List.lookup_eq_some_iff.mp share
  have member : (leaf, e) ∈ ps.reverse := by simp [order]
  refine ⟨f, by simp [entry], ?_⟩
  rw [form, subst_outside unbound (avoids (leaf, e) (by simpa using member))]

/-- Behind a body of assignments that avoid the outputs, a leaf has what the last assignment to it
    says, or what it had before. -/
theorem body_given {body : List (Ref × Expr)} (trace : BodyTraces g (assignAll body) b arm)
    (avoids : ∀ a ∈ body, g.Avoids outputs a.2) (within : ∀ a ∈ body, g.leafSet a.1 ⊆ outputs)
    (unbound : ∀ leaf, leaf ∉ outputs → b.get? leaf = none) (leaf : LeafId) :
    (∀ e, g.given leaf body = some e →
      ∃ f, arm.get? leaf = some f ∧ f.shape = e.subst (g.held .empty)) ∧
      (g.given leaf body = none → arm.get? leaf = b.get? leaf) := by
  induction body generalizing b with
  | nil =>
    cases trace
    exact ⟨by simp [given], fun _ => rfl⟩
  | cons a rest ih =>
    cases trace with
    | cons first later =>
    cases first with
    | @assign _ _ _ ps ds shares answers =>
      have leaves : ∀ leaf ∈ ds.map Prod.fst, leaf ∈ outputs := by
        intro leaf listed
        have same : ds.map Prod.fst = ps.map Prod.fst := map_of_forall₂ answers fun _ _ both => both.1
        refine within a (by simp) (shares_leaves shares ▸ ?_)
        exact List.mem_toFinset.mpr (same ▸ listed)
      have unbound' : ∀ leaf, leaf ∉ outputs → (Executing.bindAll b ds).get? leaf = none :=
        fun leaf outside => by
          rw [bindAll_unlisted fun listed => outside (leaves leaf listed), unbound leaf outside]
      obtain ⟨some', none'⟩ := ih later (fun a' listed => avoids a' (by simp [listed]))
        (fun a' listed => within a' (by simp [listed])) unbound'
      obtain ⟨said, silent⟩ :=
        bindAll_given answers (shares_avoid (avoids a (by simp)) shares) unbound leaf
      have step : g.given leaf (a :: rest) = (g.given leaf rest).or (ps.reverse.lookup leaf) := by
        simp [Netlist.given, shares]
      rw [step]
      cases behind : g.given leaf rest with
      | some e => simpa using some' e behind
      | none =>
        rw [none' behind]
        exact ⟨fun e share => said e (by simpa using share),
          fun missing => silent (by simpa using missing)⟩

/-- An arm for each branch: the condition as it is resolved, and the binding behind the body. -/
def Arms (g : Netlist) (b : Binding) (branches : List (Expr × List (Ref × Expr)))
    (arms : List (Expr × Binding)) : Prop :=
  List.Forall₂ (fun p arm => Asks g b p.1 arm.1 ∧ BodyTraces g (assignAll p.2) b arm.2) branches arms

theorem picked_shape {arms : List (Expr × Expr)} {fallback : Expr} (alike : e.shape = r.shape)
    (picked : Picked arms fallback r) : Picked arms fallback e := by
  induction picked generalizing e with
  | last alike' => exact .last (alike.trans alike')
  | same alike' _ ih => exact .same (alike.trans alike') (ih alike)
  | mux alike' later _ => exact .mux (alike.trans alike') later

theorem picked_nest {value chain fallback : Expr} {rest : List (Expr × Expr)}
    (first : Picked [(r, value)] chain e) (later : Picked rest fallback chain) :
    Picked ((r, value) :: rest) fallback e := by
  cases first with
  | same alike last =>
    cases last with
    | last alike' => exact .same alike (picked_shape alike' later)
  | mux alike last =>
    cases last with
    | last alike' => exact .mux alike (picked_shape alike' later)

/-- Nested choices come down to one choice among the arms. -/
theorem nest_traces {branches : List (Expr × List (Ref × Expr))} {otherwise : List (Ref × Expr)}
    (trace : BodyTraces g (nest (assignAll otherwise)
      (branches.map fun p => (p.1, assignAll p.2))) b after) :
    ∃ arms fallback, Arms g b branches arms ∧ BodyTraces g (assignAll otherwise) b fallback ∧
      ∀ leaf ∈ b.keys, Merges arms fallback leaf (after.entry leaf) := by
  induction branches generalizing after with
  | nil => exact ⟨[], after, .nil, trace, fun leaf _ => .last rfl⟩
  | cons p rest ih =>
    cases trace with
    | cons choice nothing =>
    cases nothing
    cases choice with
    | @ifElse _ r _ _ _ thenArm elseArm _ asks first second joined =>
      obtain ⟨arms, fallback, each, last, merges⟩ := ih second
      refine ⟨(r, thenArm) :: arms, fallback, .cons ⟨asks, first⟩ each, last, fun leaf bound => ?_⟩
      obtain ⟨e, found⟩ := OrderedMap.get?_of_mem_keys (joined.keys ▸ bound : leaf ∈ after.keys)
      rw [entry_of_get found]
      exact picked_nest (joined.merges leaf e found) (merges leaf bound)

/-- A condition that avoids the outputs is resolved to its value. -/
theorem asks_value (asks : Asks g b e r) (avoids : g.Avoids outputs e)
    (unbound : ∀ leaf, leaf ∉ outputs → b.get? leaf = none) {env : Env} {σ : Store} {bit : Bool}
    (known : Scene.condition ⟨g, env, []⟩ e σ = some bit) : r.value env = .ok (.ofBool bit) := by
  obtain ⟨t, sized, form⟩ := asks
  simp only [Scene.condition, sized, Option.bind_eq_bind, Option.bind_some, ne_eq, not_true_eq_false,
    ↓reduceIte] at known
  obtain ⟨v, value, single⟩ := Option.bind_eq_some_iff.mp known
  have found := plain_value.mpr value
  rw [← subst_outside unbound (sized_avoids avoids sized), ← form, value_alike (shape_shape r)] at found
  rw [found, bit_some single]

theorem pick_mem {α : Type} {c : Scene} {σ : Store} {branches : List (Expr × α)} {last body : α}
    (picked : c.pick σ last branches = some body) : body = last ∨ ∃ p ∈ branches, body = p.2 := by
  induction branches with
  | nil => exact .inl (Option.some.inj picked).symm
  | cons p rest ih =>
    obtain ⟨bit, -, picked⟩ := Option.bind_eq_some_iff.mp picked
    cases bit with
    | true => exact .inr ⟨p, by simp, (Option.some.inj picked).symm⟩
    | false => exact (ih picked).imp_right fun ⟨q, listed, same⟩ => ⟨q, by simp [listed], same⟩

/-- The arm that is selected is that of the branch that a run picks. -/
theorem pick_selects {branches : List (Expr × List (Ref × Expr))} {otherwise body : List (Ref × Expr)}
    {arms : List (Expr × Binding)} {fallback : Binding} (each : Arms g b branches arms)
    (last : BodyTraces g (assignAll otherwise) b fallback)
    (avoids : ∀ p ∈ branches, g.Avoids outputs p.1)
    (unbound : ∀ leaf, leaf ∉ outputs → b.get? leaf = none) {env : Env} {σ : Store}
    (picked : Scene.pick ⟨g, env, []⟩ σ otherwise branches = some body) :
    Selects env (BodyTraces g (assignAll body) b) fallback arms := by
  induction each with
  | nil => exact Option.some.inj picked ▸ last
  | @cons p arm _ _ here _ ih =>
    obtain ⟨asks, trace⟩ := here
    obtain ⟨bit, known, picked⟩ := Option.bind_eq_some_iff.mp picked
    have value := asks_value asks (avoids p (by simp)) unbound known
    cases bit with
    | true => exact .inl ⟨fun _ => value, Option.some.inj picked ▸ trace⟩
    | false => exact .inr ⟨fun _ => value, ih (fun q listed => avoids q (by simp [listed])) picked⟩

/-- What is put together has the value of the part that is selected. -/
theorem picked_value {arms : List (Expr × Expr)} {fallback : Expr} (picked : Picked arms fallback e)
    (assigned : e.Assigned) {env : Env} {found : Except NetlistError Value}
    (selects : Selects env (fun a => a.value env = found) fallback arms) : e.value env = found := by
  induction picked with
  | last alike => exact (value_alike alike).trans selects
  | same alike _ ih =>
    rcases selects with ⟨-, first⟩ | ⟨-, later⟩
    · exact (value_alike alike).trans first
    · exact ih assigned later
  | @mux condition value _ chain _ _ alike _ ih =>
    obtain ⟨own, -, rest⟩ := assigned_mux.mp (assigned_alike alike.symm assigned)
    rw [value_alike alike]
    rcases selects with ⟨holds, first⟩ | ⟨fails, later⟩
    · have here : condition.valueOn env env.unreadable = .ok ⟨[.one]⟩ := holds own
      simp only [Expr.value, valueOn, here]
      exact first
    · have here : condition.valueOn env env.unreadable = .ok ⟨[.zero]⟩ := fails own
      simp only [Expr.value, valueOn, here]
      exact ih rest later

/-- What an entry behind nested choices evaluates to is what the picked body says. -/
theorem nest_value {branches : List (Expr × List (Ref × Expr))} {otherwise body : List (Ref × Expr)}
    (trace : BodyTraces g (nest (assignAll otherwise)
      (branches.map fun p => (p.1, assignAll p.2))) b after)
    (conditions : ∀ p ∈ branches, g.Avoids outputs p.1)
    (values : ∀ body, body = otherwise ∨ (∃ p ∈ branches, body = p.2) →
      ∀ a ∈ body, g.Avoids outputs a.2 ∧ g.leafSet a.1 ⊆ outputs)
    (unbound : ∀ leaf, leaf ∉ outputs → b.get? leaf = none) {env : Env} {σ : Store}
    (picked : Scene.pick ⟨g, env, []⟩ σ otherwise branches = some body) (bound : leaf ∈ b.keys)
    (assigned : (after.entry leaf).Assigned) (given : g.given leaf body = some e) {v : Value}
    (value : (after.entry leaf).value env = .ok v) : Scene.value ⟨g, env, []⟩ σ e = some v := by
  obtain ⟨arms, fallback, each, last, merges⟩ := nest_traces trace
  have selects := pick_selects each last conditions unbound picked
  have arm : ∀ arm, BodyTraces g (assignAll body) b arm →
      (arm.entry leaf).value env = (e.subst (g.held .empty)).value env := by
    intro arm trace
    have sound := values body (pick_mem picked)
    obtain ⟨f, found, form⟩ := (body_given trace (fun a listed => (sound a listed).1)
      (fun a listed => (sound a listed).2) unbound leaf).1 e given
    rw [entry_of_get found, ← form, value_alike (shape_shape f)]
  have chosen : Selects env (fun a => a.value env = (e.subst (g.held .empty)).value env)
      (fallback.entry leaf) (arms.map fun p => (p.1, p.2.entry leaf)) := by
    refine selects_imp ?_ (arm fallback) selects
    rw [List.forall₂_map_right_iff]
    exact List.forall₂_same.mpr fun p _ => ⟨rfl, arm p.2⟩
  exact plain_value.mp ((picked_value (merges leaf bound) assigned chosen).symm.trans value)

end

end CombLogic
