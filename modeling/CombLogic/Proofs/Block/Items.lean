import CombLogic.Proofs.Block.Choice
import CombLogic.Proofs.Block.Sites

/- The match conditions of the items of a case. -/
namespace CombLogic

open Expr

theorem Decides.fit {g : Netlist} {b : Binding} {asked : Scene → Store → Option Bool} {L : Set Expr}
    {e : Expr} (decides : Decides g b asked L e) : Fit L e :=
  ⟨decides.inside, decides.integerless⟩

section

variable {env : Env} {K L : Set Expr} {next : Nat} {g : Netlist} {b : Binding}

theorem binary_integerless {op : BinaryOp} {p q : Expr} {node : Nat} (left : p.Integerless)
    (right : q.Integerless) : (Expr.binary node op p q).Integerless := by
  refine all_iff.mpr ⟨rfl, fun a operand => ?_⟩
  simp only [children, List.mem_cons, List.not_mem_nil, or_false] at operand
  rcases operand with rfl | rfl
  · exact left
  · exact right

theorem binary_fits {op : BinaryOp} {p q : Expr} (left : Fit K p) (right : Fit K q) :
    Makes (ε := ε) K (Build.binary op p q) fun L e => Fit L e ∧ ∃ node, e = .binary node op p q := by
  refine makes_weaken (makes_node (fun _ => rfl) fun n a operand => ?_) ?_
  · simp only [children, List.mem_cons, List.not_mem_nil, or_false] at operand
    rcases operand with rfl | rfl
    · exact left.1
    · exact right.1
  · rintro L e - ⟨inside, n, rfl⟩
    exact ⟨⟨inside, binary_integerless left.2 right.2⟩, n, rfl⟩

/-- The values of several expressions. -/
def Values (env : Env) (es : List Expr) (vs : List Value) : Prop :=
  List.Forall₂ (fun e v => e.value env = .ok v) es vs

/-- An expression that is put together from others by or, from none of them in the empty case. -/
inductive Ored (rs : List Expr) : Expr → Prop where
  | none (n : Nat) : Ored rs (.literal n (.ofBool false))
  | one {e : Expr} (listed : e ∈ rs) : Ored rs e
  | or {n : Nat} {a b : Expr} (left : Ored rs a) (right : Ored rs b) : Ored rs (.binary n .or a b)

theorem foldOr_makes (es : List Expr) {rs : List Expr} {e : Expr} (fit : Fit K e)
    (fits : ∀ a ∈ es, Fit K a) (ored : Ored rs e) (within : es ⊆ rs) :
    Makes (ε := ε) K (es.foldlM (Build.binary .or) e) fun L r => Fit L r ∧
      (r.Assigned ↔ e.Assigned ∧ ∀ a ∈ es, a.Assigned) ∧ (∀ env joint, r.value env = .ok joint ↔
        ∃ v vs, e.value env = .ok v ∧ Values env es vs ∧
          vs.foldlM (fun v w => (v.or w).toOption) v = some joint) ∧ Ored rs r := by
  induction es generalizing e K with
  | nil =>
    refine makes_pure fun L sub => ⟨fit_mono sub fit, by simp, fun env joint => ?_, ored⟩
    simp [Values]
  | cons a rest ih =>
    rw [List.foldlM_cons]
    refine makes_bind (binary_fits fit (fits a (by simp))) ?_
    rintro L r sub ⟨fitted, n, rfl⟩
    obtain ⟨own, others⟩ := List.cons_subset.mp within
    refine makes_weaken (ih fitted (fun a' later => fit_mono sub (fits a' (by simp [later])))
      (.or ored (.one own)) others) ?_
    rintro L' r' sub' ⟨fitted', assigned, value, ored'⟩
    refine ⟨fitted', ?_, fun env joint => ?_, ored'⟩
    · rw [assigned, assigned_binary, List.forall_mem_cons, and_assoc]
    · rw [value]
      constructor
      · rintro ⟨u, vs, first, others, joined⟩
        obtain ⟨v, w, left, right, done⟩ := value_binary.mp first
        refine ⟨v, w :: vs, left, .cons right others, ?_⟩
        have here : v.or w = .ok u := done
        rw [List.foldlM_cons, here]
        exact joined
      · rintro ⟨v, vs, left, each, joined⟩
        cases each with
        | cons right others =>
          rw [List.foldlM_cons] at joined
          obtain ⟨u, here, joined⟩ := Option.bind_eq_some_iff.mp joined
          exact ⟨u, _, value_binary.mpr ⟨v, _, left, right, of_toOption here⟩, others, joined⟩

/-- The joint match has the joint value. -/
theorem anyOf_makes {es : List Expr} (fits : ∀ a ∈ es, Fit K a) :
    Makes K (Executing.anyOf es) fun L r => Fit L r ∧ (r.Assigned ↔ ∀ a ∈ es, a.Assigned) ∧
      (∀ env joint, r.value env = .ok joint ↔
        ∃ vs, Values env es vs ∧ Scene.anyOf vs = some joint) ∧ Ored es r := by
  cases es with
  | nil =>
    refine makes_weaken (makes_node (fun _ => rfl) (by simp [children])) ?_
    rintro L r - ⟨inside, n, rfl⟩
    have assigned : (Expr.literal n (.ofBool false)).Assigned := all_iff.mpr ⟨rfl, by simp [children]⟩
    refine ⟨⟨inside, all_iff.mpr ⟨rfl, by simp [children]⟩⟩, by simp [assigned], fun env joint => ?_,
      .none n⟩
    simp [Values, Scene.anyOf, Expr.value, valueOn]
  | cons e rest =>
    have folded : Executing.anyOf (e :: rest) = rest.foldlM (Build.binary .or) e := by
      simp [Executing.anyOf, Build.reduce]
    rw [folded]
    refine makes_weaken (foldOr_makes rest (fits e (by simp)) (fun a later => fits a (by simp [later]))
      (.one (by simp)) (List.subset_cons_self e rest)) ?_
    rintro L r - ⟨fitted, assigned, value, ored⟩
    refine ⟨fitted, by simpa using assigned, fun env joint => ?_, ored⟩
    rw [value]
    constructor
    · rintro ⟨v, vs, first, others, joined⟩
      exact ⟨v :: vs, .cons first others, joined⟩
    · rintro ⟨vs, each, joined⟩
      cases each with
      | cons first others => exact ⟨_, _, first, others, joined⟩

/-- The pattern of a match, if it is constant. -/
def Expr.constant? : Expr → Option Value
  | .caseMatch _ _ pattern _ => pattern.literal?
  | _ => none

theorem constant_alike {a b : Expr} (alike : a.shape = b.shape) : a.constant? = b.constant? := by
  have blind : ∀ e : Expr, e.shape.constant? = e.constant? := by
    intro e
    cases e with
    | caseMatch _ _ pattern => cases pattern <;> rfl
    | _ => rfl
  rw [← blind a, alike, blind]

/-- A sized match of a selector with a pattern, and the pattern if it is constant. -/
def Matched (g : Netlist) (wildcard : Bool) (selector pattern : Expr) (L : Set Expr)
    (r : Expr × Option Value) : Prop :=
  r.1 ∈ L ∧ ∃ t width,
    (Expr.caseMatch 0 selector pattern wildcard).sized g.declared none = some (t, width) ∧
      r.1.shape = t.shape ∧ r.2 = t.constant?

theorem matched_mono {wildcard : Bool} {selector pattern : Expr} {r : Expr × Option Value}
    (sub : K ⊆ L) (matched : Matched g wildcard selector pattern K r) :
    Matched g wildcard selector pattern L r :=
  ⟨sub matched.1, matched.2⟩

theorem sizeMatch_yields {c : ExecContext} {wildcard : Bool}
    {s t pattern : Expr} (inside : s ∈ K) (member : pattern ∈ K) (alike : s.shape = t.shape) :
    Yields K (Executing.sizeMatch c wildcard s pattern) (Matched c.netlist wildcard t pattern) := by
  refine yields_build (makes_step (makes_node (fun _ => rfl) fun n a operand => ?_) ?_)
  · simp only [children, List.mem_cons, List.not_mem_nil, or_false] at operand
    rcases operand with rfl | rfl
    · exact inside
    · exact member
  · rintro L next' m sub sharing' ⟨inside', n, rfl⟩
    refine makes_bind (Netlist.makes_sized sharing' inside' none) ?_
    rintro L' ⟨r, width⟩ sub' ⟨inner, ⟨t', sized, alike'⟩, -⟩
    have form : (Expr.caseMatch n s pattern wildcard).shape =
        (Expr.caseMatch 0 t pattern wildcard).shape := by simp [shape, alike]
    have same := sized_alike (d := c.netlist.declared) form none
    rw [sized] at same
    obtain ⟨⟨t'', width'⟩, plain, forms⟩ := Option.map_eq_some_iff.mp same.symm
    have alike'' : t''.shape = t'.shape := (Prod.mk.inj forms).1
    have forms : r.shape = t''.shape := alike'.trans alike''.symm
    have matched : ∀ M, L' ⊆ M → Matched c.netlist wildcard t pattern M (r, r.constant?) :=
      fun M larger => ⟨larger inner, t'', width', plain, forms, constant_alike forms⟩
    dsimp only
    split
    · exact makes_pure fun M larger => matched M larger
    · rename_i other
      have absent : r.constant? = none := by
        cases r with
        | caseMatch n s p w => exact (other n s p w rfl).elim
        | _ => rfl
      exact makes_pure fun M larger => absent ▸ matched M larger

theorem sizeItems_yields {c : ExecContext} {wildcard : Bool}
    {s t : Expr} {items : List CaseItem} (inside : s ∈ K)
    (members : ∀ item ∈ items, ∀ pattern ∈ item.patterns, pattern ∈ K)
    (alike : s.shape = t.shape) :
    Yields K (Executing.sizeItems c wildcard s items) fun L found =>
      List.Forall₂ (fun item rs => List.Forall₂
        (fun pattern r => Matched c.netlist wildcard t pattern L r) item.patterns rs) items found := by
  refine yields_mapM ?_ items fun item listed => ?_
  · exact fun L L' _ _ sub each => each.imp fun _ _ => matched_mono sub
  · refine yields_mapM ?_ item.patterns fun pattern given => ?_
    · exact fun L L' _ _ sub => matched_mono sub
    · exact sizeMatch_yields inside (members item listed pattern given) alike

/-- A condition for each item that leads to whether the item is taken. -/
def Guards (g : Netlist) (b : Binding) (wildcard : Bool) (selector : Expr) (items : List CaseItem)
    (L : Set Expr) (conditions : List Expr) : Prop :=
  List.Forall₂ (fun item e =>
    Decides g b (fun scene => scene.taken wildcard selector item.patterns) L e) items conditions

/-- The joint match of each item. -/
def Joints (g : Netlist) (b : Binding) (wildcard : Bool) (selector : Expr) (items : List CaseItem)
    (L : Set Expr) (found : List Expr) : Prop :=
  List.Forall₂ (fun item e =>
    Renders g b (fun scene => scene.joint wildcard selector item.patterns) L e) items found

theorem matched_renders (good : b.Good K) {wildcard : Bool} {selector pattern e : Expr}
    {r : Expr × Option Value} (matched : Matched g wildcard selector pattern K r)
    (replaces : Replaces (g.held b) r.1 L e) :
    Renders g b (fun scene => scene.matches? wildcard selector pattern) L e := by
  obtain ⟨-, t, width, sized, alike, -⟩ := matched
  have renders := replaces_renders good alike (sized_integerless sized) replaces
  refine ⟨renders.inside, renders.integerless, fun env σ v holds assigned => ?_⟩
  rw [renders.value env σ v holds assigned]
  simp only [Scene.matches?, sceneOf, sized, Option.bind_eq_bind, Option.bind_some]

/-- Expressions built for several answers. -/
theorem renders_values {α : Type} {asked : α → Scene → Store → Option Value} {as : List α}
    {rs : List Expr} {σ : Store}
    (renders : List.Forall₂ (fun a r => Renders g b (asked a) K r) as rs) (holds : Holds env b σ)
    (assigned : ∀ r ∈ rs, r.Assigned) (vs : List Value) :
    Values env rs vs ↔ as.mapM (fun a => asked a (sceneOf g env b) σ) = some vs := by
  rw [mapM_some]
  unfold Values
  induction renders generalizing vs with
  | nil => simp
  | cons here _ ih =>
    have own := fun v => here.value env σ v holds (assigned _ (by simp))
    have others := ih fun r later => assigned r (by simp [later])
    simp only [List.forall₂_cons_left_iff, own, others]

/-- What stands for the match of a selector with a pattern: the sized match with its reads replaced. -/
def StandsFor (g : Netlist) (b : Binding) (wildcard : Bool) (selector pattern r : Expr) : Prop :=
  ∃ t width, (Expr.caseMatch 0 selector pattern wildcard).sized g.declared none = some (t, width) ∧
    r.shape = t.subst (g.held b)

/-- A joint match that is put together from what stands for the matches of the patterns. -/
def Spelled (g : Netlist) (b : Binding) (wildcard : Bool) (selector : Expr) (patterns : List Expr)
    (e : Expr) : Prop :=
  ∃ rs, List.Forall₂ (StandsFor g b wildcard selector) patterns rs ∧
    (e.Assigned ↔ ∀ r ∈ rs, r.Assigned) ∧ (∀ env joint, e.value env = .ok joint ↔
      ∃ vs, Values env rs vs ∧ Scene.anyOf vs = some joint) ∧ Ored rs e

/-- The joint match of an item has the value that the run finds for it. -/
theorem joint_renders (good : b.Good K) {wildcard : Bool} {selector : Expr} {patterns : List Expr}
    {found : List (Expr × Option Value)} {rs : List Expr}
    (matched : List.Forall₂ (fun pattern r => Matched g wildcard selector pattern K r) patterns found)
    (resolved : ReplacesAll (g.held b) (found.map Prod.fst) L rs) :
    Makes L (Executing.anyOf rs) fun L e =>
      Renders g b (fun scene => scene.joint wildcard selector patterns) L e ∧
        Spelled g b wildcard selector patterns e := by
  have paired := forall₂_join matched.flip (List.forall₂_map_left_iff.mp resolved)
  have renders : List.Forall₂ (fun pattern r =>
      Renders g b (fun scene => scene.matches? wildcard selector pattern) L r) patterns rs :=
    paired.imp fun pattern r ⟨m, _, first, here⟩ => matched_renders good first here
  have stand : List.Forall₂ (StandsFor g b wildcard selector) patterns rs := by
    refine paired.imp fun pattern r ⟨m, _, ⟨_, t, width, sized, alike, _⟩, here⟩ => ?_
    exact ⟨t, width, sized, here.2.trans (subst_alike alike)⟩
  have fits : ∀ r ∈ rs, Fit L r := by
    intro r listed
    obtain ⟨pattern, -, here⟩ := forall₂_right renders r listed
    exact ⟨here.inside, here.integerless⟩
  refine makes_weaken (anyOf_makes fits) ?_
  rintro M r - ⟨fitted, operands, joint, ored⟩
  refine ⟨⟨fitted.1, fitted.2, fun env σ v holds assigned => ?_⟩, rs, stand, operands, joint, ored⟩
  have each := renders_values renders holds (operands.mp assigned)
  simp only [joint, each, Scene.joint, Option.bind_eq_bind, Option.bind_eq_some_iff]

theorem decides_mono {asked : Scene → Store → Option Bool} {e : Expr} (sub : K ⊆ L)
    (decides : Decides g b asked K e) : Decides g b asked L e :=
  ⟨sub decides.inside, decides.integerless, decides.leads⟩

theorem guards_mono {wildcard : Bool} {selector : Expr} {items : List CaseItem}
    {conditions : List Expr} (sub : K ⊆ L)
    (guards : Guards g b wildcard selector items K conditions) :
    Guards g b wildcard selector items L conditions :=
  guards.imp fun _ _ => decides_mono sub

theorem guards_fit {wildcard : Bool} {selector : Expr} {items : List CaseItem}
    {conditions : List Expr} (guards : Guards g b wildcard selector items K conditions) :
    ∀ e ∈ conditions, Fit K e := by
  intro e listed
  obtain ⟨item, -, decides⟩ := forall₂_right guards e listed
  exact decides.fit

theorem joints_mono {wildcard : Bool} {selector : Expr} {items : List CaseItem} {found : List Expr}
    (sub : K ⊆ L) (joints : Joints g b wildcard selector items K found) :
    Joints g b wildcard selector items L found :=
  joints.imp fun _ _ => renders_mono sub

/-- A match bit that is known says whether its item is taken. -/
theorem joints_guard {wildcard : Bool} {selector : Expr} {items : List CaseItem} {found : List Expr}
    (joints : Joints g b wildcard selector items K found) :
    Guards g b wildcard selector items K found := by
  refine joints.imp fun item e renders => ?_
  refine ⟨renders.inside, renders.integerless, fun env σ bit holds asked => ?_⟩
  obtain ⟨v, joint, known⟩ : ∃ v, (sceneOf g env b).joint wildcard selector item.patterns σ = some v ∧
      Scene.bit? v = some bit := by
    obtain ⟨vs, each, asked⟩ := Option.bind_eq_some_iff.mp asked
    obtain ⟨v, joined, known⟩ := Option.bind_eq_some_iff.mp asked
    exact ⟨v, Option.bind_eq_some_iff.mpr ⟨vs, each, joined⟩, known⟩
  exact bit_some known ▸ renders.leads env σ v holds joint

theorem joinAll_makes (good : b.Good K) {wildcard : Bool} {selector : Expr} {items : List CaseItem}
    {found : List (List (Expr × Option Value))} {rss : List (List Expr)} (sub : K ⊆ L)
    (matched : List.Forall₂ (fun item rs => List.Forall₂
      (fun pattern r => Matched g wildcard selector pattern K r) item.patterns rs) items found)
    (resolved : List.Forall₂ (fun es rs => ReplacesAll (g.held b) es L rs)
      (found.map (·.map Prod.fst)) rss) :
    Makes L (rss.mapM Executing.anyOf) fun L found => Joints g b wildcard selector items L found ∧
      List.Forall₂ (fun item e => Spelled g b wildcard selector item.patterns e) items found := by
  induction matched generalizing rss L with
  | nil =>
    cases resolved
    exact makes_pure fun _ _ => ⟨.nil, .nil⟩
  | cons first _ ih =>
    cases resolved with
    | cons here later =>
      rw [List.mapM_cons]
      refine makes_bind (joint_renders good first here) fun M e larger ⟨renders, spelled⟩ => ?_
      refine makes_bind (ih (sub.trans larger) (later.imp fun _ _ => replacesAll_mono larger)) ?_
      exact fun M' es larger' ⟨joints, others⟩ => makes_pure fun M'' larger'' =>
        ⟨.cons (renders_mono (larger'.trans larger'') renders) (joints_mono larger'' joints),
          .cons spelled others⟩

/-- The constant to which a pattern comes when its match with a sized selector is sized. -/
def constantOf (g : Netlist) (wildcard : Bool) (selector pattern : Expr) : Option Value := do
  (← (Expr.caseMatch 0 selector pattern wildcard).sized g.declared none).1.constant?

/-- The constant patterns of the items of a case. -/
def constants (g : Netlist) (wildcard : Bool) (selector : Expr) (items : List CaseItem) :
    List (List (Option Value)) :=
  items.map fun item => item.patterns.map (constantOf g wildcard selector)

theorem matched_constants {wildcard : Bool} {selector : Expr} {items : List CaseItem}
    {found : List (List (Expr × Option Value))}
    (matched : List.Forall₂ (fun item rs => List.Forall₂
      (fun pattern r => Matched g wildcard selector pattern K r) item.patterns rs) items found) :
    found.map (·.map Prod.snd) = constants g wildcard selector items := by
  refine map_of_forall₂ matched fun item rs each => map_of_forall₂ each ?_
  rintro pattern ⟨m, constant⟩ ⟨-, t, width, sized, -, rfl⟩
  simp [constantOf, sized]

theorem itemMatches_yields (sharing : Sharing K next) (good : b.Good K) {c : ExecContext}
    {kind : CaseKind} {selector : Expr} {items : List CaseItem} (member : selector ∈ K)
    (members : ∀ item ∈ items, ∀ pattern ∈ item.patterns, pattern ∈ K) :
    Yields K (Executing.itemMatches c kind selector items b) fun L r =>
      ∃ t width, selector.sized c.netlist.declared none = some (t, width) ∧
        Joints c.netlist b kind.wildcard t items L r.2 ∧
        List.Forall₂ (fun item e => Spelled c.netlist b kind.wildcard t item.patterns e) items r.2 ∧
        Executing.caseName c.netlist selector = .ok r.1 ∧ ∃ warnings, Coverage.check c.settings
          ⟨r.1, kind, constants c.netlist kind.wildcard t items⟩ = .ok warnings := by
  refine yields_bind (yields_build (Netlist.makes_sized sharing member none)) ?_
  rintro L₁ _ ⟨s, width⟩ sub₁ _ ⟨inside, ⟨t, sized, alike⟩, -⟩
  refine yields_bind (sizeItems_yields inside
    (fun item listed pattern given => sub₁ (members item listed pattern given)) alike) ?_
  intro L₂ _ found sub₂ sharing₂ matched
  refine yields_bind (yields_ask fun name named _ _ => named) fun L₃ _ name sub₃ _ named => ?_
  refine yields_bind (yields_lift fun _ checked _ _ => checked) fun L₄ _ warnings sub₄ _ checked => ?_
  rw [matched_constants matched] at checked
  refine yields_bind (yields_each warnings fun d _ => yields_report d)
    fun L₅ _ _ sub₅ sharing₅ _ => ?_
  have sub := (sub₃.trans sub₄).trans sub₅
  have good' := good_mono ((sub₁.trans sub₂).trans sub) good
  have found' : List.Forall₂ (fun item rs => List.Forall₂ (fun pattern r =>
      Matched c.netlist kind.wildcard t pattern L₅ r) item.patterns rs) items found :=
    matched.imp fun _ _ each => each.imp fun _ _ => matched_mono sub
  refine yields_bind (yields_build (resolveLists_makes sharing₅ good'.within ?_)) ?_
  · intro es listed e given
    obtain ⟨rs, member, rfl⟩ := List.mem_map.mp listed
    obtain ⟨r, inner, rfl⟩ := List.mem_map.mp given
    obtain ⟨item, -, each⟩ := forall₂_right found' rs member
    obtain ⟨pattern, -, here, -⟩ := forall₂_right each r inner
    exact here
  · intro L₆ _ rss sub₆ _ resolved
    refine yields_bind (yields_build (joinAll_makes good' sub₆ found' resolved)) ?_
    exact fun L₇ _ es sub₇ _ ⟨joints, spelled⟩ => yields_pure fun L₈ sub₈ =>
      ⟨t, width, sized, joints_mono sub₈ joints, spelled, named, warnings, checked⟩

end

end CombLogic
