import CombLogic.Proofs.Block.Assign

/- Joins of the arms of a choice. A leaf on which all arms agree keeps its node; elsewhere the choice
   becomes part of the expression. Either way the joined expression leads to what the arm that is
   taken leads to. -/
namespace CombLogic

open Expr

/-- One arm is taken: the first one whose condition leads to 1, while the conditions before it lead
    to 0, or the last resort if all lead to 0. -/
def Selects {α : Type} (env : Env) (taken : α → Prop) (fallback : α) : List (Expr × α) → Prop
  | [] => taken fallback
  | (found, arm) :: rest => (Leads env found (.ofBool true) ∧ taken arm) ∨
      (Leads env found (.ofBool false) ∧ Selects env taken fallback rest)

section

variable {α β : Type} {env : Env} {K L : Set Expr} {next : Nat}

theorem selects_imp {taken : α → Prop} {taken' : β → Prop} {arms : List (Expr × α)}
    {arms' : List (Expr × β)} {fallback : α} {fallback' : β}
    (each : List.Forall₂ (fun p q => p.1 = q.1 ∧ (taken p.2 → taken' q.2)) arms arms')
    (last : taken fallback → taken' fallback') (selects : Selects env taken fallback arms) :
    Selects env taken' fallback' arms' := by
  induction each with
  | nil => exact last selects
  | @cons p q _ _ here _ ih =>
    obtain ⟨found, arm⟩ := p
    obtain ⟨found', arm'⟩ := q
    obtain ⟨rfl, passes⟩ := here
    rcases selects with ⟨holds, first⟩ | ⟨fails, later⟩
    · exact .inl ⟨holds, passes first⟩
    · exact .inr ⟨fails, ih later⟩

theorem mux_leads {c t f : Expr} {node : Nat} {v : Value}
    (choice : (Leads env c (.ofBool true) ∧ Leads env t v) ∨
      (Leads env c (.ofBool false) ∧ Leads env f v)) : Leads env (.mux node c t f) v := by
  intro assigned
  have condition := assigned_operand assigned (by simp [children] : c ∈ _)
  rcases choice with ⟨holds, first⟩ | ⟨fails, second⟩
  · have here : c.valueOn env env.unreadable = .ok ⟨[.one]⟩ := holds condition
    simp only [Expr.value, valueOn, here]
    exact first (assigned_operand assigned (by simp [children]))
  · have here : c.valueOn env env.unreadable = .ok ⟨[.zero]⟩ := fails condition
    simp only [Expr.value, valueOn, here]
    exact second (assigned_operand assigned (by simp [children]))

theorem mux_integerless {c t f : Expr} {node : Nat} (condition : c.Integerless)
    (whenTrue : t.Integerless) (whenFalse : f.Integerless) :
    (Expr.mux node c t f).Integerless := by
  refine all_iff.mpr ⟨rfl, fun a operand => ?_⟩
  simp only [children, List.mem_cons, List.not_mem_nil, or_false] at operand
  rcases operand with rfl | rfl | rfl
  · exact condition
  · exact whenTrue
  · exact whenFalse

/-- A node without integers. -/
def Fit (K : Set Expr) (e : Expr) : Prop := e ∈ K ∧ e.Integerless

theorem fit_mono {e : Expr} (sub : K ⊆ L) (fit : Fit K e) : Fit L e := ⟨sub fit.1, fit.2⟩

/-- An expression put together from arms, up to node numbers. An arm whose value is the node that the
    later arms come to adds nothing. -/
inductive Picked : List (Expr × Expr) → Expr → Expr → Prop where
  | last {fallback e : Expr} (alike : e.shape = fallback.shape) : Picked [] fallback e
  | same {found value fallback e : Expr} {rest : List (Expr × Expr)} (alike : e.shape = value.shape)
      (later : Picked rest fallback e) : Picked ((found, value) :: rest) fallback e
  | mux {found value fallback chain e : Expr} {rest : List (Expr × Expr)}
      (alike : e.shape = (Expr.mux 0 found value chain).shape) (later : Picked rest fallback chain) :
      Picked ((found, value) :: rest) fallback e

section

variable {arms arms' : List (Expr × Expr)} {fallback fallback' e : Expr}

theorem picked_alike (each : List.Forall₂ (fun p q => p.1 = q.1 ∧ p.2.shape = q.2.shape) arms arms')
    (last : fallback.shape = fallback'.shape) (picked : Picked arms fallback e) :
    Picked arms' fallback' e := by
  induction picked generalizing arms' with
  | last alike =>
    cases each
    exact .last (alike.trans last)
  | same alike _ ih =>
    obtain ⟨⟨found, value⟩, rest, ⟨-, form⟩, others, rfl⟩ := List.forall₂_cons_left_iff.mp each
    exact .same (alike.trans form) (ih others last)
  | mux alike _ ih =>
    obtain ⟨⟨found, value⟩, rest, ⟨rfl, form⟩, others, rfl⟩ := List.forall₂_cons_left_iff.mp each
    exact .mux (alike.trans (by simp only [shape, form])) (ih others last)

theorem picked_all (each : ∀ p ∈ arms, e.shape = p.2.shape) (last : e.shape = fallback.shape) :
    Picked arms fallback e := by
  induction arms with
  | nil => exact .last last
  | cons p rest ih => exact .same (each p (by simp)) (ih fun q later => each q (by simp [later]))

/-- What is put together has all values of the arms in it. -/
theorem picked_assigned (picked : Picked arms fallback e) (done : e.Assigned) :
    (∀ p ∈ arms, p.2.Assigned) ∧ fallback.Assigned := by
  induction picked with
  | last alike => exact ⟨by simp, assigned_alike alike.symm done⟩
  | same alike _ ih =>
    exact ⟨List.forall_mem_cons.mpr ⟨assigned_alike alike.symm done, (ih done).1⟩, (ih done).2⟩
  | mux alike _ ih =>
    obtain ⟨-, first, later⟩ := assigned_mux.mp (assigned_alike alike.symm done)
    exact ⟨List.forall_mem_cons.mpr ⟨first, (ih later).1⟩, (ih later).2⟩

theorem picked_done (picked : Picked arms fallback e)
    (each : ∀ p ∈ arms, p.1.Assigned ∧ p.2.Assigned) (last : fallback.Assigned) : e.Assigned := by
  induction picked with
  | last alike => exact assigned_alike alike last
  | same alike _ _ => exact assigned_alike alike (each _ List.mem_cons_self).2
  | mux alike _ ih =>
    obtain ⟨own, first⟩ := each _ List.mem_cons_self
    exact assigned_alike alike (assigned_mux.mpr
      ⟨own, first, ih (fun p later => each p (by simp [later])) last⟩)

theorem picked_leads (picked : Picked arms fallback e) (env : Env) (v : Value)
    (selects : Selects env (Leads env · v) fallback arms) : Leads env e v := by
  induction picked with
  | last alike => exact leads_alike alike selects
  | same alike _ ih =>
    rcases selects with ⟨-, first⟩ | ⟨-, later⟩
    · exact leads_alike alike first
    · exact ih later
  | mux alike _ ih =>
    exact leads_alike alike (mux_leads (selects.imp_right fun later => ⟨later.1, ih later.2⟩))

end

theorem choose_makes {fallback : Expr} (arms : List (Expr × Expr)) (last : Fit K fallback)
    (each : ∀ p ∈ arms, Fit K p.1 ∧ Fit K p.2) :
    Makes K (Executing.choose fallback arms) fun L e => Fit L e ∧ Picked arms fallback e := by
  induction arms with
  | nil => exact makes_pure fun L sub => ⟨fit_mono sub last, .last rfl⟩
  | cons p rest ih =>
    obtain ⟨found, value⟩ := p
    obtain ⟨⟨insideFound, foundFit⟩, insideValue, valueFit⟩ := each (found, value) (by simp)
    simp only [Executing.choose]
    refine makes_step (ih fun q listed => each q (by simp [listed])) ?_
    rintro L next chain sub sharing ⟨fit, picked⟩
    split
    · rename_i same
      obtain rfl := sharing.same_node (sub insideValue) fit.1 same
      exact makes_pure fun L' sub' => ⟨fit_mono sub' fit, .same rfl picked⟩
    · refine makes_weaken (makes_node (fun _ => rfl) fun n a operand => ?_) ?_
      · simp only [children, List.mem_cons, List.not_mem_nil, or_false] at operand
        rcases operand with rfl | rfl | rfl
        · exact sub insideFound
        · exact sub insideValue
        · exact fit.1
      · rintro L' e sub' ⟨inside, n, rfl⟩
        exact ⟨⟨inside, mux_integerless foundFit valueFit fit.2⟩, .mux rfl picked⟩

/-- An entry of a leaf that is put together from the entries of the arms. -/
def Merges (arms : List (Expr × Binding)) (fallback : Binding) (leaf : LeafId) (e : Expr) : Prop :=
  Picked (arms.map fun p => (p.1, p.2.entry leaf)) (fallback.entry leaf) e

theorem Merges.assigned {arms : List (Expr × Binding)} {fallback : Binding} {leaf : LeafId} {e : Expr}
    (merges : Merges arms fallback leaf e) (each : ∀ p ∈ arms, p.1.Assigned ∧ (p.2.entry leaf).Assigned)
    (last : (fallback.entry leaf).Assigned) : e.Assigned :=
  picked_done merges (List.forall_mem_map.mpr each) last

theorem Merges.leads {arms : List (Expr × Binding)} {fallback : Binding} {leaf : LeafId} {e : Expr}
    (merges : Merges arms fallback leaf e) (env : Env) (v : Value)
    (selects : Selects env (fun arm => Leads env (arm.entry leaf) v) fallback arms) :
    Leads env e v := by
  have chosen : Selects env (Leads env · v) (fallback.entry leaf)
      (arms.map fun p => (p.1, p.2.entry leaf)) := by
    refine selects_imp ?_ ?_ selects
    · rw [List.forall₂_map_right_iff]
      exact List.forall₂_same.mpr fun _ _ => ⟨rfl, id⟩
    · exact id
  exact picked_leads merges env v chosen

/-- The leaves that are joined so far: each has an entry from the arms. -/
structure Joins (arms : List (Expr × Binding)) (fallback : Binding) (leaves : List LeafId)
    (b : Binding) (L : Set Expr) (after : Binding) : Prop where
  good : after.Good L
  keys : after.keys = b.keys
  kept : ∀ leaf, leaf ∉ leaves → after.get? leaf = b.get? leaf
  joined : ∀ leaf ∈ leaves, ∀ e, after.get? leaf = some e → Merges arms fallback leaf e

variable {arms : List (Expr × Binding)} {fallback b b' after : Binding} {leaf : LeafId}
  {rest : List LeafId}

theorem joins_nil (good : b.Good L) : Joins arms fallback [] b L b :=
  ⟨good, rfl, fun _ _ => rfl, by simp⟩

theorem joins_cons (fresh : leaf ∉ rest) (keys : b'.keys = b.keys)
    (others : ∀ other, other ≠ leaf → b'.get? other = b.get? other)
    (first : ∀ e, b'.get? leaf = some e → Merges arms fallback leaf e)
    (later : Joins arms fallback rest b' L after) : Joins arms fallback (leaf :: rest) b L after where
  good := later.good
  keys := later.keys.trans keys
  kept other unlisted := by
    rw [later.kept other (by simp_all), others other (by simp_all)]
  joined other listed e found := by
    rcases List.mem_cons.mp listed with rfl | listed
    · exact first e (later.kept other fresh ▸ found)
    · exact later.joined other listed e found

/-- With every leaf joined, the binding agrees with the store that the taken arm leaves. -/
theorem joins_holds (joins : Joins arms fallback b.keys b L after) {σ : Store}
    (selects : Selects env (fun arm => Holds env arm σ ∧ arm.keys = b.keys) fallback arms) :
    Holds env after σ := by
  intro leaf e found
  have listed : leaf ∈ b.keys := joins.keys ▸ OrderedMap.mem_keys_of_get? found
  have entry : ∀ arm : Binding, Holds env arm σ ∧ arm.keys = b.keys →
      Leads env (arm.entry leaf) (σ leaf) := by
    rintro arm ⟨holds, keys⟩
    obtain ⟨f, here⟩ := OrderedMap.get?_of_mem_keys (keys ▸ listed : leaf ∈ arm.keys)
    simpa [Binding.entry, here] using holds leaf f here
  refine (joins.joined leaf listed e found).leads env (σ leaf) ?_
  exact selects_imp (List.forall₂_same.mpr fun p _ => ⟨rfl, entry p.2⟩) (entry fallback) selects

theorem get_fits (good : b.Good K) (leaf : LeafId) :
    Makes (ε := NetlistError) K (b.get leaf) fun L e =>
      Fit L e ∧ e.shape = (b.entry leaf).shape := by
  refine makes_weaken (get_makes good.within leaf) ?_
  rintro L e sub ⟨inside, alike⟩
  have entry : (b.entry leaf).Integerless := held_integerless (g := .empty 0) good (.leaf leaf)
  exact ⟨⟨inside, integerless_alike alike entry⟩, alike⟩

theorem entry_of_get {e : Expr} (found : b.get? leaf = some e) : b.entry leaf = e := by
  simp [Binding.entry, found]

/-- A joined entry put in its place, before the rest is joined. -/
theorem joins_insert {e : Expr} (fresh : leaf ∉ rest) (listed : leaf ∈ b.keys)
    (merges : Merges arms fallback leaf e)
    (later : Joins arms fallback rest (b.insert leaf e) L after) :
    Joins arms fallback (leaf :: rest) b L after := by
  refine joins_cons fresh (keys_insert_of_mem listed) (fun other differ => ?_) ?_ later
  · rw [OrderedMap.get?_insert, if_neg (by simpa [eq_comm] using differ)]
  · intro f found
    rw [OrderedMap.get?_insert, if_pos rfl] at found
    exact Option.some.inj found ▸ merges

theorem joinBranches_yields {condition : Expr} {thenArm elseArm : Binding} (leaves : List LeafId)
    (nodup : leaves.Nodup) (fit : Fit K condition) (first : thenArm.Good K) (second : elseArm.Good K)
    (good : b.Good K) (covered : ∀ leaf ∈ leaves, leaf ∈ b.keys) :
    Yields K (Executing.joinBranches condition thenArm elseArm leaves b)
      (Joins [(condition, thenArm)] elseArm leaves b) := by
  induction leaves generalizing b K with
  | nil => exact yields_pure fun L sub => joins_nil (good_mono sub good)
  | cons leaf rest ih =>
    simp only [Executing.joinBranches]
    obtain ⟨fresh, nodup⟩ := List.nodup_cons.mp nodup
    have listed := covered leaf (by simp)
    refine yields_bind (yields_build (get_fits first leaf)) ?_
    rintro L₁ _ t sub₁ _ ⟨fitTrue, alikeTrue⟩
    refine yields_bind (yields_build (get_fits (good_mono sub₁ second) leaf)) ?_
    rintro L₂ _ f sub₂ sharing ⟨fitFalse, alikeFalse⟩
    have next : ∀ M e, L₂ ⊆ M → Fit M e → Merges [(condition, thenArm)] elseArm leaf e →
        Yields M (Executing.joinBranches condition thenArm elseArm rest (b.insert leaf e))
          (Joins [(condition, thenArm)] elseArm (leaf :: rest) b) := by
      intro M e larger fitted merges
      have sub := (sub₁.trans sub₂).trans larger
      refine yields_weaken (ih nodup (fit_mono sub fit) (good_mono sub first) (good_mono sub second)
        (good_insert (good_mono sub good) fitted.1 fitted.2) ?_) ?_
      · exact fun other member => keys_insert_of_mem listed ▸ covered other (by simp [member])
      · exact fun M' after _ later => joins_insert fresh listed merges later
    split
    · rename_i same
      obtain rfl := sharing.same_node (sub₂ fitTrue.1) fitFalse.1 same
      exact next L₂ t subset_rfl fitFalse (.same alikeTrue (.last alikeFalse))
    · refine yields_bind (yields_build (makes_node (fun _ => rfl) fun n a operand => ?_)) ?_
      · simp only [children, List.mem_cons, List.not_mem_nil, or_false] at operand
        rcases operand with rfl | rfl | rfl
        · exact sub₂ (sub₁ fit.1)
        · exact sub₂ fitTrue.1
        · exact fitFalse.1
      · rintro L₃ _ e sub₃ _ ⟨inside, n, rfl⟩
        exact next L₃ _ sub₃ ⟨inside, mux_integerless fit.2 fitTrue.2 fitFalse.2⟩
          (.mux (by simp only [shape, alikeTrue]) (.last alikeFalse))

theorem forall₂_zip {γ : Type} {R : β → γ → Prop} {bs : List β} {cs : List γ}
    (each : List.Forall₂ R bs cs) (as : List α) :
    List.Forall₂ (fun p q => p.1 = q.1 ∧ R p.2 q.2) (as.zip bs) (as.zip cs) := by
  induction each generalizing as with
  | nil => simp
  | cons here _ ih =>
    cases as with
    | nil => exact .nil
    | cons a as => exact .cons ⟨rfl, here⟩ (ih as)

theorem joinItems_yields {found : List Expr} {arms : List Binding} (leaves : List LeafId)
    (nodup : leaves.Nodup) (fits : ∀ e ∈ found, Fit K e) (goods : ∀ arm ∈ arms, Binding.Good arm K)
    (last : fallback.Good K) (good : b.Good K) (covered : ∀ leaf ∈ leaves, leaf ∈ b.keys) :
    Yields K (Executing.joinItems found arms fallback leaves b)
      (Joins (found.zip arms) fallback leaves b) := by
  induction leaves generalizing b K with
  | nil => exact yields_pure fun L sub => joins_nil (good_mono sub good)
  | cons leaf rest ih =>
    simp only [Executing.joinItems]
    obtain ⟨fresh, nodup⟩ := List.nodup_cons.mp nodup
    have listed := covered leaf (by simp)
    refine yields_bind (yields_build (get_fits good leaf)) ?_
    rintro L₁ _ base sub₁ _ ⟨fitBase, alikeBase⟩
    refine yields_bind (yields_build (get_fits (good_mono sub₁ last) leaf)) ?_
    rintro L₂ _ end_ sub₂ _ ⟨fitLast, alikeLast⟩
    have values : Makes L₂ (arms.mapM (·.get leaf) : Numbering (Except NetlistError) (List Expr))
        fun L vs =>
          List.Forall₂ (fun arm v => Fit L v ∧ v.shape = (arm.entry leaf).shape) arms vs := by
      refine makes_mapM ?_ arms fun arm member =>
        get_fits (good_mono (sub₁.trans sub₂) (goods arm member)) leaf
      exact fun _ _ _ _ larger here => ⟨fit_mono larger here.1, here.2⟩
    refine yields_bind (yields_build values) ?_
    intro L₃ _ vs sub₃ sharing each
    have sub := (sub₁.trans sub₂).trans sub₃
    have next : ∀ M b', L₃ ⊆ M → b'.Good M → b'.keys = b.keys → Yields M
        (Executing.joinItems found arms fallback rest b')
          (Joins (found.zip arms) fallback rest b') := by
      intro M b' larger good' keys
      refine ih nodup (fun e member => fit_mono (sub.trans larger) (fits e member))
        (fun arm member => good_mono (sub.trans larger) (goods arm member))
        (good_mono (sub.trans larger) last) good' ?_
      exact fun other member => keys ▸ covered other (by simp [member])
    split
    · rename_i same
      simp only [Bool.and_eq_true, List.all_eq_true] at same
      refine yields_weaken (next L₃ b subset_rfl (good_mono sub good) rfl) fun M after _ later => ?_
      refine joins_cons fresh rfl (fun _ _ => rfl) (fun e found => ?_) later
      have own : e.shape = base.shape := by rw [alikeBase, entry_of_get found]
      obtain rfl := sharing.same_node (sub₃ fitLast.1) (sub₃ (sub₂ fitBase.1)) same.1
      refine picked_all (fun p inside => ?_) (own.trans alikeLast)
      obtain ⟨q, listed, rfl⟩ := List.mem_map.mp inside
      obtain ⟨w, member, fitted, alike⟩ := forall₂_left each q.2 (List.of_mem_zip listed).2
      obtain rfl := sharing.same_node fitted.1 (sub₃ (sub₂ fitBase.1)) (same.2 w member)
      exact own.trans alike
    · refine yields_bind (yields_build (choose_makes (found.zip vs) (fit_mono sub₃ fitLast) ?_)) ?_
      · intro p inside
        obtain ⟨first, second⟩ := List.of_mem_zip inside
        obtain ⟨arm, -, fitted, -⟩ := forall₂_right each p.2 second
        exact ⟨fit_mono sub (fits p.1 first), fitted⟩
      · rintro L₄ _ chain sub₄ _ ⟨fit, picked⟩
        refine yields_weaken (next L₄ _ sub₄ (good_insert (good_mono (sub.trans sub₄) good)
          fit.1 fit.2) (keys_insert_of_mem listed)) fun M after _ later => ?_
        refine joins_insert fresh listed (picked_alike ?_ alikeLast picked) later
        rw [List.forall₂_map_right_iff]
        exact ((forall₂_zip each found).imp fun p q both => ⟨both.1.symm, both.2.2⟩).flip

end

end CombLogic
