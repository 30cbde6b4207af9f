import CombLogic.Proofs.Block.Memoized

/- Resolution finds for every node its image, and keeps the memo right. What it leaves in the place of an
   expression is the substitution of what is bound. -/
namespace CombLogic

open Expr

/-- The entries of a binding lie in a set of nodes. -/
def Binding.Within (b : Binding) (K : Set Expr) : Prop := ∀ leaf e, b.get? leaf = some e → e ∈ K

section Reading

variable {ε : Type} {K L : Set Expr} {g : Netlist} {b : Binding}

theorem within_mono (sub : K ⊆ L) (within : b.Within K) : b.Within L :=
  fun leaf e found => sub (within leaf e found)

theorem get_supplies (within : b.Within K) (leaf : LeafId) :
    Makes (ε := ε) K (b.get leaf) fun L e =>
      e ∈ L ∧ Supplies b leaf e ∧ (b.get? leaf = none → e ∉ K) := by
  unfold Binding.get
  cases found : b.get? leaf with
  | some e => exact makes_pure fun L sub => ⟨sub (within leaf e found), .entry found, by simp⟩
  | none =>
    refine makes_weaken (makes_new (fun _ => rfl) (by simp [children])) ?_
    rintro L e - ⟨inside, fresh, n, rfl⟩
    exact ⟨inside, .live found, fun _ => fresh⟩

theorem get_makes (within : b.Within K) (leaf : LeafId) :
    Makes (ε := ε) K (b.get leaf) fun L e => e ∈ L ∧ e.shape = (b.entry leaf).shape :=
  makes_weaken (get_supplies within leaf) fun _ _ _ here => ⟨here.1, supplies_shape here.2.1⟩

/-- What is read for a target is new, unless the target is a leaf with an entry. -/
theorem readBinding_becomes (image : Expr → Expr) (within : b.Within K) (node : Nat) (target : Ref) :
    Makes K (g.readBinding b target) fun L e => e ∈ L ∧
      Becomes g b image (.read node target) e ∧ (Made b image (.read node target) → e ∉ K) := by
  have unbound : Made b image (.read node target) →
      ∀ leaf, target = .leaf leaf → b.get? leaf = none := by
    intro made
    cases made with
    | read unbound => exact unbound
    | parent operand => simp [children] at operand
  cases target with
  | leaf leaf =>
    refine makes_weaken (get_supplies within leaf) ?_
    rintro L e - ⟨inside, supplies, fresh⟩
    exact ⟨inside, .leaf supplies, fun made => fresh (unbound made leaf rfl)⟩
  | bundle id =>
    refine makes_bind (makes_ask fun ids found L _ => found) fun L ids sub found => ?_
    refine makes_bind (makes_mapM (fun L L' leaf e sub here => ⟨sub here.1, here.2⟩) ids
      fun leaf _ => get_supplies (within_mono sub within) leaf) fun L' es sub' each => ?_
    refine makes_weaken (makes_new (fun _ => rfl) fun n a operand => ?_) ?_
    · obtain ⟨leaf, -, inside, -⟩ := forall₂_right each a (by simpa [children] using operand)
      exact inside
    · rintro L'' e - ⟨inside, fresh, n, rfl⟩
      exact ⟨inside, .bundle found (each.imp fun _ _ here => here.2.1),
        fun _ member => fresh (sub' (sub member))⟩

theorem readBinding_makes (within : b.Within K) (target : Ref) :
    Makes K (g.readBinding b target) fun L e => e ∈ L ∧ e.shape = (g.held b target).shape := by
  refine makes_weaken (readBinding_becomes id within 0 target) ?_
  rintro L e - ⟨inside, becomes, -⟩
  exact ⟨inside, becomes_shape becomes (by simp [children])⟩

end Reading

section Forms

variable {g : Netlist} {b : Binding} {e : Expr}

theorem resolve_stays (stays : e.stays = true) : e.resolve g b = pure e := by
  cases e <;> simp_all [Expr.stays, Expr.resolve]

theorem resolve_parent (moves : e.stays = false) (unread : ∀ node target, e ≠ .read node target) :
    e.resolve g b = Resolving.remember e.node (resolveAll g b e.children >>= Resolving.keep e) := by
  cases e with
  | signal | literal | integer | unassigned => simp [Expr.stays] at moves
  | read node target => exact (unread node target rfl).elim
  | _ => simp only [Expr.resolve, resolveAll, children, node, bind_assoc, pure_bind]

theorem resolveAll_mapM (es : List Expr) : resolveAll g b es = es.mapM (Expr.resolve g b) := by
  induction es with
  | nil => rfl
  | cons e rest ih => rw [resolveAll, List.mapM_cons, ih]

theorem resolveLists_mapM (lists : List (List Expr)) :
    Expr.resolveLists g b lists = lists.mapM (resolveAll g b) := by
  induction lists with
  | nil => rfl
  | cons es rest ih => rw [Expr.resolveLists, List.mapM_cons, ih]

theorem remember_eq (node : Nat) (find : Resolving Expr) : Resolving.remember node find =
    remembering (·[node]?) (fun e memo => memo.insert node e) find := by
  refine bind_congr fun memo => ?_
  dsimp only
  cases memo[node]? <;> rfl

theorem remember_run (node : Nat) (find : Resolving Expr) (memo : ResolveMemo) (n : Nat) :
    Resolving.remember node find memo n = match memo[node]? with
      | some e => .ok ((e, memo), n)
      | none => (find memo n).map fun r => ((r.1.1, r.1.2.insert node r.1.1), r.2) := by
  rw [remember_eq, remembering_run]
  cases memo[node]? <;> rfl

end Forms

/-- A run from a right memo to a later right memo. -/
def Remembers {α : Type} (g : Netlist) (b : Binding) (D : Set Expr) (bound : Nat) (K : Set Expr)
    (memo : ResolveMemo) (m : Resolving α) (post : Set Expr → ResolveMemo → α → Prop) : Prop :=
  Makes K (m memo) fun L r => Memoized g b D L r.2 ∧ Grows D bound memo r.2 ∧ post L r.2 r.1

section Walk

variable {α β : Type} {g : Netlist} {b : Binding} {D K L : Set Expr} {next bound : Nat}
  {memo : ResolveMemo} {e : Expr}

theorem remembers_pure {a : α} {post : Set Expr → ResolveMemo → α → Prop}
    (memoized : Memoized g b D K memo) (holds : ∀ L, K ⊆ L → post L memo a) :
    Remembers g b D bound K memo (pure a) post :=
  makes_pure fun L sub => ⟨memoized_mono memoized sub, grows_refl, holds L sub⟩

theorem remembers_bind {m : Resolving α} {f : α → Resolving β}
    {post : Set Expr → ResolveMemo → α → Prop} {final : Set Expr → ResolveMemo → β → Prop}
    (first : Remembers g b D bound K memo m post)
    (rest : ∀ L memo' a, K ⊆ L → Memoized g b D L memo' → Grows D bound memo memo' → post L memo' a →
      Remembers g b D bound L memo' (f a) final) : Remembers g b D bound K memo (m >>= f) final := by
  change Makes K (m memo >>= fun r => f r.1 r.2) _
  refine makes_bind first ?_
  rintro L ⟨a, memo'⟩ sub ⟨memoized, grows, here⟩
  refine makes_weaken (rest L memo' a sub memoized grows here) ?_
  rintro L' ⟨c, memo''⟩ - ⟨memoized', grows', there⟩
  exact ⟨memoized', grows_trans grows grows', there⟩

theorem remembers_build {m : Numbering (Except NetlistError) α} {post : Set Expr → α → Prop}
    (memoized : Memoized g b D K memo) (run : Makes K m post) :
    Remembers g b D bound K memo (Resolving.build m) fun L memo' a => memo' = memo ∧ post L a := by
  change Makes K (m >>= fun a => pure (a, memo)) _
  exact makes_map <| makes_weaken run fun L a sub here =>
    ⟨memoized_mono memoized sub, grows_refl, rfl, here⟩

theorem remembers_weaken {m : Resolving α} {post later : Set Expr → ResolveMemo → α → Prop}
    (run : Remembers g b D bound K memo m post)
    (weaker : ∀ L memo' a, K ⊆ L → post L memo' a → later L memo' a) :
    Remembers g b D bound K memo m later :=
  makes_weaken run fun L r sub here => ⟨here.1, here.2.1, weaker L r.2 r.1 sub here.2.2⟩

theorem remember_found {find : Resolving Expr} (sharing : Sharing D next) (member : e ∈ D)
    (moves : e.stays = false) (heavy : e.weight < bound) (memoized : Memoized g b D K memo)
    (run : Remembers g b D e.weight K memo find (Answers g b e)) :
    Remembers g b D bound K memo (Resolving.remember e.node find) fun L memo' r =>
      Found L memo' e r := by
  intro L sub n ⟨r, memo'⟩ n' shared done
  rw [remember_run] at done
  cases known : memo[e.node]? with
  | some s =>
    rw [known] at done
    cases done
    obtain ⟨e', member', number, -, inside, -⟩ := memoized.each e.node r known
    exact ⟨L, subset_rfl, shared, memoized_mono memoized sub, grows_refl,
      find_moves moves ▸ known, sub inside⟩
  | none =>
    rw [known] at done
    obtain ⟨⟨⟨s, memo₁⟩, after⟩, first, same⟩ := map_ok done
    cases same
    obtain ⟨L', grown, shared', memoized', grows, answer⟩ := run L sub n _ after shared first
    have free := grows_free grows sharing member known
    exact ⟨L', grown, shared', memoized_insert moves free memoized' sharing member answer,
      grows_insert grows member heavy free, find_insert_self moves, answer.inside⟩

/-- One after the other, where what holds of an answer still holds when the memo grows. -/
theorem remembers_mapM {f : α → Resolving β} {post : Set Expr → ResolveMemo → α → β → Prop}
    (mono : ∀ L L' memo memo' a r, L ⊆ L' → Grows D bound memo memo' → post L memo a r →
      post L' memo' a r)
    (as : List α) (memoized : Memoized g b D K memo)
    (each : ∀ a ∈ as, ∀ L memo', K ⊆ L → Memoized g b D L memo' →
      Remembers g b D bound L memo' (f a) fun L' memo'' r => post L' memo'' a r) :
    Remembers g b D bound K memo (as.mapM f) fun L memo' rs => List.Forall₂ (post L memo') as rs := by
  induction as generalizing K memo with
  | nil => exact remembers_pure memoized fun _ _ => .nil
  | cons a rest ih =>
    rw [List.mapM_cons]
    refine remembers_bind (each a (by simp) K memo subset_rfl memoized) ?_
    intro L memo₁ r sub memoized₁ grows first
    refine remembers_bind (ih memoized₁ fun c later L' memo' sub' =>
      each c (by simp [later]) L' memo' (sub.trans sub')) ?_
    intro L' memo₂ rs sub' memoized₂ grows' others
    refine remembers_pure memoized₂ fun L'' sub'' => ?_
    exact .cons (mono L L'' memo₁ memo₂ a r (sub'.trans sub'') grows' first)
      (others.imp fun c s => mono L' L'' memo₂ memo₂ c s sub'' grows_refl)

theorem resolveAll_found {es : List Expr} (memoized : Memoized g b D K memo)
    (each : ∀ a ∈ es, ∀ L memo', K ⊆ L → Memoized g b D L memo' →
      Remembers g b D bound L memo' (a.resolve g b) fun L' memo'' r => Found L' memo'' a r) :
    Remembers g b D bound K memo (resolveAll g b es) fun L memo' rs =>
      List.Forall₂ (Found L memo') es rs := by
  rw [resolveAll_mapM]
  refine remembers_mapM (fun L L' memo memo' a r sub grows found => ?_) es memoized each
  exact found_mono sub grows found

theorem resolveLists_found {lists : List (List Expr)} (memoized : Memoized g b D K memo)
    (each : ∀ es ∈ lists, ∀ a ∈ es, ∀ L memo', K ⊆ L → Memoized g b D L memo' →
      Remembers g b D bound L memo' (a.resolve g b) fun L' memo'' r => Found L' memo'' a r) :
    Remembers g b D bound K memo (resolveLists g b lists) fun L memo' rss =>
      List.Forall₂ (List.Forall₂ (Found L memo')) lists rss := by
  rw [resolveLists_mapM]
  refine remembers_mapM (fun L L' memo memo' es rs sub grows found => ?_) lists memoized
    fun es listed L memo' sub memoized' => ?_
  · exact foundAll_mono sub grows found
  · exact resolveAll_found memoized' fun a member L' memo'' sub' =>
      each es listed a member L' memo'' (sub.trans sub')

/-- The last step for a node: its operands were found. -/
theorem keep_answers {rs : List Expr} (member : e ∈ K) (memoized : Memoized g b D K memo)
    (unread : ∀ node target, e ≠ .read node target)
    (found : List.Forall₂ (Found K memo) e.children rs) :
    Remembers g b D bound K memo (Resolving.keep e rs) (Answers g b e) := by
  obtain rfl : rs = e.children.map memo.image := by
    have same := map_of_forall₂ (f := id) found fun a r here => (image_found here.1).symm
    rwa [List.map_id] at same
  have known : ∀ a ∈ e.children, (memo.find? a).isSome := by
    intro a operand
    obtain ⟨r, -, here⟩ := forall₂_left found a operand
    exact Option.isSome_of_eq_some here.1
  have inside : ∀ r ∈ e.children.map memo.image, r ∈ K := by
    intro r listed
    obtain ⟨a, -, here⟩ := forall₂_right found r listed
    exact here.2
  refine remembers_weaken (remembers_build memoized (makes_of_builds
    (rebuild_builds member inside (List.length_map _)))) ?_
  -- either all images are the operands themselves, or one is not
  rintro L memo r sub ⟨rfl, -, -, there, ⟨old, rfl⟩ | ⟨other, fresh, n, rfl⟩⟩
  · have unchanged : ∀ a ∈ r.children, memo.image a = a :=
      List.map_inj_left.mp (old.trans (List.map_id _).symm)
    refine ⟨there, known, .same unread unchanged, fun made => ?_⟩
    cases made with
    | read => exact (unread _ _ rfl).elim
    | parent operand changed => exact (changed (unchanged _ operand)).elim
  · have changed : ∃ a ∈ e.children, memo.image a ≠ a := by
      by_contra none
      push Not at none
      exact other ((List.map_congr_left none).trans (List.map_id _))
    obtain ⟨a, operand, changed⟩ := changed
    exact ⟨there, known, .new operand changed, fun _ => memoized_new memoized fresh⟩

/-- Resolution finds the image of a node. Its operands weigh less, so while they are resolved the memo
    takes up no number of the node itself. -/
theorem resolve_found (sharing : Sharing D next) (e : Expr) : e ∈ D → ∀ bound, e.weight < bound →
    ∀ K memo, D ⊆ K → b.Within K → Memoized g b D K memo →
      Remembers g b D bound K memo (e.resolve g b) fun L memo' r => Found L memo' e r := by
  induction e using operand_induction with
  | step e ih =>
    intro member bound heavy K memo inside within memoized
    cases stays : e.stays with
    | true =>
      rw [resolve_stays stays]
      exact remembers_pure memoized fun L sub => ⟨find_stays stays, sub (inside member)⟩
    | false =>
      by_cases unread : ∀ node target, e ≠ .read node target
      · rw [resolve_parent stays unread]
        refine remember_found sharing member stays heavy memoized (remembers_bind
          (resolveAll_found memoized fun a operand L memo' sub memoized' => ?_) ?_)
        · exact ih a operand (sharing.operands e member a operand) e.weight (weight_operand operand) L
            memo' (inside.trans sub) (within_mono sub within) memoized'
        · intro L memo' rs sub memoized' _ found
          exact keep_answers (sub (inside member)) memoized' unread found
      · push Not at unread
        obtain ⟨node, target, rfl⟩ := unread
        refine remember_found sharing member stays heavy memoized (remembers_weaken
          (remembers_build memoized (readBinding_becomes memo.image within node target)) ?_)
        rintro L memo r sub ⟨rfl, there, becomes, fresh⟩
        exact ⟨there, by simp [children], becomes, fun made => memoized_new memoized (fresh made)⟩

end Walk

/-- A resolved node. -/
def Replaces (answer : Ref → Expr) (e : Expr) (L : Set Expr) (r : Expr) : Prop :=
  r ∈ L ∧ r.shape = e.subst answer

/-- Resolved nodes of a list. -/
def ReplacesAll (answer : Ref → Expr) (es : List Expr) (L : Set Expr) (rs : List Expr) : Prop :=
  List.Forall₂ (fun e r => Replaces answer e L r) es rs

section

variable {K L : Set Expr} {next bound : Nat} {g : Netlist} {b : Binding} {answer : Ref → Expr}
  {memo : ResolveMemo}

theorem replaces_mono {e r : Expr} (sub : K ⊆ L) (replaces : Replaces answer e K r) :
    Replaces answer e L r :=
  ⟨sub replaces.1, replaces.2⟩

theorem replacesAll_mono {es rs : List Expr} (sub : K ⊆ L) (replaces : ReplacesAll answer es K rs) :
    ReplacesAll answer es L rs :=
  replaces.imp fun _ _ => replaces_mono sub

theorem found_replaces {D : Set Expr} {e r : Expr} (memoized : Memoized g b D K memo)
    (sharing : Sharing D next) (member : e ∈ D) (found : Found K memo e r) :
    Replaces (g.held b) e K r := by
  have imaged := imaged_known memoized sharing member (Option.isSome_of_eq_some found.1)
  exact ⟨found.2, image_found found.1 ▸ imaged_shape imaged⟩

/-- Resolution with a memo of its own. -/
theorem makes_of_remembers {α : Type} {D : Set Expr} {m : Resolving α}
    {post : Set Expr → ResolveMemo → α → Prop} {final : Set Expr → α → Prop}
    (run : Remembers g b D bound K {} m post)
    (after : ∀ L memo a, Memoized g b D L memo → post L memo a → final L a) :
    Makes K (Prod.fst <$> m.run {}) final := by
  rw [map_eq_pure_bind]
  refine makes_map (makes_weaken run ?_)
  rintro L ⟨a, memo⟩ - ⟨memoized, -, here⟩
  exact after L memo a memoized here

theorem resolve_makes (sharing : Sharing K next) (within : b.Within K) {e : Expr} (member : e ∈ K) :
    Makes K (g.resolve b e) (Replaces (g.held b) e) :=
  makes_of_remembers
    (resolve_found sharing e member _ (Nat.lt_succ_self _) K {} subset_rfl within memoized_empty)
    fun _ _ _ memoized => found_replaces memoized sharing member

theorem resolveLists_makes (sharing : Sharing K next) (within : b.Within K)
    {lists : List (List Expr)} (inside : ∀ es ∈ lists, ∀ e ∈ es, e ∈ K) :
    Makes K (g.resolveLists b lists) fun L rss =>
      List.Forall₂ (fun es rs => ReplacesAll (g.held b) es L rs) lists rss := by
  have run : Remembers g b K (weights lists.flatten + 1) K {} (Expr.resolveLists g b lists) _ :=
    resolveLists_found memoized_empty fun es listed a member L memo sub memoized =>
      resolve_found sharing a (inside es listed a member) _
        (Nat.lt_succ_of_le (weight_mem (List.mem_flatten.mpr ⟨es, listed, member⟩))) L memo sub
        (within_mono sub within) memoized
  refine makes_of_remembers run fun L memo rss memoized found => ?_
  refine ((List.forall₂_and_left _ _).mpr ⟨inside, found⟩).imp fun es rs here => ?_
  exact ((List.forall₂_and_left _ _).mpr here).imp fun e r both =>
    found_replaces memoized sharing both.1 both.2

end

end CombLogic
