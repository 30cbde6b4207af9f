import CombLogic.Proofs.Block.Choice

/- What a join of arms builds for a leaf, exactly. Whether it is a choice at all depends on which nodes the
   arms share; a node that is built for the choice is never one of theirs. Under a condition that is
   neither 0 nor 1 the choice leaves every bit unknown, and without a choice the arms agree. -/
namespace CombLogic

open Expr

/-- What the entries of a leaf come to, up to node numbers: the one node that all arms from here on
    hold, or a choice between the first entry and what the later ones come to. -/
def Expr.merged (fallback : Expr) : List (Expr × Expr) → Expr
  | [] => fallback
  | (found, value) :: rest =>
    if value.same fallback && rest.all (·.2.same fallback) then fallback
    else .mux 0 found value (merged fallback rest)

/-- The entries of a leaf in the arms, each with the condition of its arm. -/
def entries (arms : List (Expr × Binding)) (leaf : LeafId) : List (Expr × Expr) :=
  arms.map fun p => (p.1, p.2.entry leaf)

section

variable {env : Env} {fallback found value : Expr} {rest : List (Expr × Expr)}

theorem merged_same {arms : List (Expr × Expr)} (same : arms.all (·.2.same fallback) = true) :
    fallback.merged arms = fallback := by
  cases arms with
  | nil => rfl
  | cons p rest => exact if_pos same

/-- Arms that are not taken add nothing. -/
theorem merged_past {past : List (Expr × Expr)}
    (fails : ∀ p ∈ past, p.1.value env = .ok (.ofBool false)) :
    (fallback.merged (past ++ rest)).value env = (fallback.merged rest).value env := by
  induction past with
  | nil => rfl
  | cons p past ih =>
    obtain ⟨found, value⟩ := p
    rw [List.cons_append, merged]
    split
    · rename_i same
      have later : rest.all (·.2.same fallback) = true := by
        simp only [List.all_append, Bool.and_eq_true] at same
        exact same.2.2
      rw [merged_same later]
    · rw [← ih fun q listed => fails q (by simp [listed])]
      have here : found.valueOn env env.unreadable = .ok ⟨[.zero]⟩ := fails _ List.mem_cons_self
      simp only [Expr.value, valueOn, here, bind, Except.bind]

/-- Where the condition is unknown, all bits are, or the arm and what the later arms come to agree. -/
theorem merged_undecided {bit : Bit} (condition : found.value env = .ok (.ofBit bit))
    (unknown : bit.isKnown = false) (agree : value.same fallback = true → value = fallback) :
    (fallback.merged ((found, value) :: rest)).value env =
        (value.value env).map (fun v => .unknown v.width) ∨
      (fallback.merged ((found, value) :: rest)).value env = value.value env ∧
        (fallback.merged rest).value env = value.value env := by
  rw [merged]
  split
  · rename_i same
    simp only [Bool.and_eq_true] at same
    rw [merged_same same.2, agree same.1]
    exact .inr ⟨rfl, rfl⟩
  · have here : found.valueOn env env.unreadable = .ok ⟨[bit]⟩ := condition
    refine .inl ?_
    simp only [Expr.value, valueOn, here, bind, Except.bind]
    cases bit with
    | one | zero => cases unknown
    | x | z => cases value.valueOn env env.unreadable <;> rfl

end

section

variable {K L : Set Expr} {next : Nat} {ε : Type}

/-- A new node is none of those that are there. -/
theorem makes_fresh {form : Nat → Expr} (fresh : ∀ n, (form n).node = n)
    (operands : ∀ n, ∀ a ∈ (form n).children, a ∈ K) :
    Makes (ε := ε) K (do return form (← Build.number)) fun L s => s ∈ L ∧ s ∉ K ∧ ∃ n, s = form n := by
  intro L sub n a n' sharing run
  cases run
  refine ⟨insert (form n) L, Set.subset_insert _ _,
    sharing.build (fresh n) fun a operand => sub (operands n a operand), Set.mem_insert _ _, ?_, n, rfl⟩
  intro old
  have := sharing.numbered _ (sub old)
  rw [fresh] at this
  omega

/-- A choice is built as it is written down, and is a new node unless all entries are one. -/
theorem choose_merged {fallback : Expr} (arms : List (Expr × Expr)) (last : fallback ∈ K)
    (each : ∀ p ∈ arms, p.1 ∈ K ∧ p.2 ∈ K) :
    Makes K (Executing.choose fallback arms) fun L e =>
      e ∈ L ∧ e.shape = (fallback.merged arms).shape ∧
        if arms.all (·.2.same fallback) then e = fallback else e ∉ K := by
  induction arms with
  | nil => exact makes_pure fun L sub => ⟨sub last, rfl, by simp⟩
  | cons p rest ih =>
    obtain ⟨found, value⟩ := p
    obtain ⟨insideFound, insideValue⟩ := each (found, value) (by simp)
    simp only [Executing.choose]
    refine makes_step (ih fun q listed => each q (by simp [listed])) ?_
    rintro L next chain sub sharing ⟨inside, form, place⟩
    have same : value.same chain = (value.same fallback && rest.all (·.2.same fallback)) := by
      split at place
      · rename_i all
        rw [place, all, Bool.and_true]
      · rename_i some
        rw [Bool.not_eq_true] at some
        rw [some, Bool.and_false, ← Bool.not_eq_true]
        exact fun old => place (sharing.same_node (sub insideValue) inside old ▸ insideValue)
    rw [same, merged, List.all_cons]
    split
    · rename_i all
      have later := (Bool.and_eq_true _ _ ▸ all).2
      refine makes_pure fun L' sub' => ⟨sub' inside, ?_⟩
      rw [if_pos later] at place
      exact ⟨congrArg shape place, place⟩
    · refine makes_weaken (makes_fresh (fun _ => rfl) fun n a operand => ?_) ?_
      · simp only [children, List.mem_cons, List.not_mem_nil, or_false] at operand
        rcases operand with rfl | rfl | rfl
        · exact sub insideFound
        · exact sub insideValue
        · exact inside
      · rintro L' e sub' ⟨member, new, n, rfl⟩
        exact ⟨member, by simp only [shape, form], fun old => new (sub old)⟩

theorem get_bound {b : Binding} {leaf : LeafId} (bound : leaf ∈ b.keys) {m : Type → Type} [Monad m] :
    (b.get leaf : Numbering m Expr) = pure (b.entry leaf) := by
  obtain ⟨e, found⟩ := OrderedMap.get?_of_mem_keys bound
  simp only [Binding.get, entry_of_get found, found]

theorem build_pure {α : Type} (a : α) : Executing.build (pure a) = pure a := rfl

theorem entry_within {b : Binding} (within : b.Within K) {leaf : LeafId} (bound : leaf ∈ b.keys) :
    b.entry leaf ∈ K := by
  obtain ⟨e, found⟩ := OrderedMap.get?_of_mem_keys bound
  exact entry_of_get found ▸ within leaf e found

theorem within_insert {b : Binding} {leaf : LeafId} {e : Expr} (within : b.Within K) (inside : e ∈ K) :
    Binding.Within (b.insert leaf e) K := by
  intro other f found
  rw [OrderedMap.get?_insert] at found
  split at found
  · exact Option.some.inj found ▸ inside
  · exact within other f found

/-- A leaf after a join. -/
structure JoinedAt (arms : List (Expr × Binding)) (fallback after : Binding) (leaf : LeafId) : Prop where
  bound : leaf ∈ after.keys
  form : (after.entry leaf).shape = ((fallback.entry leaf).merged (entries arms leaf)).shape
  /-- If all arms hold one node, that node stays. -/
  stays : (entries arms leaf).all (·.2.same (fallback.entry leaf)) →
    after.entry leaf = fallback.entry leaf
  /-- One number is one node. -/
  agree : ∀ p ∈ arms, (p.2.entry leaf).same (fallback.entry leaf) = true →
    p.2.entry leaf = fallback.entry leaf

/-- A binding in which some leaves are joined and the others are as before. -/
structure JoinsExactly (arms : List (Expr × Binding)) (fallback : Binding) (leaves : List LeafId)
    (b after : Binding) : Prop where
  keys : after.keys = b.keys
  kept : ∀ leaf, leaf ∉ leaves → after.get? leaf = b.get? leaf
  each : ∀ leaf ∈ leaves, JoinedAt arms fallback after leaf

variable {arms : List (Expr × Binding)} {fallback b b' after : Binding} {leaf : LeafId}
  {rest : List LeafId}

theorem entry_congr (same : after.get? leaf = b.get? leaf) : after.entry leaf = b.entry leaf := by
  simp only [Binding.entry, same]

theorem joinsExactly_cons (fresh : leaf ∉ rest) (keys : b'.keys = b.keys)
    (others : ∀ other, other ≠ leaf → b'.get? other = b.get? other)
    (first : JoinedAt arms fallback b' leaf) (later : JoinsExactly arms fallback rest b' after) :
    JoinsExactly arms fallback (leaf :: rest) b after where
  keys := later.keys.trans keys
  kept other unlisted := by
    rw [later.kept other (by simp_all), others other (by simp_all)]
  each other listed := by
    rcases List.mem_cons.mp listed with rfl | listed
    · have same := entry_congr (later.kept other fresh)
      exact ⟨later.keys ▸ first.bound, same ▸ first.form, fun all => same ▸ first.stays all, first.agree⟩
    · exact later.each other listed

theorem joinsExactly_insert {e : Expr} (fresh : leaf ∉ rest) (bound : leaf ∈ b.keys)
    (form : e.shape = ((fallback.entry leaf).merged (entries arms leaf)).shape)
    (stays : (entries arms leaf).all (·.2.same (fallback.entry leaf)) → e = fallback.entry leaf)
    (agree : ∀ p ∈ arms, (p.2.entry leaf).same (fallback.entry leaf) = true →
      p.2.entry leaf = fallback.entry leaf)
    (later : JoinsExactly arms fallback rest (b.insert leaf e) after) :
    JoinsExactly arms fallback (leaf :: rest) b after := by
  have keys := keys_insert_of_mem (e := e) bound
  have here : Binding.entry (b.insert leaf e) leaf = e := entry_of_get (by simp [OrderedMap.get?_insert])
  refine joinsExactly_cons fresh keys (fun other differ => ?_) ⟨keys ▸ bound, ?_, ?_, agree⟩ later
  · rw [OrderedMap.get?_insert, if_neg (by simpa [eq_comm] using differ)]
  · rw [here, form]
  · rw [here]
    exact stays

theorem joinBranches_exactly {condition : Expr} {thenArm elseArm : Binding} (leaves : List LeafId)
    (nodup : leaves.Nodup) (sharing : Sharing K next) (member : condition ∈ K)
    (first : thenArm.Within K) (second : elseArm.Within K)
    (bound : ∀ leaf ∈ leaves, leaf ∈ b.keys ∧ leaf ∈ thenArm.keys ∧ leaf ∈ elseArm.keys) :
    Yields K (Executing.joinBranches condition thenArm elseArm leaves b) fun _ after =>
      JoinsExactly [(condition, thenArm)] elseArm leaves b after := by
  induction leaves generalizing b K next with
  | nil => exact yields_pure fun _ _ => ⟨rfl, fun _ _ => rfl, by simp⟩
  | cons leaf rest ih =>
    obtain ⟨fresh, nodup⟩ := List.nodup_cons.mp nodup
    obtain ⟨here, inThen, inElse⟩ := bound leaf (by simp)
    have agree : (thenArm.entry leaf).same (elseArm.entry leaf) = true →
        thenArm.entry leaf = elseArm.entry leaf :=
      sharing.same_node (entry_within first inThen) (entry_within second inElse)
    have next : ∀ M n e, K ⊆ M → Sharing M n →
        e.shape = ((elseArm.entry leaf).merged (entries [(condition, thenArm)] leaf)).shape →
        ((entries [(condition, thenArm)] leaf).all (·.2.same (elseArm.entry leaf)) →
          e = elseArm.entry leaf) →
        Yields M (Executing.joinBranches condition thenArm elseArm rest (b.insert leaf e))
          fun _ after => JoinsExactly [(condition, thenArm)] elseArm (leaf :: rest) b after := by
      intro M n e sub sharing form stays
      have keys := keys_insert_of_mem (e := e) here
      refine yields_weaken (ih nodup sharing (sub member) (within_mono sub first)
        (within_mono sub second) fun other listed => keys ▸ bound other (by simp [listed])) ?_
      exact fun _ after _ later =>
        joinsExactly_insert fresh here form stays (by simpa using agree) later
    simp only [Executing.joinBranches, get_bound inThen, get_bound inElse, build_pure, pure_bind]
    split
    · rename_i same
      have one : (entries [(condition, thenArm)] leaf).all (·.2.same (elseArm.entry leaf)) = true := by
        simpa [entries] using same
      refine next K _ _ subset_rfl sharing ?_ fun _ => agree same
      rw [agree same, merged_same one]
    · rename_i differ
      refine yields_bind (yields_build (makes_node (fun _ => rfl) fun n a operand => ?_)) ?_
      · simp only [children, List.mem_cons, List.not_mem_nil, or_false] at operand
        rcases operand with rfl | rfl | rfl
        · exact member
        · exact entry_within first inThen
        · exact entry_within second inElse
      · rintro L m e sub sharing' ⟨-, n, rfl⟩
        refine next L m _ sub sharing' ?_ fun all => (differ (by simpa [entries] using all)).elim
        simp [entries, merged, shape, differ]

theorem mapM_get_bound {arms : List Binding} (bound : ∀ arm ∈ arms, leaf ∈ arm.keys) {m : Type → Type}
    [Monad m] [LawfulMonad m] :
    (arms.mapM (·.get leaf) : Numbering m (List Expr)) = pure (arms.map (·.entry leaf)) := by
  induction arms with
  | nil => rfl
  | cons arm rest ih =>
    rw [List.mapM_cons, get_bound (bound arm (by simp)), pure_bind,
      ih fun other listed => bound other (by simp [listed]), pure_bind, List.map_cons]

theorem zip_entries (found : List Expr) (arms : List Binding) :
    found.zip (arms.map (·.entry leaf)) = entries (found.zip arms) leaf := by
  rw [entries, List.zip_map_right]
  rfl

theorem joinItems_exactly {found : List Expr} {arms : List Binding} (leaves : List LeafId)
    (nodup : leaves.Nodup) (sharing : Sharing K next) (members : ∀ e ∈ found, e ∈ K)
    (within : ∀ arm ∈ arms, Binding.Within arm K) (last : fallback.Within K) (base : b.Within K)
    (bound : ∀ leaf ∈ leaves, leaf ∈ b.keys ∧ leaf ∈ fallback.keys ∧ ∀ arm ∈ arms, leaf ∈ arm.keys) :
    Yields K (Executing.joinItems found arms fallback leaves b) fun _ after =>
      JoinsExactly (found.zip arms) fallback leaves b after := by
  induction leaves generalizing b K next with
  | nil => exact yields_pure fun _ _ => ⟨rfl, fun _ _ => rfl, by simp⟩
  | cons leaf rest ih =>
    obtain ⟨fresh, nodup⟩ := List.nodup_cons.mp nodup
    obtain ⟨here, inLast, inArms⟩ := bound leaf (by simp)
    have entered : ∀ arm ∈ arms, arm.entry leaf ∈ K := fun arm listed =>
      entry_within (within arm listed) (inArms arm listed)
    have agree : ∀ p ∈ found.zip arms, (p.2.entry leaf).same (fallback.entry leaf) = true →
        p.2.entry leaf = fallback.entry leaf := fun p listed =>
      sharing.same_node (entered _ (List.of_mem_zip listed).2) (entry_within last inLast)
    simp only [Executing.joinItems, get_bound here, get_bound inLast, mapM_get_bound inArms, build_pure,
      pure_bind]
    split
    · rename_i same
      simp only [Bool.and_eq_true, List.all_map, List.all_eq_true, Function.comp_apply] at same
      have one : fallback.entry leaf = b.entry leaf :=
        sharing.same_node (entry_within last inLast) (entry_within base here) same.1
      have all : (entries (found.zip arms) leaf).all (·.2.same (fallback.entry leaf)) = true := by
        simp only [entries, List.all_map, List.all_eq_true, Function.comp_apply, one]
        exact fun p listed => same.2 p.2 (List.of_mem_zip listed).2
      refine yields_weaken (ih nodup sharing members within last base
        fun other listed => bound other (by simp [listed])) fun _ after _ later => ?_
      refine joinsExactly_cons fresh rfl (fun _ _ => rfl) ⟨here, ?_, fun _ => one.symm, agree⟩ later
      rw [merged_same all, one]
    · rw [zip_entries]
      refine yields_bind (yields_build (choose_merged _ (entry_within last inLast) ?_)) ?_
      · intro p inside
        obtain ⟨q, listed, rfl⟩ := List.mem_map.mp inside
        obtain ⟨first, second⟩ := List.of_mem_zip listed
        exact ⟨members q.1 first, entered q.2 second⟩
      · rintro L m chain sub sharing' ⟨inside, form, place⟩
        have keys := keys_insert_of_mem (e := chain) here
        refine yields_weaken (ih nodup sharing' (fun e listed => sub (members e listed))
          (fun arm listed => within_mono sub (within arm listed)) (within_mono sub last)
          (within_insert (within_mono sub base) inside)
          fun other listed => keys ▸ bound other (by simp [listed])) fun _ after _ later => ?_
        exact joinsExactly_insert fresh here form (fun all => by rwa [if_pos all] at place) agree later

end

end CombLogic
