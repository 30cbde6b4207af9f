import CombLogic.Proofs.Netlist.Lookup
import CombLogic.Proofs.Twins.Nodes

/- Computations that number nodes, run once from each of two counters. One of them mirrors the other if
   it succeeds whenever the other does, and pairs all that it builds with what the other builds. -/
namespace CombLogic

open Expr

variable {ε α α' β β' γ γ' M : Type} {base : Nat} {P Q : Set (Expr × Expr)} {next next' : Nat}

def Mirrors (base : Nat) (P : Set (Expr × Expr)) (m : Numbering (Except ε) α)
    (m' : Numbering (Except ε) α') (post : Set (Expr × Expr) → α → α' → Prop) : Prop :=
  ∀ Q, P ⊆ Q → ∀ n n', Twins base Q n n' → ∀ a' k', m' n' = .ok (a', k') →
    ∃ a k R, m n = .ok (a, k) ∧ Q ⊆ R ∧ Twins base R k k' ∧ post R a a'

/-- Both results are one node. -/
abbrev OneNode (P : Set (Expr × Expr)) (e e' : Expr) : Prop := (e, e') ∈ P

theorem oneNode_mono (P Q : Set (Expr × Expr)) (e e' : Expr) (sub : P ⊆ Q) (pair : OneNode P e e') :
    OneNode Q e e' :=
  sub pair

section Mirrors

variable {m : Numbering (Except ε) α} {m' : Numbering (Except ε) α'}
  {f : α → Numbering (Except ε) β} {f' : α' → Numbering (Except ε) β'}
  {post : Set (Expr × Expr) → α → α' → Prop} {final : Set (Expr × Expr) → β → β' → Prop}

theorem mirrors_pure {a : α} {a' : α'} (holds : ∀ Q, P ⊆ Q → post Q a a') :
    Mirrors (ε := ε) base P (pure a) (pure a') post := by
  intro Q sub n n' twins b' k' run
  cases run
  exact ⟨a, n, Q, rfl, subset_rfl, twins, holds Q sub⟩

theorem mirrors_bind (first : Mirrors base P m m' post)
    (rest : ∀ Q n n' a a', P ⊆ Q → Twins base Q n n' → post Q a a' →
      Mirrors base Q (f a) (f' a') final) : Mirrors base P (m >>= f) (m' >>= f') final := by
  intro Q sub n n' twins c' k' run
  cases before : m' n' with
  | error x => simp [bind, StateT.bind, Except.bind, before] at run
  | ok r =>
    obtain ⟨a', i'⟩ := r
    simp only [bind, StateT.bind, Except.bind, before] at run
    obtain ⟨a, i, R, done, grown, still, here⟩ := first Q sub n n' twins a' i' before
    obtain ⟨c, k, S, done', more, last, there⟩ :=
      rest R i i' a a' (sub.trans grown) still here R subset_rfl i i' still c' k' run
    exact ⟨c, k, S, by simp [bind, StateT.bind, Except.bind, done, done'], grown.trans more, last,
      there⟩

theorem mirrors_mono (run : Mirrors base P m m' post) (sub : P ⊆ Q) : Mirrors base Q m m' post :=
  fun R larger => run R (sub.trans larger)

/-- A look into the netlist, which both runs take. -/
theorem mirrors_ask (r : Except ε α) :
    Mirrors base P (liftM r : Numbering (Except ε) α) (liftM r) fun _ a a' => a = a' := by
  intro Q sub n n' twins a' k' run
  cases r with
  | error x => cases run
  | ok a =>
    cases run
    exact ⟨_, n, Q, rfl, subset_rfl, twins, rfl⟩

/-- Where the other run fails there is nothing to mirror. -/
theorem mirrors_fails (fails : ∀ n, ∃ x, m' n = .error x) : Mirrors base P m m' post := by
  intro Q sub n n' twins a' k' run
  obtain ⟨x, failed⟩ := fails n'
  cases failed.symm.trans run

theorem mirrors_reject {r : Except ε γ} {error : γ → ε} {k : γ' → Numbering (Except ε) α'} :
    Mirrors base P m ((liftM r : Numbering (Except ε) γ) >>= fun b => throw (error b) >>= k) post := by
  refine mirrors_fails fun n => ?_
  cases r with
  | error x => exact ⟨x, rfl⟩
  | ok b => exact ⟨error b, rfl⟩

theorem mirrors_node {form form' : Nat → Expr} (fresh : ∀ n, (form n).node = n)
    (fresh' : ∀ n, (form' n).node = n) (alike : ∀ n n', Alike P (form n) (form' n')) :
    Mirrors (ε := ε) base P (do return form (← Build.number)) (do return form' (← Build.number))
      OneNode := by
  intro Q sub n n' twins e' k' run
  cases run
  exact ⟨form n, n + 1, insert (form n, form' n') Q, rfl, Set.subset_insert _ _,
    twins.build (fresh n) (fresh' n') (alike_mono sub (alike n n')), Set.mem_insert _ _⟩

theorem mirrors_mapM {f : γ → Numbering (Except ε) β} {f' : γ' → Numbering (Except ε) β'}
    {post : Set (Expr × Expr) → β → β' → Prop}
    (mono : ∀ Q R b b', Q ⊆ R → post Q b b' → post R b b') {cs : List γ} {cs' : List γ'}
    (each : List.Forall₂ (fun c c' => Mirrors base P (f c) (f' c') post) cs cs') :
    Mirrors base P (cs.mapM f) (cs'.mapM f') fun Q => List.Forall₂ (post Q) := by
  induction each with
  | nil => exact mirrors_pure fun _ _ => .nil
  | cons head _ ih =>
    rw [List.mapM_cons, List.mapM_cons]
    refine mirrors_bind head fun Q _ _ b b' sub _ here => ?_
    refine mirrors_bind (mirrors_mono ih sub) fun R _ _ bs bs' sub' _ there => ?_
    exact mirrors_pure fun S sub'' =>
      .cons (mono Q S b b' (sub'.trans sub'') here) (there.imp fun b b' => mono R S b b' sub'')

/-- The node over new operands, which is the old node in both runs or in neither. -/
theorem rebuild_mirrors {e e' : Expr} {as as' : List Expr} (member : (e, e') ∈ P)
    (paired : Paired P as as') (length : as.length = e.children.length) :
    Mirrors (ε := ε) base P (e.rebuild as) (e'.rebuild as') OneNode := by
  intro Q sub n n' twins s' k' run
  have alike := twins.alike (sub member)
  have paired := paired_mono sub paired
  have children := alike_children alike
  have same := twins.sameAll_eq children paired
  unfold rebuild at run ⊢
  rw [same]
  by_cases kept : sameAll e'.children as' = true
  · rw [if_pos kept] at run ⊢
    cases run
    exact ⟨e, n, Q, rfl, subset_rfl, twins, sub member⟩
  · rw [if_neg kept] at run ⊢
    cases run
    have parent : e.children ≠ [] := by
      intro none
      rw [none, List.length_nil, List.length_eq_zero_iff] at length
      rw [none] at children same
      rw [length] at same
      exact kept (same ▸ rfl)
    have length' : as'.length = e'.children.length := by
      rw [← paired.length_eq, length, children.length_eq]
    have parent' : e'.children ≠ [] := by
      intro none
      rw [none] at children
      exact parent (List.forall₂_nil_right_iff.mp children)
    exact ⟨e.withChildren n as, n + 1, insert (e.withChildren n as, e'.withChildren n' as') Q, rfl,
      Set.subset_insert _ _, twins.build (withChildren_node parent length).1
        (withChildren_node parent' length').1 (alike_withChildren alike n n' paired parent length),
      Set.mem_insert _ _⟩

end Mirrors

/-- The same for computations that also keep a memo. What is kept stays in step. -/
def MirrorsWith (keeps : Set (Expr × Expr) → M → M → Prop) (base : Nat) (P : Set (Expr × Expr))
    (m : StateT M (Numbering (Except ε)) α) (m' : StateT M (Numbering (Except ε)) α')
    (post : Set (Expr × Expr) → α → α' → Prop) : Prop :=
  ∀ Q, P ⊆ Q → ∀ n n', Twins base Q n n' → ∀ memo memo', keeps Q memo memo' →
    ∀ a' t' k', m' memo' n' = .ok ((a', t'), k') → ∃ a t k R, m memo n = .ok ((a, t), k) ∧ Q ⊆ R ∧
      Twins base R k k' ∧ keeps R t t' ∧ post R a a'

section MirrorsWith

variable {keeps : Set (Expr × Expr) → M → M → Prop} {m : StateT M (Numbering (Except ε)) α}
  {m' : StateT M (Numbering (Except ε)) α'} {f : α → StateT M (Numbering (Except ε)) β}
  {f' : α' → StateT M (Numbering (Except ε)) β'} {post : Set (Expr × Expr) → α → α' → Prop}
  {final : Set (Expr × Expr) → β → β' → Prop}

theorem mirrorsWith_pure {a : α} {a' : α'} (holds : ∀ Q, P ⊆ Q → post Q a a') :
    MirrorsWith (ε := ε) keeps base P (pure a) (pure a') post := by
  intro Q sub n n' twins memo memo' kept b' t' k' run
  cases run
  exact ⟨a, memo, n, Q, rfl, subset_rfl, twins, kept, holds Q sub⟩

theorem mirrorsWith_bind (first : MirrorsWith keeps base P m m' post)
    (rest : ∀ Q a a', P ⊆ Q → post Q a a' → MirrorsWith keeps base Q (f a) (f' a') final) :
    MirrorsWith keeps base P (m >>= f) (m' >>= f') final := by
  intro Q sub n n' twins memo memo' kept c' t' k' run
  cases before : m' memo' n' with
  | error x => simp [bind, StateT.bind, Except.bind, before] at run
  | ok r =>
    obtain ⟨⟨a', s'⟩, i'⟩ := r
    simp only [bind, StateT.bind, Except.bind, before] at run
    obtain ⟨a, s, i, R, done, grown, still, step, here⟩ :=
      first Q sub n n' twins memo memo' kept a' s' i' before
    obtain ⟨c, t, k, S, done', more, last, end_, there⟩ :=
      rest R a a' (sub.trans grown) here R subset_rfl i i' still s s' step c' t' k' run
    exact ⟨c, t, k, S, by simp [bind, StateT.bind, Except.bind, done, done'], grown.trans more, last,
      end_, there⟩

theorem mirrorsWith_mono (run : MirrorsWith keeps base P m m' post) (sub : P ⊆ Q) :
    MirrorsWith keeps base Q m m' post :=
  fun R larger => run R (sub.trans larger)

theorem mirrorsWith_lift {m : Numbering (Except ε) α} {m' : Numbering (Except ε) α'}
    (mono : ∀ Q R memo memo', Q ⊆ R → keeps Q memo memo' → keeps R memo memo')
    (run : Mirrors base P m m' post) :
    MirrorsWith (ε := ε) keeps base P (liftM m) (liftM m') post := by
  intro Q sub n n' twins memo memo' kept a' t' k' done
  have lifted : ∀ {α : Type} (m : Numbering (Except ε) α) (memo : M) (n : Nat),
      (liftM m : StateT M (Numbering (Except ε)) α) memo n =
        (m n).map fun r => ((r.1, memo), r.2) := by
    intro α m memo n
    simp only [liftM, monadLift, MonadLift.monadLift, StateT.lift, bind, StateT.bind, Except.bind,
      pure, stateT_pure, Except.pure]
    cases m n <;> rfl
  rw [lifted] at done
  cases ran : m' n' with
  | error x =>
    rw [ran] at done
    cases done
  | ok r =>
    rw [ran] at done
    cases done
    obtain ⟨a, k, R, here, grown, still, holds⟩ := run Q sub n n' twins _ _ ran
    exact ⟨a, memo, k, R, by rw [lifted, here]; rfl, grown, still, mono Q R memo memo' grown kept,
      holds⟩

theorem mirrorsWith_fails (fails : ∀ memo n, ∃ x, m' memo n = .error x) :
    MirrorsWith keeps base P m m' post := by
  intro Q sub n n' twins memo memo' kept a' t' k' run
  obtain ⟨x, failed⟩ := fails memo' n'
  cases failed.symm.trans run

theorem mirrorsWith_remembering {lookup : M → Option α} {lookup' : M → Option α'} {store : α → M → M}
    {store' : α' → M → M}
    (known : ∀ Q n n' memo memo', P ⊆ Q → Twins base Q n n' → keeps Q memo memo' →
      (lookup memo = none ∧ lookup' memo' = none) ∨
        ∃ a a', lookup memo = some a ∧ lookup' memo' = some a' ∧ post Q a a')
    (stores : ∀ Q n n' memo memo' a a', P ⊆ Q → Twins base Q n n' → keeps Q memo memo' → post Q a a' →
      keeps Q (store a memo) (store' a' memo'))
    (found : MirrorsWith keeps base P m m' post) :
    MirrorsWith keeps base P (remembering lookup store m) (remembering lookup' store' m') post := by
  intro Q sub n n' twins memo memo' kept a' t' k' run
  rw [remembering_run] at run ⊢
  -- memos in step know an answer in both runs or in neither
  rcases known Q n n' memo memo' sub twins kept with ⟨none, none'⟩ | ⟨a, b', here, here', holds⟩
  · simp only [none, none'] at run ⊢
    obtain ⟨⟨⟨b', s'⟩, i'⟩, ran, done⟩ := map_ok run
    cases done
    obtain ⟨a, s, k, R, here, grown, still, step, holds⟩ :=
      found Q sub n n' twins memo memo' kept _ _ _ ran
    exact ⟨a, store a s, k, R, by rw [here]; rfl, grown, still,
      stores R k i' s s' a b' (sub.trans grown) still step holds, holds⟩
  · simp only [here, here'] at run ⊢
    cases run
    exact ⟨a, memo, n, Q, rfl, subset_rfl, twins, kept, holds⟩

/-- A run that starts with an empty memo and drops it in the end. -/
theorem mirrors_run {keeps : Set (Expr × Expr) → M → M → Prop}
    {m : StateT M (Numbering (Except ε)) α} {m' : StateT M (Numbering (Except ε)) α'}
    {post : Set (Expr × Expr) → α → α' → Prop} {memo : M} (none : ∀ Q, keeps Q memo memo)
    (run : MirrorsWith keeps base P m m' post) :
    Mirrors base P (Prod.fst <$> m.run memo) (Prod.fst <$> m'.run memo) post := by
  have runs : ∀ {α : Type} (m : StateT M (Numbering (Except ε)) α) n,
      (Prod.fst <$> m.run memo : Numbering (Except ε) α) n = (m memo n).map fun r => (r.1.1, r.2) := by
    intro α m n
    cases done : m memo n <;>
      simp [StateT.run, done, Functor.map, StateT.map, bind, Except.bind, pure, Except.pure,
        Except.map]
  intro Q sub n n' twins a' k' done
  rw [runs] at done ⊢
  obtain ⟨⟨⟨b', t'⟩, i'⟩, ran, same⟩ := map_ok done
  cases same
  obtain ⟨a, t, k, R, here, grown, still, -, holds⟩ :=
    run Q sub n n' twins memo memo (none Q) _ _ _ ran
  exact ⟨a, k, R, by rw [here]; rfl, grown, still, holds⟩

end MirrorsWith

/-- Memos of two runs: what one keeps for a node the other keeps for its twin. -/
structure Keyed (P : Set (Expr × Expr)) (rel : α → α' → Prop) (look : Nat → Option α)
    (look' : Nat → Option α') : Prop where
  left : ∀ key a, look key = some a → ∃ e e', (e, e') ∈ P ∧ e.node = key ∧
    ∃ a', look' e'.node = some a' ∧ rel a a'
  right : ∀ key a', look' key = some a' → ∃ e e', (e, e') ∈ P ∧ e'.node = key ∧
    ∃ a, look e.node = some a ∧ rel a a'

namespace Keyed

variable {rel rel' : α → α' → Prop} {look : Nat → Option α} {look' : Nat → Option α'}

theorem mono (keyed : Keyed P rel look look') (sub : P ⊆ Q) (weaker : ∀ a a', rel a a' → rel' a a') :
    Keyed Q rel' look look' where
  left key a found := by
    obtain ⟨e, e', member, same, a', found', related⟩ := keyed.left key a found
    exact ⟨e, e', sub member, same, a', found', weaker a a' related⟩
  right key a' found := by
    obtain ⟨e, e', member, same, a, found', related⟩ := keyed.right key a' found
    exact ⟨e, e', sub member, same, a, found', weaker a a' related⟩

theorem cases (keyed : Keyed P rel look look') (twins : Twins base P next next') {e e' : Expr}
    (member : (e, e') ∈ P) : (look e.node = none ∧ look' e'.node = none) ∨
      ∃ a a', look e.node = some a ∧ look' e'.node = some a' ∧ rel a a' := by
  cases found : look e.node with
  | some a =>
    obtain ⟨f, f', there, same, a', found', related⟩ := keyed.left _ a found
    obtain ⟨rfl, rfl⟩ := twins.left there member same
    exact .inr ⟨a, a', rfl, found', related⟩
  | none =>
    cases found' : look' e'.node with
    | none => exact .inl ⟨rfl, rfl⟩
    | some a' =>
      obtain ⟨f, f', there, same, a, known, -⟩ := keyed.right _ a' found'
      obtain ⟨rfl, rfl⟩ := twins.right there member same
      rw [found] at known
      cases known

/-- Both keep something new for a pair. -/
theorem insert (keyed : Keyed P rel look look') (twins : Twins base P next next') {e e' : Expr}
    (member : (e, e') ∈ P) {a : α} {a' : α'} (related : rel a a') :
    Keyed P rel (fun key => if e.node = key then some a else look key)
      (fun key => if e'.node = key then some a' else look' key) where
  left key b found := by
    split at found
    · cases found
      exact ⟨e, e', member, ‹_›, a', by simp, related⟩
    · rename_i other
      obtain ⟨f, f', there, rfl, b', found', known⟩ := keyed.left key b found
      refine ⟨f, f', there, rfl, b', ?_, known⟩
      rw [if_neg fun same => other (congrArg node (twins.right member there same).1), found']
  right key b' found := by
    split at found
    · cases found
      exact ⟨e, e', member, ‹_›, a, by simp, related⟩
    · rename_i other
      obtain ⟨f, f', there, rfl, b, found', known⟩ := keyed.right key b' found
      refine ⟨f, f', there, rfl, b, ?_, known⟩
      rw [if_neg fun same => other (congrArg node (twins.left member there same).2), found']

end Keyed

end CombLogic
