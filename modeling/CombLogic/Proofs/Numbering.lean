import Mathlib.Data.List.Forall2
import CombLogic.Expr.Build
import CombLogic.Proofs.Shape

/- Computations that number nodes, against plain ones that build no nodes. Such a computation starts
   from a well-shared set and leaves a larger one that holds what it built. It fails exactly where
   the plain one has no answer. -/
namespace CombLogic

open Expr

variable {ε α β γ δ M : Type} {K : Set Expr} {next : Nat}

def Builds (K : Set Expr) (m : Numbering (Except ε) α) (p : Option β)
    (post : Set Expr → α → β → Prop) : Prop :=
  ∀ L, K ⊆ L → ∀ n, Sharing L n → match p with
    | none => ∃ x, m n = .error x
    | some b => ∃ a n' L', m n = .ok (a, n') ∧ L ⊆ L' ∧ Sharing L' n' ∧ post L' a b

/-- The number that comes next is no node's. -/
theorem Sharing.fresh (sharing : Sharing K next) {e : Expr} (number : e.node = next) : e ∉ K := by
  intro member
  exact (sharing.numbered e member).ne number

/-- A new node over nodes that are there. -/
theorem builds_node {form : Nat → Expr} (fresh : ∀ n, (form n).node = n)
    (operands : ∀ n, ∀ a ∈ (form n).children, a ∈ K) :
    Builds (ε := ε) K (do return form (← Build.number)) (some ())
      (fun L s _ => s ∈ L ∧ s ∉ K ∧ ∃ n, s = form n) := by
  intro L sub n sharing
  exact ⟨form n, n + 1, insert (form n) L, rfl, Set.subset_insert _ _,
    sharing.build (fresh n) fun a operand => sub (operands n a operand), Set.mem_insert _ _,
    fun member => sharing.fresh (fresh n) (sub member), n, rfl⟩

namespace Expr

theorem withChildren_children (e : Expr) (n : Nat) :
    (e.withChildren n e.children).shape = e.shape := by
  cases e <;> simp [withChildren, children, shape]

theorem withChildren_node {e : Expr} {n : Nat} {as : List Expr} (parent : e.children ≠ [])
    (length : as.length = e.children.length) :
    (e.withChildren n as).node = n ∧ (e.withChildren n as).children = as := by
  cases e with
  | signal | literal | integer | read | unassigned => simp [children] at parent
  | concat => exact ⟨rfl, rfl⟩
  | unary | slice | extend =>
    obtain ⟨a, rfl⟩ := List.length_eq_one_iff.mp length
    exact ⟨rfl, rfl⟩
  | binary | caseMatch =>
    obtain ⟨a, b, rfl⟩ := List.length_eq_two.mp length
    exact ⟨rfl, rfl⟩
  | mux =>
    obtain ⟨a, b, c, rfl⟩ := List.length_eq_three.mp length
    exact ⟨rfl, rfl⟩

theorem sameAll_self (as : List Expr) : sameAll as as = true := by
  induction as with
  | nil => rfl
  | cons a as ih => simp [sameAll, same, ih]

end Expr

/-- The node over new operands is the old node if they are the old ones, and else a new node. -/
theorem rebuild_builds {e : Expr} {as : List Expr} (member : e ∈ K) (operands : ∀ a ∈ as, a ∈ K)
    (length : as.length = e.children.length) :
    Builds (ε := ε) K (e.rebuild as) (some ()) fun L s _ => s ∈ L ∧
      (as = e.children ∧ s = e ∨ as ≠ e.children ∧ s ∉ K ∧ ∃ n, s = e.withChildren n as) := by
  intro L sub n sharing
  by_cases same : sameAll e.children as = true
  · have old := sharing.same_operands (sharing.operands e (sub member))
      (fun a operand => sub (operands a operand)) same
    exact ⟨e, n, L, by simp [rebuild, same, pure, stateT_pure, Except.pure], subset_rfl, sharing,
      sub member, .inl ⟨old.symm, rfl⟩⟩
  · have parent : e.children ≠ [] := by
      intro none
      rw [none, List.length_nil, List.length_eq_zero_iff] at length
      simp [none, length, sameAll] at same
    obtain ⟨fresh, below⟩ := withChildren_node (n := n) parent length
    have other : as ≠ e.children := fun old => same (old ▸ sameAll_self e.children)
    refine ⟨e.withChildren n as, n + 1, insert (e.withChildren n as) L, ?_, Set.subset_insert _ _,
      sharing.build fresh fun a operand => sub (operands a (below ▸ operand)), Set.mem_insert _ _,
      .inr ⟨other, fun member => sharing.fresh fresh (sub member), n, rfl⟩⟩
    simp [rebuild, same, Build.number, bind, StateT.bind, Except.bind, pure, stateT_pure,
      Except.pure]

/-- Either way it has the shape of the node over the new operands. -/
theorem rebuilt_shape {e s : Expr} {as : List Expr} (length : as.length = e.children.length)
    (built : as = e.children ∧ s = e ∨ as ≠ e.children ∧ s ∉ K ∧ ∃ n, s = e.withChildren n as) :
    s.shape = (e.withChildren 0 as).shape := by
  rcases built with ⟨rfl, rfl⟩ | ⟨-, -, n, rfl⟩
  · exact (withChildren_children s 0).symm
  · rw [shape_withChildren e n as length, shape_withChildren e 0 as length]

/-- The same for computations that also keep a memo, which stays right in the larger set. -/
def BuildsWith (right : Set Expr → M → Prop) (K : Set Expr)
    (m : StateT M (Numbering (Except ε)) α) (p : Option β) (post : Set Expr → α → β → Prop) : Prop :=
  ∀ L, K ⊆ L → ∀ memo n, right L memo → Sharing L n → match p with
    | none => ∃ x, m memo n = .error x
    | some b => ∃ a memo' n' L', m memo n = .ok ((a, memo'), n') ∧ L ⊆ L' ∧ Sharing L' n' ∧
        right L' memo' ∧ post L' a b

section BuildsWith

variable {right : Set Expr → M → Prop} {m : StateT M (Numbering (Except ε)) α} {p : Option β}
  {f : α → StateT M (Numbering (Except ε)) γ} {q : β → Option δ}
  {post : Set Expr → α → β → Prop} {final : Set Expr → γ → δ → Prop}

theorem buildsWith_pure {a : α} {b : β} (holds : ∀ L, K ⊆ L → post L a b) :
    BuildsWith (ε := ε) right K (pure a) (some b) post :=
  fun L sub memo n here sharing => ⟨a, memo, n, L, rfl, subset_rfl, sharing, here, holds L sub⟩

theorem buildsWith_bind (first : BuildsWith right K m p post)
    (rest : ∀ L a b, K ⊆ L → post L a b → BuildsWith right L (f a) (q b) final) :
    BuildsWith right K (m >>= f) (p >>= q) final := by
  intro L sub memo n here sharing
  have run := first L sub memo n here sharing
  cases p with
  | none =>
    obtain ⟨x, run⟩ := run
    exact ⟨x, by simp [bind, StateT.bind, Except.bind, run]⟩
  | some b =>
    obtain ⟨a, memo', n', L', run, grown, shared, kept, holds⟩ := run
    have then_ := rest L' a b (sub.trans grown) holds L' subset_rfl memo' n' kept shared
    cases plain : q b with
    | none =>
      rw [plain] at then_
      obtain ⟨x, then_⟩ := then_
      simp only [bind, Option.bind, plain]
      exact ⟨x, by simp [StateT.bind, Except.bind, bind, run, then_]⟩
    | some d =>
      rw [plain] at then_
      obtain ⟨c, memo'', n'', L'', then_, more, still, there, done⟩ := then_
      simp only [bind, Option.bind, plain]
      exact ⟨c, memo'', n'', L'', by simp [StateT.bind, Except.bind, bind, run, then_],
        grown.trans more, still, there, done⟩

theorem buildsWith_mono {K' : Set Expr} (run : BuildsWith right K m p post) (sub : K ⊆ K') :
    BuildsWith right K' m p post :=
  fun L larger memo n here sharing => run L (sub.trans larger) memo n here sharing

theorem buildsWith_lift {m : Numbering (Except ε) α}
    (mono : ∀ L L' memo, L ⊆ L' → right L memo → right L' memo) (run : Builds K m p post) :
    BuildsWith (ε := ε) right K (liftM m) p post := by
  intro L sub memo n here sharing
  have done := run L sub n sharing
  cases p with
  | none =>
    obtain ⟨x, done⟩ := done
    exact ⟨x, by simp [liftM, monadLift, MonadLift.monadLift, StateT.lift, bind, StateT.bind,
      Except.bind, done]⟩
  | some b =>
    obtain ⟨a, n', L', done, grown, shared, holds⟩ := done
    exact ⟨a, memo, n', L', by simp [liftM, monadLift, MonadLift.monadLift, StateT.lift, bind,
      StateT.bind, Except.bind, pure, stateT_pure, Except.pure, done], grown, shared,
      mono L L' memo grown here, holds⟩

theorem buildsWith_fail {m : StateT M (Numbering (Except ε)) α}
    (fails : ∀ memo n, ∃ x, m memo n = .error x) : BuildsWith right K m (none : Option β) post :=
  fun _ _ memo n _ _ => fails memo n

/-- A computation whose answer is kept, and looked up from then on. -/
def remembering (lookup : M → Option α) (store : α → M → M)
    (find : StateT M (Numbering (Except ε)) α) : StateT M (Numbering (Except ε)) α := do
  match lookup (← get) with
  | some known => return known
  | none =>
    let found ← find
    modify (store found)
    return found

theorem remembering_run (lookup : M → Option α) (store : α → M → M)
    (find : StateT M (Numbering (Except ε)) α) (memo : M) (n : Nat) :
    remembering lookup store find memo n = match lookup memo with
      | some a => .ok ((a, memo), n)
      | none => (find memo n).map fun r => ((r.1.1, store r.1.1 r.1.2), r.2) := by
  cases known : lookup memo with
  | some a => simp [remembering, known, bind, StateT.bind, Except.bind, get, getThe,
      MonadStateOf.get, StateT.get, pure, stateT_pure, Except.pure]
  | none =>
    cases found : find memo n <;>
      simp [remembering, known, found, bind, StateT.bind, Except.bind, get, getThe,
        MonadStateOf.get, StateT.get, pure, stateT_pure, Except.pure, modify, modifyGet,
        MonadStateOf.modifyGet, StateT.modifyGet, Except.map]

theorem buildsWith_remembering {lookup : M → Option α} {store : α → M → M}
    (known : ∀ L memo n a, K ⊆ L → Sharing L n → right L memo → lookup memo = some a →
      ∃ b, p = some b ∧ post L a b)
    (stores : ∀ L memo a b, K ⊆ L → p = some b → right L memo → post L a b → right L (store a memo))
    (found : BuildsWith right K m p post) : BuildsWith right K (remembering lookup store m) p post := by
  intro L sub memo n here sharing
  rw [remembering_run]
  cases kept : lookup memo with
  | some a =>
    obtain ⟨b, rfl, holds⟩ := known L memo n a sub sharing here kept
    exact ⟨a, memo, n, L, rfl, subset_rfl, sharing, here, holds⟩
  | none =>
    have run := found L sub memo n here sharing
    cases p with
    | none =>
      obtain ⟨x, run⟩ := run
      exact ⟨x, by simp only [run]; rfl⟩
    | some b =>
      obtain ⟨a, memo', n', L', run, grown, shared, still, holds⟩ := run
      exact ⟨a, store a memo', n', L', by simp only [run]; rfl, grown, shared,
        stores L' memo' a b (sub.trans grown) rfl still holds, holds⟩

end BuildsWith

/-- Where only success counts: whatever a successful run builds lies in a larger well-shared set. -/
def Makes (K : Set Expr) (m : Numbering (Except ε) α) (post : Set Expr → α → Prop) : Prop :=
  ∀ L, K ⊆ L → ∀ n a n', Sharing L n → m n = .ok (a, n') →
    ∃ L', L ⊆ L' ∧ Sharing L' n' ∧ post L' a

section Makes

variable {m : Numbering (Except ε) α} {f : α → Numbering (Except ε) γ}
  {post : Set Expr → α → Prop} {final : Set Expr → γ → Prop}

theorem makes_pure {a : α} (holds : ∀ L, K ⊆ L → post L a) :
    Makes (ε := ε) K (pure a) post := by
  intro L sub n b n' sharing run
  cases run
  exact ⟨L, subset_rfl, sharing, holds L sub⟩

theorem makes_step (first : Makes K m post)
    (rest : ∀ L next a, K ⊆ L → Sharing L next → post L a → Makes L (f a) final) :
    Makes K (m >>= f) final := by
  intro L sub n c n'' sharing run
  cases before : m n with
  | error x => simp [bind, StateT.bind, Except.bind, before] at run
  | ok r =>
    obtain ⟨a, n'⟩ := r
    simp only [bind, StateT.bind, Except.bind, before] at run
    obtain ⟨L', grown, shared, here⟩ := first L sub n a n' sharing before
    obtain ⟨L'', more, still, there⟩ :=
      rest L' n' a (sub.trans grown) shared here L' subset_rfl n' c n'' shared run
    exact ⟨L'', grown.trans more, still, there⟩

theorem makes_bind (first : Makes K m post) (rest : ∀ L a, K ⊆ L → post L a → Makes L (f a) final) :
    Makes K (m >>= f) final :=
  makes_step first fun L _ a sub _ here => rest L a sub here

theorem makes_map {f : α → γ} (run : Makes K m fun L a => final L (f a)) :
    Makes K (m >>= fun a => pure (f a)) final := by
  intro L sub n c n' sharing done
  cases before : m n with
  | error x => simp [bind, StateT.bind, Except.bind, before] at done
  | ok r =>
    simp [bind, StateT.bind, Except.bind, before, pure, stateT_pure, Except.pure] at done
    obtain ⟨rfl, rfl⟩ := done
    exact run L sub n r.1 r.2 sharing before

theorem makes_mono {K' : Set Expr} (run : Makes K m post) (sub : K ⊆ K') : Makes K' m post :=
  fun L larger => run L (sub.trans larger)

theorem makes_weaken {later : Set Expr → α → Prop} (run : Makes K m post)
    (weaker : ∀ L a, K ⊆ L → post L a → later L a) : Makes K m later := by
  intro L sub n a n' sharing done
  obtain ⟨L', grown, shared, here⟩ := run L sub n a n' sharing done
  exact ⟨L', grown, shared, weaker L' a (sub.trans grown) here⟩

theorem makes_ask {r : Except ε α} (holds : ∀ a, r = .ok a → ∀ L, K ⊆ L → post L a) :
    Makes K (liftM r : Numbering (Except ε) α) post := by
  intro L sub n a n' sharing run
  cases r with
  | error x => cases run
  | ok b =>
    cases run
    exact ⟨L, subset_rfl, sharing, holds _ rfl L sub⟩

theorem makes_throw {m : Numbering (Except ε) α} (fails : ∀ n, ∃ x, m n = .error x) :
    Makes K m post := by
  intro L sub n a n' sharing run
  obtain ⟨x, failed⟩ := fails n
  rw [failed] at run
  cases run

/-- A call that looks something up for its error. -/
theorem makes_reject {r : Except ε β} {error : β → ε} {k : δ → Numbering (Except ε) α} :
    Makes K ((liftM r : Numbering (Except ε) β) >>= fun b => throw (error b) >>= k) post := by
  refine makes_throw fun n => ?_
  cases r with
  | error x => exact ⟨x, rfl⟩
  | ok b => exact ⟨error b, rfl⟩

theorem makes_of_builds {p : Option β} {post : Set Expr → α → β → Prop} (run : Builds K m p post) :
    Makes K m fun L a => ∃ b, p = some b ∧ post L a b := by
  intro L sub n a n' sharing done
  have here := run L sub n sharing
  cases p with
  | none =>
    obtain ⟨x, failed⟩ := here
    rw [failed] at done
    cases done
  | some b =>
    obtain ⟨a', m', L', run, grown, shared, holds⟩ := here
    rw [run] at done
    cases done
    exact ⟨L', grown, shared, b, rfl, holds⟩

/-- A new node is none of the nodes that are there. -/
theorem makes_new {form : Nat → Expr} (fresh : ∀ n, (form n).node = n)
    (operands : ∀ n, ∀ a ∈ (form n).children, a ∈ K) :
    Makes (ε := ε) K (do return form (← Build.number)) fun L s =>
      s ∈ L ∧ s ∉ K ∧ ∃ n, s = form n := by
  refine makes_weaken (makes_of_builds (builds_node fresh operands)) ?_
  rintro L s - ⟨-, -, holds⟩
  exact holds

theorem makes_node {form : Nat → Expr} (fresh : ∀ n, (form n).node = n)
    (operands : ∀ n, ∀ a ∈ (form n).children, a ∈ K) :
    Makes (ε := ε) K (do return form (← Build.number)) fun L s => s ∈ L ∧ ∃ n, s = form n :=
  makes_weaken (makes_new fresh operands) fun _ _ _ built => ⟨built.1, built.2.2⟩

theorem makes_mapM {f : β → Numbering (Except ε) γ} {post : Set Expr → β → γ → Prop}
    (mono : ∀ L L' b c, L ⊆ L' → post L b c → post L' b c) (bs : List β)
    (each : ∀ b ∈ bs, Makes K (f b) fun L c => post L b c) :
    Makes K (bs.mapM f) fun L cs => List.Forall₂ (post L) bs cs := by
  induction bs with
  | nil => exact makes_pure fun L _ => .nil
  | cons b rest ih =>
    rw [List.mapM_cons]
    refine makes_bind (each b (by simp)) fun L c sub here => ?_
    refine makes_bind (makes_mono (ih fun b' later => each b' (by simp [later])) sub) ?_
    intro L' cs sub' there
    exact makes_pure fun L'' sub'' =>
      .cons (mono L L'' b c (sub'.trans sub'') here) (there.imp fun b c => mono L' L'' b c sub'')

/-- A loop that only looks. -/
theorem makes_loop {f : β → Numbering (Except ε) PUnit} {holds : β → Prop} (bs : List β)
    (each : ∀ b ∈ bs, Makes K (f b) fun _ _ => holds b) :
    Makes K (forIn bs PUnit.unit fun b _ => do f b; pure (ForInStep.yield PUnit.unit))
      fun _ _ => ∀ b ∈ bs, holds b := by
  induction bs with
  | nil => exact makes_pure fun L _ => by simp
  | cons b rest ih =>
    rw [List.forIn_cons]
    refine makes_bind (?_ : Makes K _ fun _ step => step = .yield PUnit.unit ∧ holds b) ?_
    · exact makes_bind (each b (by simp)) fun L _ sub here => makes_pure fun _ _ => ⟨rfl, here⟩
    · rintro L _ sub ⟨rfl, here⟩
      refine makes_weaken (makes_mono (ih fun b' later => each b' (by simp [later])) sub) ?_
      intro L' _ _ there
      simpa using ⟨here, there⟩

end Makes

end CombLogic
