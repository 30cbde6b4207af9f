import CombLogic.Proofs.Block.Resolve
import CombLogic.Proofs.Twins.Sizing

/- Resolution in two runs, over bindings that hold twins for the same leaves. -/
namespace CombLogic

open Expr Resolving Std

variable {ε : Type} {base next next' : Nat} {P Q : Set (Expr × Expr)} {g : Netlist} {b b' : Binding}

/-- Two bindings of the same leaves to twins. -/
structure Binding.Twin (P : Set (Expr × Expr)) (b b' : Binding) : Prop where
  keys : b.keys = b'.keys
  entry : ∀ leaf e e', b.get? leaf = some e → b'.get? leaf = some e' → (e, e') ∈ P

theorem twin_mono (sub : P ⊆ Q) (twin : Binding.Twin P b b') : Binding.Twin Q b b' :=
  ⟨twin.keys, fun leaf e e' found found' => sub (twin.entry leaf e e' found found')⟩

theorem twin_cases (twin : Binding.Twin P b b') (leaf : LeafId) :
    (b.get? leaf = none ∧ b'.get? leaf = none) ∨
      ∃ e e', b.get? leaf = some e ∧ b'.get? leaf = some e' ∧ (e, e') ∈ P := by
  have both : (b.get? leaf).isSome = (b'.get? leaf).isSome := by
    rw [Bool.eq_iff_iff, OrderedMap.get?_isSome, OrderedMap.get?_isSome, twin.keys]
  cases found : b.get? leaf <;> cases found' : b'.get? leaf <;> simp_all
  exact twin.entry leaf _ _ found found'

theorem twin_insert (twin : Binding.Twin P b b') (leaf : LeafId) {e e' : Expr} (pair : (e, e') ∈ P) :
    Binding.Twin P (b.insert leaf e) (b'.insert leaf e') where
  keys := by rw [OrderedMap.keys_insert, OrderedMap.keys_insert, twin.keys]
  entry other f f' found found' := by
    rw [OrderedMap.get?_insert] at found found'
    by_cases same : leaf = other
    · rw [if_pos same] at found found'
      cases found
      cases found'
      exact pair
    · rw [if_neg same] at found found'
      exact twin.entry other f f' found found'

theorem get_mirrors (twin : Binding.Twin P b b') (leaf : LeafId) :
    Mirrors (ε := ε) base P (b.get leaf) (b'.get leaf) OneNode := by
  unfold Binding.get
  rcases twin_cases twin leaf with ⟨none, none'⟩ | ⟨e, e', found, found', pair⟩
  · rw [none, none']
    exact mirrors_node (fun _ => rfl) (fun _ => rfl) fun n n' => .signal n n' leaf
  · rw [found, found']
    exact mirrors_pure fun Q sub => sub pair

theorem gets_mirrors (twin : Binding.Twin P b b') (leaves : List LeafId) :
    Mirrors (ε := ε) base P (leaves.mapM b.get) (leaves.mapM b'.get) Paired :=
  mirrors_mapM oneNode_mono (List.forall₂_same.mpr fun leaf _ => get_mirrors twin leaf)

theorem readBinding_mirrors (twin : Binding.Twin P b b') (target : Ref) :
    Mirrors base P (g.readBinding b target) (g.readBinding b' target) OneNode := by
  cases target with
  | leaf leaf => exact get_mirrors twin leaf
  | bundle id =>
    refine mirrors_bind (mirrors_ask _) ?_
    rintro Q _ _ leaves _ sub _ rfl
    refine mirrors_bind (gets_mirrors (twin_mono sub twin) leaves) fun R _ _ es es' _ _ all => ?_
    exact mirrors_node (fun _ => rfl) (fun _ => rfl) fun n n' => .concat n n' (List.rel_reverse all)

/-- Memos that are in step. -/
abbrev ResolveTwins (P : Set (Expr × Expr)) (memo memo' : ResolveMemo) : Prop :=
  Keyed P (OneNode P) (fun key => memo[key]?) (fun key => memo'[key]?)

theorem resolveTwins_mono {memo memo' : ResolveMemo} (sub : P ⊆ Q)
    (kept : ResolveTwins P memo memo') : ResolveTwins Q memo memo' :=
  kept.mono sub fun _ _ pair => sub pair

theorem resolveTwins_empty : ResolveTwins P {} {} := by
  refine ⟨?_, ?_⟩ <;> simp

abbrev ResolvesSame (base : Nat) (P : Set (Expr × Expr)) (m m' : Resolving Expr) : Prop :=
  MirrorsWith ResolveTwins base P m m' OneNode

theorem remember_mirrors {e e' : Expr} (member : (e, e') ∈ P) {find find' : Resolving Expr}
    (found : ResolvesSame base P find find') :
    ResolvesSame base P (Resolving.remember e.node find) (Resolving.remember e'.node find') := by
  rw [remember_eq, remember_eq]
  refine mirrorsWith_remembering ?_ ?_ found
  · exact fun Q n n' memo memo' sub twins kept => kept.cases twins (sub member)
  · intro Q n n' memo memo' s s' sub twins kept pair
    simp only [ResolveTwins, TreeMap.getElem?_insert, LawfulEqCmp.compare_eq_iff_eq]
    exact kept.insert twins (sub member) pair

theorem resolveAll_mirrors {es es' : List Expr}
    (each : List.Forall₂ (fun a a' => ResolvesSame base P (a.resolve g b) (a'.resolve g b')) es es') :
    MirrorsWith ResolveTwins base P (resolveAll g b es) (resolveAll g b' es') fun Q ss ss' =>
      Paired Q ss ss' ∧ ss.length = es.length := by
  induction each with
  | nil => exact mirrorsWith_pure fun _ _ => ⟨.nil, rfl⟩
  | cons head _ ih =>
    simp only [resolveAll]
    refine mirrorsWith_bind head fun Q s s' sub pair => ?_
    refine mirrorsWith_bind (mirrorsWith_mono ih sub) ?_
    rintro R ss ss' sub' ⟨all, length⟩
    exact mirrorsWith_pure fun S sub'' =>
      ⟨.cons (sub'' (sub' pair)) (paired_mono sub'' all), congrArg (· + 1) length⟩

theorem kept_mirrors {e e' : Expr} {as as' : List Expr} (member : (e, e') ∈ P)
    (paired : Paired P as as') (length : as.length = e.children.length) :
    ResolvesSame base P (Resolving.keep e as) (Resolving.keep e' as') :=
  mirrorsWith_lift (fun _ _ _ _ => resolveTwins_mono) (rebuild_mirrors member paired length)

theorem alike_stays {e e' : Expr} (alike : Alike P e e') : e'.stays = e.stays := by
  cases alike <;> rfl

theorem alike_unread {e e' : Expr} (alike : Alike P e e')
    (unread : ∀ node target, e ≠ .read node target) (node : Nat) (target : Ref) :
    e' ≠ .read node target := by
  rintro rfl
  cases alike
  exact unread _ _ rfl

theorem resolve_mirrors (twins : Twins base P next next') (twin : Binding.Twin P b b') (e : Expr) :
    ∀ e', (e, e') ∈ P → ResolvesSame base P (e.resolve g b) (e'.resolve g b') := by
  induction e using operand_induction with
  | step e ih =>
    intro e' member
    have alike := twins.alike member
    cases stays : e.stays with
    | true =>
      rw [resolve_stays stays, resolve_stays ((alike_stays alike).trans stays)]
      exact mirrorsWith_pure fun Q sub => sub member
    | false =>
      by_cases unread : ∀ node target, e ≠ .read node target
      · rw [resolve_parent stays unread, resolve_parent ((alike_stays alike).trans stays)
          (alike_unread alike unread)]
        refine remember_mirrors member (mirrorsWith_bind
          (resolveAll_mirrors (paired_each (alike_children alike) ih)) ?_)
        rintro Q ss ss' sub ⟨all, length⟩
        exact kept_mirrors (sub member) all length
      · push Not at unread
        obtain ⟨node, target, rfl⟩ := unread
        cases alike with
        | read n n' target =>
          exact remember_mirrors member (mirrorsWith_lift (fun _ _ _ _ => resolveTwins_mono)
            (readBinding_mirrors twin target))

theorem resolveLists_mirrors (twins : Twins base P next next') (twin : Binding.Twin P b b')
    {lists lists' : List (List Expr)} (paired : List.Forall₂ (Paired P) lists lists') :
    MirrorsWith ResolveTwins base P (Expr.resolveLists g b lists) (Expr.resolveLists g b' lists')
      fun Q => List.Forall₂ (Paired Q) := by
  induction paired with
  | nil => exact mirrorsWith_pure fun _ _ => .nil
  | cons head _ ih =>
    simp only [Expr.resolveLists]
    refine mirrorsWith_bind (resolveAll_mirrors (paired_each head fun a _ a' =>
      resolve_mirrors twins twin a a')) ?_
    rintro Q es es' sub ⟨all, -⟩
    refine mirrorsWith_bind (mirrorsWith_mono ih sub) fun R rest rest' sub' others => ?_
    exact mirrorsWith_pure fun S sub'' =>
      .cons (paired_mono (sub'.trans sub'') all) (others.imp fun _ _ => paired_mono sub'')

namespace Netlist

theorem resolveFor_mirrors (twins : Twins base P next next') (twin : Binding.Twin P b b')
    {e e' : Expr} (member : (e, e') ∈ P) :
    Mirrors base P (g.resolve b e) (g.resolve b' e') OneNode :=
  mirrors_run (fun _ => resolveTwins_empty) (resolve_mirrors twins twin e e' member)

theorem resolveAllFor_mirrors (twins : Twins base P next next') (twin : Binding.Twin P b b')
    {lists lists' : List (List Expr)} (paired : List.Forall₂ (Paired P) lists lists') :
    Mirrors base P (g.resolveLists b lists) (g.resolveLists b' lists') fun Q =>
      List.Forall₂ (Paired Q) :=
  mirrors_run (fun _ => resolveTwins_empty) (resolveLists_mirrors twins twin paired)

/-- Drivers of the same leaves that are twins. -/
abbrev OneEach (P : Set (Expr × Expr)) : List (LeafId × Expr) → List (LeafId × Expr) → Prop :=
  List.Forall₂ fun d d' => d.1 = d'.1 ∧ (d.2, d'.2) ∈ P

theorem slices_mirrors {e e' : Expr} (member : (e, e') ∈ P) (leaves : List (LeafId × Nat))
    (low : Nat) : Mirrors base P (slices e low leaves) (slices e' low leaves) OneEach := by
  induction leaves generalizing low P with
  | nil => exact mirrors_pure fun _ _ => .nil
  | cons leaf rest ih =>
    obtain ⟨id, width⟩ := leaf
    have later : ∀ Q, P ⊆ Q → ∀ s s', OneNode Q s s' →
        Mirrors base Q (do return (id, s) :: (← slices e (low + width) rest))
          (do return (id, s') :: (← slices e' (low + width) rest)) OneEach := by
      intro Q sub s s' pair
      refine mirrors_bind (ih (sub member) _) fun R _ _ parts parts' sub' _ all => ?_
      exact mirrors_pure fun S sub'' => .cons ⟨rfl, sub'' (sub' pair)⟩
        (all.imp fun _ _ one => ⟨one.1, sub'' one.2⟩)
    simp only [slices]
    split
    · exact mirrors_bind (mirrors_node (fun _ => rfl) (fun _ => rfl) fun n n' => .literal n n' _)
        fun Q _ _ s s' sub _ pair => later Q sub s s' pair
    · exact mirrors_bind (mirrors_node (fun _ => rfl) (fun _ => rfl) fun n n' => .slice n n' member _ _)
        fun Q _ _ s s' sub _ pair => later Q sub s s' pair

theorem distribute_mirrors {e e' : Expr} (member : (e, e') ∈ P) (target : Ref) :
    Mirrors base P (g.distribute target e) (g.distribute target e') OneEach := by
  refine mirrors_bind (mirrors_ask _) ?_
  rintro Q _ _ leaves _ sub _ rfl
  exact slices_mirrors (sub member) leaves 0

theorem sizedDriver_mirrors (twins : Twins base P next next') {e e' : Expr} (member : (e, e') ∈ P)
    (target : Ref) : Mirrors base P (g.sizedDriver target e) (g.sizedDriver target e') OneNode := by
  have missed : e.firstPlaceholder? = e'.firstPlaceholder? :=
    twins.find_eq (fun alike => by cases alike <;> rfl) member
  unfold sizedDriver
  rw [missed]
  cases e'.firstPlaceholder? with
  | some placeholder => exact mirrors_reject
  | none =>
    refine mirrors_bind (mirrors_ask _) ?_
    rintro Q _ _ expected _ sub twins' rfl
    refine mirrors_bind (sizeFor_mirrors twins' (sub member) _) ?_
    rintro R _ _ ⟨s, actual⟩ ⟨s', _⟩ sub' _ ⟨pair, rfl⟩
    by_cases differ : actual ≠ expected
    · simp only [if_pos differ]
      exact mirrors_reject
    · simp only [if_neg differ]
      exact mirrors_pure fun S sub'' => sub'' pair

theorem conflictCheck_mirrors (twins : Twins base P next next') {e e' : Expr} (member : (e, e') ∈ P)
    (selector : String) : Mirrors base P (g.conflictCheck selector e) (g.conflictCheck selector e')
      fun Q check check' => (check.conflict, check'.conflict) ∈ Q := by
  have missed : e.firstPlaceholder? = e'.firstPlaceholder? :=
    twins.find_eq (fun alike => by cases alike <;> rfl) member
  unfold conflictCheck
  rw [missed]
  cases e'.firstPlaceholder? with
  | some placeholder => exact mirrors_reject
  | none =>
    refine mirrors_bind (sizeFor_mirrors twins member _) ?_
    rintro Q _ _ ⟨s, width⟩ ⟨s', _⟩ sub _ ⟨pair, rfl⟩
    by_cases differ : width ≠ 1
    · simp only [if_pos differ]
      exact mirrors_fails fun n => ⟨_, rfl⟩
    · simp only [if_neg differ]
      exact mirrors_pure fun R sub' => sub' pair

end Netlist

end CombLogic
