import CombLogic.Proofs.Twins.Executing

/- Assignments, conditions and joins in two runs. A join asks which entries are one node, and gets the
   same answer in both. -/
namespace CombLogic

open Expr Netlist

variable {rule : OverlapRule} {base next next' : Nat} {P Q : Set (Expr × Expr)} {g : Netlist}
  {settings settings' : BlockSettings} {b b' : Binding}

theorem twin_bindAll {parts parts' : List (LeafId × Expr)} (each : OneEach P parts parts')
    (twin : Binding.Twin P b b') :
    Binding.Twin P (Executing.bindAll b parts) (Executing.bindAll b' parts') := by
  induction each generalizing b b' with
  | nil => exact twin
  | @cons part part' _ _ head _ ih =>
    obtain ⟨leaf, e⟩ := part
    obtain ⟨_, e'⟩ := part'
    obtain ⟨rfl, pair⟩ := head
    exact ih (twin_insert twin leaf pair)

theorem assign_tracks (twin : Binding.Twin P b b') (target : Ref) {e e' : Expr}
     (member : (e, e') ∈ P) :
    Tracks rule base P (Executing.assign ⟨g, settings⟩ target e b)
      (Executing.assign ⟨g, settings'⟩ target e' b') Binding.Twin := by
  unfold Executing.assign
  refine tracks_bind (tracks_ask _) ?_
  rintro Q₁ _ _ expected _ sub₁ twins₁ rfl
  refine tracks_bind (tracks_build (sizeFor_mirrors twins₁ (sub₁ member) _)) ?_
  rintro Q₂ _ _ ⟨s, actual⟩ ⟨s', _⟩ sub₂ twins₂ ⟨pair, rfl⟩
  by_cases differ : actual ≠ expected
  · simp only [if_pos differ]
    exact tracks_reject
  simp only [if_neg differ]
  refine tracks_bind (tracks_build (resolveFor_mirrors twins₂
    (twin_mono (sub₁.trans sub₂) twin) pair)) fun Q₃ _ _ r r' sub₃ _ pair' => ?_
  have twin₃ := twin_mono ((sub₁.trans sub₂).trans sub₃) twin
  cases target with
  | leaf leaf => exact tracks_pure fun R sub => twin_insert (twin_mono sub twin₃) leaf (sub pair')
  | bundle id =>
    refine tracks_bind (tracks_build (distribute_mirrors pair' _)) fun Q₄ _ _ ps ps' sub₄ _ each => ?_
    exact tracks_pure fun R sub => twin_mono sub (twin_bindAll each (twin_mono sub₄ twin₃))

theorem condition_tracks (twins : Twins base P next next') (twin : Binding.Twin P b b') {e e' : Expr} (member : (e, e') ∈ P) :
    Tracks rule base P (Executing.condition ⟨g, settings⟩ e b)
      (Executing.condition ⟨g, settings'⟩ e' b') OneNode := by
  unfold Executing.condition
  refine tracks_bind (tracks_build (sizeFor_mirrors twins member _)) ?_
  rintro Q _ _ ⟨s, width⟩ ⟨s', _⟩ sub twins' ⟨pair, rfl⟩
  by_cases wide : width ≠ 1
  · simp only [if_pos wide]
    exact tracks_fails fun t => ⟨_, _, rfl⟩
  simp only [if_neg wide]
  exact tracks_build (resolveFor_mirrors twins' (twin_mono sub twin) pair)

theorem joinBranches_tracks {e e' : Expr} (condition : (e, e') ∈ P) {first first' second second' :
    Binding} (one : Binding.Twin P first first') (other : Binding.Twin P second second')
    (leaves : List LeafId) (twin : Binding.Twin P b b') :
    Tracks rule base P (Executing.joinBranches e first second leaves b)
      (Executing.joinBranches e' first' second' leaves b') Binding.Twin := by
  induction leaves generalizing P b b' with
  | nil => exact tracks_pure fun Q sub => twin_mono sub twin
  | cons leaf rest ih =>
    have later : ∀ Q, P ⊆ Q → ∀ r r', OneNode Q r r' →
        Tracks rule base Q (Executing.joinBranches e first second rest (b.insert leaf r))
          (Executing.joinBranches e' first' second' rest (b'.insert leaf r')) Binding.Twin :=
      fun Q sub r r' pair => ih (sub condition) (twin_mono sub one) (twin_mono sub other)
        (twin_insert (twin_mono sub twin) leaf pair)
    simp only [Executing.joinBranches]
    refine tracks_bind (tracks_build (get_mirrors one leaf)) fun Q₁ _ _ a a' sub₁ _ pair => ?_
    refine tracks_bind (tracks_build (get_mirrors (twin_mono sub₁ other) leaf)) ?_
    intro Q₂ _ _ f f' sub₂ twins₂ pair'
    have sub := sub₁.trans sub₂
    rw [twins₂.same_eq (sub₂ pair) pair']
    split
    · exact tracks_bind (tracks_pure fun Q sub' => sub' (sub₂ pair)) fun Q₃ _ _ r r' sub₃ _ joined =>
        later Q₃ (sub.trans sub₃) r r' joined
    · refine tracks_bind (tracks_build (mirrors_node (fun _ => rfl) (fun _ => rfl) fun n n' =>
        .mux n n' (sub condition) (sub₂ pair) pair')) ?_
      exact fun Q₃ _ _ r r' sub₃ _ joined => later Q₃ (sub.trans sub₃) r r' joined

/-- Conditions with values under them. -/
abbrev OneChoice (P : Set (Expr × Expr)) (p p' : Expr × Expr) : Prop :=
  (p.1, p'.1) ∈ P ∧ (p.2, p'.2) ∈ P

theorem zip_choices {found found' values values' : List Expr} (conditions : Paired P found found')
    (paired : Paired P values values') :
    List.Forall₂ (OneChoice P) (found.zip values) (found'.zip values') := by
  induction conditions generalizing values values' with
  | nil => exact .nil
  | cons head _ ih =>
    cases paired with
    | nil => exact .nil
    | cons head' tail' => exact .cons ⟨head, head'⟩ (ih tail')

theorem choose_mirrors {e e' : Expr} (member : (e, e') ∈ P) {entries entries' : List (Expr × Expr)}
    (paired : List.Forall₂ (OneChoice P) entries entries') :
    Mirrors base P (Executing.choose e entries) (Executing.choose e' entries') OneNode := by
  induction paired with
  | nil => exact mirrors_pure fun Q sub => sub member
  | @cons entry entry' _ _ head _ ih =>
    obtain ⟨found, value⟩ := entry
    obtain ⟨found', value'⟩ := entry'
    obtain ⟨condition, whenTrue⟩ := head
    simp only [Executing.choose]
    refine mirrors_bind ih fun Q _ _ chain chain' sub twins pair => ?_
    rw [twins.same_eq (sub whenTrue) pair]
    split
    · exact mirrors_pure fun R sub' => sub' pair
    · exact mirrors_node (fun _ => rfl) (fun _ => rfl) fun n n' =>
        .mux n n' (sub condition) (sub whenTrue) pair

theorem allSame_eq (twins : Twins base P next next') {e e' : Expr} (member : (e, e') ∈ P)
    {values values' : List Expr} (paired : Paired P values values') :
    values.all (·.same e) = values'.all (·.same e') := by
  induction paired with
  | nil => rfl
  | cons head _ ih => simp only [List.all_cons, twins.same_eq head member, ih]

theorem armGets_mirrors {arms arms' : List Binding} (each : List.Forall₂ (Binding.Twin P) arms arms')
    (leaf : LeafId) : Mirrors (ε := NetlistError) base P (arms.mapM (·.get leaf))
      (arms'.mapM (·.get leaf)) Paired :=
  mirrors_mapM oneNode_mono (each.imp fun _ _ twin => get_mirrors twin leaf)

theorem joinItems_tracks {found found' : List Expr} (conditions : Paired P found found')
    {arms arms' : List Binding} (each : List.Forall₂ (Binding.Twin P) arms arms')
    {fallback fallback' : Binding} (last : Binding.Twin P fallback fallback') (leaves : List LeafId)
    (twin : Binding.Twin P b b') :
    Tracks rule base P (Executing.joinItems found arms fallback leaves b)
      (Executing.joinItems found' arms' fallback' leaves b') Binding.Twin := by
  induction leaves generalizing P b b' with
  | nil => exact tracks_pure fun Q sub => twin_mono sub twin
  | cons leaf rest ih =>
    have later : ∀ Q, P ⊆ Q → ∀ d d', Binding.Twin Q d d' →
        Tracks rule base Q (Executing.joinItems found arms fallback rest d)
          (Executing.joinItems found' arms' fallback' rest d') Binding.Twin := fun Q sub d d' joined =>
      ih (paired_mono sub conditions) (each.imp fun _ _ arm => twin_mono sub arm) (twin_mono sub last)
        joined
    simp only [Executing.joinItems]
    refine tracks_bind (tracks_build (get_mirrors twin leaf)) fun Q₁ _ _ e e' sub₁ _ before => ?_
    refine tracks_bind (tracks_build (get_mirrors (twin_mono sub₁ last) leaf)) ?_
    intro Q₂ _ _ f f' sub₂ _ pair
    have sub := sub₁.trans sub₂
    refine tracks_bind (tracks_build (armGets_mirrors
      (each.imp fun _ _ arm => twin_mono sub arm) leaf)) ?_
    intro Q₃ _ _ values values' sub₃ twins₃ paired
    have sub := sub.trans sub₃
    rw [twins₃.same_eq (sub₃ pair) (sub₃ (sub₂ before)),
      allSame_eq twins₃ (sub₃ (sub₂ before)) paired]
    split
    · exact later Q₃ sub b b' (twin_mono sub twin)
    · refine tracks_bind (tracks_build (choose_mirrors (sub₃ pair)
        (zip_choices (paired_mono sub conditions) paired))) ?_
      intro Q₄ _ _ chain chain' sub₄ _ joined
      exact later Q₄ (sub.trans sub₄) _ _ (twin_insert (twin_mono (sub.trans sub₄) twin) leaf joined)

end CombLogic
