import CombLogic.Proofs.Twins.Choice

/- The items of a case in two runs. A rule decides only what is reported, what is watched and whether an
   overlap is rejected. -/
namespace CombLogic

/-- A higher rank rejects and watches at least as much. -/
def OverlapRule.rank : OverlapRule → Nat
  | allow => 0
  | warn => 1
  | deny => 2

/-- A case that under its rule is rejected and watched no more than another one under another rule. -/
structure CaseKind.Eases (rule rule' : OverlapRule) (kind kind' : CaseKind) : Prop where
  wildcard : kind.wildcard = kind'.wildcard
  eased : rule = .allow ∨ kind.unique = kind'.unique ∧ rule.rank ≤ rule'.rank

namespace Coverage

/-- Only overlapping items of a unique case are rejected, and only where that is denied. -/
theorem check_passes (settings : BlockSettings) (shape : Shape) :
    (∃ warnings, check settings shape = .ok warnings) ↔
      (shape.kind.unique = true → settings.overlapRule = .deny → overlaps shape = []) := by
  unfold check
  cases shape.kind.unique with
  | false => cases settings.reportUnreachable <;> simp
  | true => cases settings.overlapRule <;> cases overlaps shape <;> simp

theorem check_eases {settings settings' : BlockSettings} {kind kind' : CaseKind} {name : String}
    {items : List (List (Option Value))}
    (eases : kind.Eases settings.overlapRule settings'.overlapRule kind')
    (passes : ∃ warnings, check settings' ⟨name, kind', items⟩ = .ok warnings) :
    ∃ warnings, check settings ⟨name, kind, items⟩ = .ok warnings := by
  rw [check_passes] at passes ⊢
  intro unique denied
  obtain ⟨wildcard, eased⟩ := eases
  rcases eased with allowed | ⟨same, rank⟩
  · rw [denied] at allowed
    cases allowed
  · have denied' : settings'.overlapRule = .deny := by
      rw [denied] at rank
      cases rule : settings'.overlapRule with
      | deny => rfl
      | allow | warn => simp [rule, OverlapRule.rank] at rank
    have none := passes (same ▸ unique) denied'
    rwa [overlaps, ← wildcard] at none

end Coverage

open Expr Netlist

variable {rule : OverlapRule} {base next next' : Nat} {P Q : Set (Expr × Expr)} {g : Netlist}
  {settings settings' : BlockSettings}
  {b b' : Binding} {kind kind' : CaseKind}

/-- A sized match in two runs. -/
abbrev OneMatch (P : Set (Expr × Expr)) (r r' : Expr × Option Value) : Prop :=
  (r.1, r'.1) ∈ P ∧ r.2 = r'.2

theorem literal_alike {e e' : Expr} (alike : Alike P e e') : e.literal? = e'.literal? := by
  cases alike <;> rfl

theorem sizeMatch_tracks (wildcard : Bool) {s s' p p' : Expr} (subject : (s, s') ∈ P)
    (pattern : (p, p') ∈ P) :
    Tracks rule base P (Executing.sizeMatch ⟨g, settings⟩ wildcard s p)
      (Executing.sizeMatch ⟨g, settings'⟩ wildcard s' p') OneMatch := by
  unfold Executing.sizeMatch
  refine tracks_build (mirrors_bind (mirrors_node (fun _ => rfl) (fun _ => rfl) fun n n' =>
    .caseMatch n n' subject pattern wildcard) fun Q₁ _ _ e e' _ twins₁ built => ?_)
  refine mirrors_bind (sizeFor_mirrors twins₁ built none) ?_
  rintro Q₂ _ _ ⟨t, width⟩ ⟨t', _⟩ _ twins₂ ⟨pair, rfl⟩
  have alike := twins₂.alike pair
  cases alike with
  | caseMatch _ _ _ given =>
    exact mirrors_pure fun R sub => ⟨sub pair, literal_alike (twins₂.alike given)⟩
  | _ => exact mirrors_pure fun R sub => ⟨sub pair, rfl⟩

/-- Items with the same patterns, whatever their bodies are. -/
abbrev OneItem (P : Set (Expr × Expr)) (item item' : CaseItem) : Prop :=
  Paired P item.patterns item'.patterns

theorem sizeItems_tracks (wildcard : Bool) {s s' : Expr}
    (subject : (s, s') ∈ P) {items items' : List CaseItem}
    (each : List.Forall₂ (OneItem P) items items') :
    Tracks rule base P (Executing.sizeItems ⟨g, settings⟩ wildcard s items)
      (Executing.sizeItems ⟨g, settings'⟩ wildcard s' items') fun Q =>
        List.Forall₂ (List.Forall₂ (OneMatch Q)) := by
  refine tracks_mapM (fun Q R _ _ sub one => one.imp fun _ _ pair => ⟨sub pair.1, pair.2⟩) ?_
  refine each.imp fun item item' given => ?_
  refine tracks_mapM (fun Q R _ _ sub pair => ⟨sub pair.1, pair.2⟩) ?_
  exact given.imp fun p p' pattern => sizeMatch_tracks wildcard subject pattern

theorem matches_paired {found found' : List (List (Expr × Option Value))}
    (each : List.Forall₂ (List.Forall₂ (OneMatch P)) found found') :
    List.Forall₂ (Paired P) (found.map (·.map Prod.fst)) (found'.map (·.map Prod.fst)) := by
  rw [List.forall₂_map_left_iff, List.forall₂_map_right_iff]
  refine each.imp fun row row' one => ?_
  rw [Paired, List.forall₂_map_left_iff, List.forall₂_map_right_iff]
  exact one.imp fun _ _ pair => pair.1

theorem matches_constants {found found' : List (List (Expr × Option Value))}
    (each : List.Forall₂ (List.Forall₂ (OneMatch P)) found found') :
    found.map (·.map Prod.snd) = found'.map (·.map Prod.snd) := by
  rw [← List.forall₂_eq_eq_eq, List.forall₂_map_left_iff, List.forall₂_map_right_iff]
  refine each.imp fun row row' one => ?_
  rw [← List.forall₂_eq_eq_eq, List.forall₂_map_left_iff, List.forall₂_map_right_iff]
  exact one.imp fun _ _ pair => pair.2

theorem caseName_eq (twins : Twins base P next next') {e e' : Expr} (member : (e, e') ∈ P)
    (g : Netlist) : Executing.caseName g e = Executing.caseName g e' := by
  unfold Executing.caseName
  dsimp only
  rw [twins.find_eq (fun alike => by cases alike <;> rfl) member]

theorem fold_mirrors (op : BinaryOp) (es : List Expr) {es' : List Expr} (paired : Paired P es es')
    {e e' : Expr} (member : (e, e') ∈ P) : Mirrors (ε := NetlistError) base P
      (es.foldlM (Build.binary op) e) (es'.foldlM (Build.binary op) e') OneNode := by
  induction es generalizing P es' e e' with
  | nil =>
    cases paired
    exact mirrors_pure fun Q sub => sub member
  | cons a rest ih =>
    obtain _ | ⟨head, tail⟩ := paired
    rw [List.foldlM_cons, List.foldlM_cons]
    refine mirrors_bind (mirrors_node (fun _ => rfl) (fun _ => rfl) fun n n' =>
      .binary n n' op member head) fun Q _ _ r r' sub _ pair => ?_
    exact ih (paired_mono sub tail) pair

/-- A node in both runs, or none. -/
abbrev OneMaybe (P : Set (Expr × Expr)) : Option Expr → Option Expr → Prop := Option.Rel (OneNode P)

theorem oneMaybe_mono (sub : P ⊆ Q) {r r' : Option Expr} (pair : OneMaybe P r r') :
    OneMaybe Q r r' := by
  cases pair with
  | some one => exact .some (sub one)
  | none => exact .none

theorem reduce_mirrors (op : BinaryOp) {es es' : List Expr} (paired : Paired P es es') :
    Mirrors (ε := NetlistError) base P (Build.reduce op es) (Build.reduce op es') OneMaybe := by
  cases paired with
  | nil => exact mirrors_pure fun _ _ => .none
  | cons head tail =>
    refine mirrors_bind (fold_mirrors op _ tail head) fun Q _ _ r r' _ _ pair => ?_
    exact mirrors_pure fun R sub => .some (sub pair)

theorem anyOf_mirrors {es es' : List Expr} (paired : Paired P es es') :
    Mirrors base P (Executing.anyOf es) (Executing.anyOf es') OneNode := by
  refine mirrors_bind (reduce_mirrors .or paired) fun Q _ _ r r' sub _ pair => ?_
  cases pair with
  | some one => exact mirrors_pure fun R sub' => sub' one
  | none => exact mirrors_node (fun _ => rfl) (fun _ => rfl) fun n n' => .literal n n' _

theorem itemMatches_tracks (twins : Twins base P next next') (twin : Binding.Twin P b b')
    (eases : kind.Eases settings.overlapRule settings'.overlapRule kind') {s s' : Expr}
    (subject : (s, s') ∈ P) {items items' : List CaseItem}
    (each : List.Forall₂ (OneItem P) items items') :
    Tracks rule base P (Executing.itemMatches ⟨g, settings⟩ kind s items b)
      (Executing.itemMatches ⟨g, settings'⟩ kind' s' items' b') fun Q r r' =>
        r.1 = r'.1 ∧ Paired Q r.2 r'.2 := by
  unfold Executing.itemMatches
  refine tracks_bind (tracks_build (sizeFor_mirrors twins subject none)) ?_
  rintro Q₁ _ _ ⟨t, width⟩ ⟨t', _⟩ sub₁ _ ⟨pair, rfl⟩
  rw [← eases.wildcard]
  refine tracks_bind (sizeItems_tracks kind.wildcard pair
    (each.imp fun _ _ given => paired_mono sub₁ given)) fun Q₂ _ _ found found' sub₂ twins₂ rows => ?_
  have sub := sub₁.trans sub₂
  rw [← caseName_eq twins₂ (sub subject)]
  refine tracks_bind (tracks_ask _) ?_
  rintro Q₃ _ _ name _ sub₃ _ rfl
  -- both coverage checks see the same patterns, but not under the same rule
  rw [← matches_constants rows]
  refine tracks_bind (tracks_lift fun warnings passed =>
    Coverage.check_eases eases ⟨warnings, passed⟩) fun Q₄ _ _ ds ds' sub₄ _ _ => ?_
  refine tracks_bind (tracks_reports ds ds') fun Q₅ _ _ _ _ sub₅ twins₅ _ => ?_
  have later := (sub₃.trans sub₄).trans sub₅
  refine tracks_bind (tracks_build (resolveAllFor_mirrors twins₅ (twin_mono (sub.trans later) twin)
    ((matches_paired rows).imp fun _ _ row => paired_mono later row))) ?_
  intro Q₆ _ _ rss rss' sub₆ _ resolved
  refine tracks_bind (tracks_build (mirrors_mapM oneNode_mono
    (resolved.imp fun _ _ row => anyOf_mirrors row))) fun Q₇ _ _ es es' _ _ joined => ?_
  exact tracks_pure fun R sub₇ => ⟨rfl, paired_mono sub₇ joined⟩

end CombLogic
