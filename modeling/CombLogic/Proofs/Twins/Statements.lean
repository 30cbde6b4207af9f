import CombLogic.Proofs.Block.Execute
import CombLogic.Proofs.Twins.Guards

/- A block executed in two runs, with cases that may be unique in one of them and not in the other. -/
namespace CombLogic

open Expr

namespace Stmt

mutual

/-- The same statement with its cases of other kinds. -/
def mapKinds (f : CaseKind → CaseKind) : Stmt → Stmt
  | assign target value => assign target value
  | ifElse condition thenBody elseBody =>
    ifElse condition (bodyMapKinds f thenBody) (bodyMapKinds f elseBody)
  | case kind selector items default =>
    case (f kind) selector (itemMapKinds f items) (bodyMapKinds f default)

def bodyMapKinds (f : CaseKind → CaseKind) : List Stmt → List Stmt
  | [] => []
  | s :: rest => mapKinds f s :: bodyMapKinds f rest

def itemMapKinds (f : CaseKind → CaseKind) : List CaseItem → List CaseItem
  | [] => []
  | .mk patterns body :: rest => .mk patterns (bodyMapKinds f body) :: itemMapKinds f rest

end

mutual

theorem mapKinds_id (s : Stmt) : s.mapKinds id = s := by
  cases s with
  | assign target value => rfl
  | ifElse condition thenBody elseBody =>
    rw [mapKinds, bodyMapKinds_id thenBody, bodyMapKinds_id elseBody]
  | case kind selector items default =>
    rw [mapKinds, itemMapKinds_id items, bodyMapKinds_id default, id]

theorem bodyMapKinds_id (body : List Stmt) : bodyMapKinds id body = body := by
  cases body with
  | nil => rfl
  | cons s rest => rw [bodyMapKinds, mapKinds_id s, bodyMapKinds_id rest]

theorem itemMapKinds_id (items : List CaseItem) : itemMapKinds id items = items := by
  cases items with
  | nil => rfl
  | cons item rest =>
    obtain ⟨patterns, body⟩ := item
    rw [itemMapKinds, bodyMapKinds_id body, itemMapKinds_id rest]

end

variable (f : CaseKind → CaseKind)

mutual

/-- The kinds say nothing of the targets, the expressions and the number of statements. -/
theorem mapKinds_parts (s : Stmt) : (s.mapKinds f).targets = s.targets ∧
    (s.mapKinds f).exprs = s.exprs ∧ (s.mapKinds f).count = s.count := by
  cases s with
  | assign target value => exact ⟨rfl, rfl, rfl⟩
  | ifElse condition thenBody elseBody =>
    simp [mapKinds, targets, exprs, count, bodyMapKinds_parts thenBody, bodyMapKinds_parts elseBody]
  | case kind selector items default =>
    simp [mapKinds, targets, exprs, count, itemMapKinds_parts items, bodyMapKinds_parts default]

theorem bodyMapKinds_parts (body : List Stmt) :
    bodyTargets (bodyMapKinds f body) = bodyTargets body ∧
      bodyExprs (bodyMapKinds f body) = bodyExprs body ∧
        bodyCount (bodyMapKinds f body) = bodyCount body := by
  cases body with
  | nil => exact ⟨rfl, rfl, rfl⟩
  | cons s rest =>
    simp [bodyMapKinds, bodyTargets, bodyExprs, bodyCount, mapKinds_parts s, bodyMapKinds_parts rest]

theorem itemMapKinds_parts (items : List CaseItem) :
    itemTargets (itemMapKinds f items) = itemTargets items ∧
      itemExprs (itemMapKinds f items) = itemExprs items ∧
        itemCount (itemMapKinds f items) = itemCount items := by
  cases items with
  | nil => exact ⟨rfl, rfl, rfl⟩
  | cons item rest =>
    obtain ⟨patterns, body⟩ := item
    simp [itemMapKinds, itemTargets, itemExprs, itemCount, bodyMapKinds_parts body,
      itemMapKinds_parts rest]

end

theorem itemMapKinds_patterns {P : Set (Expr × Expr)} (items : List CaseItem)
    (inside : ∀ e ∈ itemExprs items, (e, e) ∈ P) :
    List.Forall₂ (OneItem P) (itemMapKinds f items) items := by
  induction items with
  | nil => exact .nil
  | cons item rest ih =>
    obtain ⟨patterns, body⟩ := item
    refine .cons (List.forall₂_same.mpr fun e listed => inside e ?_) (ih fun e later => inside e ?_)
    · exact List.mem_append_left _ listed
    · simp [itemExprs, later]

end Stmt

open Stmt

/-- What the items of a case come to in two runs. -/
abbrev OneArms (P : Set (Expr × Expr)) (r r' : List Binding × Option Expr) : Prop :=
  List.Forall₂ (Binding.Twin P) r.1 r'.1 ∧ OneMaybe P r.2 r'.2

section

variable {base : Nat} {g : Netlist} {settings settings' : BlockSettings} {f : CaseKind → CaseKind}

mutual

theorem statement_tracks {P : Set (Expr × Expr)} {next next' : Nat} {path path' : List Expr}
    {b b' : Binding} (eases : ∀ kind, (f kind).Eases settings.overlapRule settings'.overlapRule kind)
    (twins : Twins base P next next') (s : Stmt) (inside : ∀ e ∈ s.exprs, (e, e) ∈ P)
    (above : Paired P path path') (twin : Binding.Twin P b b') :
    Tracks settings.overlapRule base P (Executing.statement ⟨g, settings⟩ path (s.mapKinds f) b)
      (Executing.statement ⟨g, settings'⟩ path' s b') Binding.Twin := by
  cases s with
  | assign target value =>
    simp only [Executing.statement, mapKinds]
    exact assign_tracks twin target (inside value (by simp [exprs]))
  | ifElse e thenBody elseBody =>
    have first : ∀ Q, P ⊆ Q → ∀ a ∈ bodyExprs thenBody, (a, a) ∈ Q :=
      fun Q sub a listed => sub (inside a (by simp [exprs, listed]))
    have second : ∀ Q, P ⊆ Q → ∀ a ∈ bodyExprs elseBody, (a, a) ∈ Q :=
      fun Q sub a listed => sub (inside a (by simp [exprs, listed]))
    simp only [Executing.statement, mapKinds]
    refine tracks_bind (condition_tracks twins twin (inside e (by simp [exprs]))) ?_
    intro Q₁ _ _ holds holds' sub₁ twins₁ pair
    refine tracks_bind (body_tracks eases twins₁ thenBody (first Q₁ sub₁)
      (.cons pair (paired_mono sub₁ above)) (twin_mono sub₁ twin)) ?_
    intro Q₂ _ _ thenArm thenArm' sub₂ _ one
    refine tracks_bind (tracks_build (mirrors_node (fun _ => rfl) (fun _ => rfl) fun n n' =>
      .unary n n' _ (sub₂ pair))) fun Q₃ _ _ fails fails' sub₃ twins₃ pair' => ?_
    have sub := (sub₁.trans sub₂).trans sub₃
    refine tracks_bind (body_tracks eases twins₃ elseBody (second Q₃ sub)
      (.cons pair' (paired_mono sub above)) (twin_mono sub twin)) ?_
    intro Q₄ _ _ elseArm elseArm' sub₄ _ other
    rw [twin.keys]
    exact joinBranches_tracks (sub₄ (sub₃ (sub₂ pair))) (twin_mono (sub₃.trans sub₄) one) other _
      (twin_mono (sub.trans sub₄) twin)
  | case kind selector items default =>
    have patterns : ∀ e ∈ itemExprs items, (e, e) ∈ P :=
      fun e listed => inside e (by simp [exprs, listed])
    have last : ∀ Q, P ⊆ Q → ∀ a ∈ bodyExprs default, (a, a) ∈ Q :=
      fun Q sub a listed => sub (inside a (by simp [exprs, listed]))
    simp only [Executing.statement, mapKinds]
    refine tracks_bind (itemMatches_tracks twins twin (eases kind) (inside selector (by simp [exprs]))
      (itemMapKinds_patterns f items patterns)) ?_
    rintro Q₁ _ _ ⟨name, found⟩ ⟨_, found'⟩ sub₁ _ ⟨rfl, paired⟩
    -- only one of the runs may watch here, so from now on the two give out different numbers
    refine tracks_bind (watchCase_tracks (eases kind) (paired_mono sub₁ above) paired name) ?_
    intro Q₂ _ _ _ _ sub₂ _ _
    have sub := sub₁.trans sub₂
    refine tracks_bind (itemArms_tracks eases items (fun e listed => sub (patterns e listed))
      (paired_mono sub above) (paired_mono sub₂ paired) .none (twin_mono sub twin)) ?_
    rintro Q₃ _ _ ⟨arms, earlier⟩ ⟨arms', earlier'⟩ sub₃ _ ⟨each, before⟩
    refine tracks_bind (tracks_build (defaultGuard_mirrors before)) ?_
    intro Q₄ _ _ guard guard' sub₄ twins₄ pair
    have sub' := (sub.trans sub₃).trans sub₄
    refine tracks_bind (body_tracks eases twins₄ default (last Q₄ sub')
      (.cons pair (paired_mono sub' above)) (twin_mono sub' twin)) ?_
    intro Q₅ _ _ fallback fallback' sub₅ _ other
    have later := (sub₃.trans sub₄).trans sub₅
    rw [twin.keys]
    exact joinItems_tracks (paired_mono (sub₂.trans later) paired)
      (each.imp fun _ _ arm => twin_mono (sub₄.trans sub₅) arm) other _
      (twin_mono (sub'.trans sub₅) twin)

theorem body_tracks {P : Set (Expr × Expr)} {next next' : Nat} {path path' : List Expr}
    {b b' : Binding} (eases : ∀ kind, (f kind).Eases settings.overlapRule settings'.overlapRule kind)
    (twins : Twins base P next next') (body : List Stmt)
    (inside : ∀ e ∈ bodyExprs body, (e, e) ∈ P) (above : Paired P path path')
    (twin : Binding.Twin P b b') :
    Tracks settings.overlapRule base P
      (Executing.body ⟨g, settings⟩ path (bodyMapKinds f body) b)
      (Executing.body ⟨g, settings'⟩ path' body b') Binding.Twin := by
  cases body with
  | nil =>
    simp only [Executing.body, bodyMapKinds]
    exact tracks_pure fun Q sub => twin_mono sub twin
  | cons s rest =>
    simp only [Executing.body, bodyMapKinds]
    refine tracks_bind (statement_tracks eases twins s
      (fun e listed => inside e (by simp [bodyExprs, listed])) above twin) ?_
    intro Q _ _ after after' sub twins' twin'
    exact body_tracks eases twins' rest (fun e listed => sub (inside e (by simp [bodyExprs, listed])))
      (paired_mono sub above) twin'

theorem itemArms_tracks {P : Set (Expr × Expr)} {path path' found found' : List Expr}
    {earlier earlier' : Option Expr} {b b' : Binding}
    (eases : ∀ kind, (f kind).Eases settings.overlapRule settings'.overlapRule kind)
    (items : List CaseItem) (inside : ∀ e ∈ itemExprs items, (e, e) ∈ P)
    (above : Paired P path path') (paired : Paired P found found')
    (before : OneMaybe P earlier earlier') (twin : Binding.Twin P b b') :
    Tracks settings.overlapRule base P
      (Executing.itemArms ⟨g, settings⟩ path (itemMapKinds f items) found earlier b)
      (Executing.itemArms ⟨g, settings'⟩ path' items found' earlier' b') OneArms := by
  have none : Tracks settings.overlapRule base P
      (pure ([], earlier) : Executing (List Binding × Option Expr)) (pure ([], earlier')) OneArms :=
    tracks_pure fun Q sub => ⟨.nil, oneMaybe_mono sub before⟩
  cases items with
  | nil => simpa only [Executing.itemArms, itemMapKinds] using none
  | cons item rest =>
    obtain ⟨patterns, body⟩ := item
    cases paired with
    | nil => simpa only [Executing.itemArms, itemMapKinds] using none
    | cons head tail =>
      simp only [Executing.itemArms, itemMapKinds]
      refine tracks_bind (tracks_build (itemGuard_mirrors head before)) ?_
      intro Q₁ _ _ guard guard' sub₁ twins₁ pair
      refine tracks_bind (body_tracks eases twins₁ body
        (fun e listed => sub₁ (inside e (by simp [itemExprs, listed])))
        (.cons pair (paired_mono sub₁ above)) (twin_mono sub₁ twin)) ?_
      intro Q₂ _ _ arm arm' sub₂ _ one
      have sub := sub₁.trans sub₂
      refine tracks_bind (tracks_build (orEarlier_mirrors (sub head) (oneMaybe_mono sub before))) ?_
      intro Q₃ _ _ either either' sub₃ _ pair'
      have sub := sub.trans sub₃
      refine tracks_bind (itemArms_tracks eases rest
        (fun e listed => sub (inside e (by simp [itemExprs, listed]))) (paired_mono sub above)
        (paired_mono sub tail) (.some pair') (twin_mono sub twin)) ?_
      rintro Q₄ _ _ ⟨arms, after⟩ ⟨arms', after'⟩ sub₄ _ ⟨each, both⟩
      exact tracks_pure fun R sub₅ =>
        ⟨.cons (twin_mono ((sub₃.trans sub₄).trans sub₅) one)
          (each.imp fun _ _ other => twin_mono sub₅ other), oneMaybe_mono sub₅ both⟩

end

end

end CombLogic
