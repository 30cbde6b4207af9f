import CombLogic.Proofs.Twins.Items

/- Guards and watched conditions in two runs. Where only the other run watches, it takes numbers that the
   first one does not take, and nothing else differs. -/
namespace CombLogic

open Expr

variable {ε α β γ : Type} {rule : OverlapRule} {base next next' : Nat} {P Q : Set (Expr × Expr)}
  {g : Netlist} {settings settings' : BlockSettings} {kind kind' : CaseKind}

/-- Numbers are only ever given out. -/
def Rises (m : Numbering (Except ε) α) : Prop := ∀ n a k, m n = .ok (a, k) → n ≤ k

theorem rises_pure (a : α) : Rises (ε := ε) (pure a) := by
  intro n b k run
  cases run
  exact Nat.le_refl n

theorem rises_node (form : Nat → Expr) :
    Rises (ε := ε) (do return form (← Build.number)) := by
  intro n e k run
  cases run
  exact Nat.le_succ n

theorem rises_bind {m : Numbering (Except ε) α} {f : α → Numbering (Except ε) β} (first : Rises m)
    (rest : ∀ a, Rises (f a)) : Rises (m >>= f) := by
  intro n c k run
  cases before : m n with
  | error x => simp [bind, StateT.bind, Except.bind, before] at run
  | ok r =>
    obtain ⟨a, i⟩ := r
    simp only [bind, StateT.bind, Except.bind, before] at run
    exact Nat.le_trans (first n a i before) (rest a i c k run)

theorem rises_reduce (op : BinaryOp) (es : List Expr) :
    Rises (ε := ε) (Build.reduce op es) := by
  have folded : ∀ (es : List Expr) (e : Expr), Rises (ε := ε) (es.foldlM (Build.binary op) e) := by
    intro es
    induction es with
    | nil => exact rises_pure
    | cons a rest ih =>
      intro e
      rw [List.foldlM_cons]
      exact rises_bind (rises_node fun n => .binary n op e a) ih
  cases es with
  | nil => exact rises_pure none
  | cons e rest => exact rises_bind (folded rest e) fun r => rises_pure _

theorem conflictOf_rises (path found : List Expr) : Rises (conflictOf path found) := by
  refine rises_bind (rises_node fun n => .concat n found) fun joined => ?_
  refine rises_bind (rises_node fun n => .unary n .multiHot joined) fun multiple => ?_
  refine rises_bind (rises_reduce _ _) fun above => ?_
  cases above with
  | none => exact rises_pure multiple
  | some reached => exact rises_node fun n => .binary n .and reached multiple

theorem conflictOf_mirrors {path path' found found' : List Expr} (above : Paired P path path')
    (paired : Paired P found found') :
    Mirrors base P (conflictOf path found) (conflictOf path' found') OneNode := by
  refine mirrors_bind (mirrors_node (fun _ => rfl) (fun _ => rfl) fun n n' => .concat n n' paired)
    fun Q₁ _ _ joined joined' sub₁ _ pair => ?_
  refine mirrors_bind (mirrors_node (fun _ => rfl) (fun _ => rfl) fun n n' => .unary n n' _ pair)
    fun Q₂ _ _ multiple multiple' sub₂ _ pair' => ?_
  refine mirrors_bind (reduce_mirrors .and (List.rel_reverse (paired_mono (sub₁.trans sub₂) above)))
    fun Q₃ _ _ r r' sub₃ _ reached => ?_
  cases reached with
  | none => exact mirrors_pure fun R sub => sub (sub₃ pair')
  | some one =>
    exact mirrors_node (fun _ => rfl) (fun _ => rfl) fun n n' => .binary n n' _ one (sub₃ pair')

theorem tracks_watch (watching : rule ≠ .allow) (name : String) {e e' : Expr}
    (member : (e, e') ∈ P) :
    Tracks rule base P (Executing.watch name e) (Executing.watch name e') fun _ _ _ => True := by
  intro Q sub s s' beside a' t' run
  cases run
  refine ⟨(), _, Q, rfl, subset_rfl, ⟨beside.twins, ?_⟩, trivial⟩
  have watched := beside.watched
  rw [if_neg watching] at watched ⊢
  simp only [Array.toList_push]
  exact List.rel_append watched (.cons ⟨rfl, sub member⟩ .nil)

/-- What only the other run watches. -/
theorem tracks_quiet {m : Executing Unit} (allowed : rule = .allow)
    (rises : ∀ s a s', m s = (.ok a, s') → s.nextNode ≤ s'.nextNode) :
    Tracks rule base P (pure ()) m fun _ _ _ => True := by
  intro Q sub s s' beside a' t' run
  refine ⟨(), s, Q, rfl, subset_rfl, ⟨beside.twins.later (rises s' a' t' run), ?_⟩, trivial⟩
  have watched := beside.watched
  rwa [if_pos allowed] at watched ⊢

theorem watchCase_rises (c : ExecContext) (path : List Expr) (kind : CaseKind) (name : String)
    (found : List Expr) (s : ExecState) (a : Unit) (s' : ExecState)
    (run : Executing.watchCase c path kind name found s = (.ok a, s')) :
    s.nextNode ≤ s'.nextNode := by
  rw [watchCase_eq] at run
  split at run
  · obtain ⟨e, t, built, watched⟩ := executing_bind run
    unfold Executing.build at built
    split at built <;> cases built
    rename_i next made
    cases watched
    exact conflictOf_rises path found _ _ _ made
  · cases run
    exact Nat.le_refl _

theorem watchCase_tracks (eases : kind.Eases settings.overlapRule settings'.overlapRule kind')
    {path path' found found' : List Expr} (above : Paired P path path')
    (paired : Paired P found found') (name : String) :
    Tracks settings.overlapRule base P (Executing.watchCase ⟨g, settings⟩ path kind name found)
      (Executing.watchCase ⟨g, settings'⟩ path' kind' name found') fun _ _ _ => True := by
  by_cases allowed : settings.overlapRule = .allow
  · have idle : Executing.watchCase ⟨g, settings⟩ path kind name found = pure () := by
      simp [watchCase_eq, allowed]
    rw [idle]
    exact tracks_quiet allowed (watchCase_rises _ path' kind' name found')
  · obtain ⟨unique, rank⟩ := eases.eased.resolve_left allowed
    have allowed' : settings'.overlapRule ≠ .allow := by
      intro allowed'
      rw [allowed'] at rank
      cases rule : settings.overlapRule <;> simp_all [OverlapRule.rank]
    rw [watchCase_eq, watchCase_eq, unique, paired.length_eq]
    simp only [ne_eq, allowed, allowed', not_false_eq_true, true_and]
    split
    · refine tracks_bind (tracks_build (conflictOf_mirrors above paired)) ?_
      exact fun Q _ _ e e' _ _ pair => tracks_watch allowed name pair
    · exact tracks_pure fun _ _ => trivial

theorem itemGuard_mirrors {e e' : Expr} (member : (e, e') ∈ P) {earlier earlier' : Option Expr}
    (before : OneMaybe P earlier earlier') :
    Mirrors base P (Executing.itemGuard e earlier) (Executing.itemGuard e' earlier') OneNode := by
  cases before with
  | none => exact mirrors_pure fun R sub => sub member
  | some one =>
    refine mirrors_bind (mirrors_node (fun _ => rfl) (fun _ => rfl) fun n n' => .unary n n' _ one)
      fun Q _ _ r r' sub _ pair => ?_
    exact mirrors_node (fun _ => rfl) (fun _ => rfl) fun n n' => .binary n n' _ (sub member) pair

theorem orEarlier_mirrors {e e' : Expr} (member : (e, e') ∈ P) {earlier earlier' : Option Expr}
    (before : OneMaybe P earlier earlier') :
    Mirrors base P (Executing.orEarlier e earlier) (Executing.orEarlier e' earlier') OneNode := by
  cases before with
  | none => exact mirrors_pure fun R sub => sub member
  | some one => exact mirrors_node (fun _ => rfl) (fun _ => rfl) fun n n' => .binary n n' _ one member

theorem defaultGuard_mirrors {earlier earlier' : Option Expr} (before : OneMaybe P earlier earlier') :
    Mirrors base P (Executing.defaultGuard earlier) (Executing.defaultGuard earlier') OneNode := by
  cases before with
  | none => exact mirrors_node (fun _ => rfl) (fun _ => rfl) fun n n' => .literal n n' _
  | some one => exact mirrors_node (fun _ => rfl) (fun _ => rfl) fun n n' => .unary n n' _ one

end CombLogic
