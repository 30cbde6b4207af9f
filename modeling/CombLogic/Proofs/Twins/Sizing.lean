import CombLogic.Proofs.Sizing.Memo
import CombLogic.Proofs.Twins.Mirrors

/- Sizing in two runs. Paired expressions are sized to paired expressions of one width. -/
namespace CombLogic

open Expr Sizing Std

variable {base next next' : Nat} {P Q : Set (Expr × Expr)} {g : Netlist}

/-- Both results are one node, and both widths are the same. -/
abbrev OneSize (P : Set (Expr × Expr)) (r r' : Expr × Nat) : Prop := (r.1, r'.1) ∈ P ∧ r.2 = r'.2

/-- Memos that are in step. -/
structure SizeTwins (P : Set (Expr × Expr)) (memo memo' : SizeMemo) : Prop where
  own : Keyed P Eq (fun key => memo.own[key]?) (fun key => memo'.own[key]?)
  sized : ∀ width, Keyed P (OneSize P) (fun key => lookupSized memo key width)
    (fun key => lookupSized memo' key width)

theorem sizeTwins_mono {memo memo' : SizeMemo} (sub : P ⊆ Q) (kept : SizeTwins P memo memo') :
    SizeTwins Q memo memo' where
  own := kept.own.mono sub fun _ _ same => same
  sized width := (kept.sized width).mono sub fun _ _ size => ⟨sub size.1, size.2⟩

theorem sizeTwins_empty : SizeTwins P ⟨{}, {}⟩ ⟨{}, {}⟩ := by
  refine ⟨⟨?_, ?_⟩, fun width => ⟨?_, ?_⟩⟩ <;> simp [lookupSized]

/-- Both runs find the same. -/
abbrev FindsSame {α : Type} (base : Nat) (P : Set (Expr × Expr)) (m m' : Sizing α) : Prop :=
  MirrorsWith SizeTwins base P m m' fun _ a a' => a = a'

/-- Both runs size to one node. -/
abbrev SizesSame (base : Nat) (P : Set (Expr × Expr)) (m m' : Sizing (Expr × Nat)) : Prop :=
  MirrorsWith SizeTwins base P m m' OneSize

theorem rememberOwn_mirrors {e e' : Expr} (member : (e, e') ∈ P) {find find' : Sizing (Option Nat)}
    (found : FindsSame base P find find') :
    FindsSame base P (rememberOwn e.node find) (rememberOwn e'.node find') := by
  rw [rememberOwn_eq, rememberOwn_eq]
  refine mirrorsWith_remembering ?_ ?_ found
  · exact fun Q n n' memo memo' sub twins kept => kept.own.cases twins (sub member)
  · intro Q n n' memo memo' a a' sub twins kept same
    refine ⟨?_, kept.sized⟩
    simp only [TreeMap.getElem?_insert, LawfulEqCmp.compare_eq_iff_eq]
    exact kept.own.insert twins (sub member) same

theorem rememberSized_mirrors {e e' : Expr} (member : (e, e') ∈ P) (width : Nat)
    {find find' : Sizing (Expr × Nat)} (found : SizesSame base P find find') :
    SizesSame base P (rememberSized e.node width find) (rememberSized e'.node width find') := by
  rw [rememberSized_eq, rememberSized_eq]
  refine mirrorsWith_remembering ?_ ?_ found
  · exact fun Q n n' memo memo' sub twins kept => (kept.sized width).cases twins (sub member)
  · intro Q n n' memo memo' a a' sub twins kept size
    refine ⟨kept.own, fun other => ?_⟩
    simp only [lookupSized_insert]
    by_cases fit : width = other
    · subst fit
      simp only [and_true]
      exact (kept.sized width).insert twins (sub member) size
    · simp only [fit, and_false, if_false]
      exact kept.sized other

theorem ask_mirrors {α : Type} (r : Except NetlistError α) :
    FindsSame base P (Sizing.ask r) (Sizing.ask r) :=
  mirrorsWith_lift (fun _ _ _ _ => sizeTwins_mono) (mirrors_ask r)

theorem known_mirrors {α : Type} (a : α) : FindsSame base P (pure a) (pure a) :=
  mirrorsWith_pure fun _ _ => rfl

theorem ownWidths_mirrors {es es' : List Expr}
    (each : List.Forall₂ (fun a a' => FindsSame base P (ownWidth g a) (ownWidth g a')) es es') :
    FindsSame base P (ownWidths g es) (ownWidths g es') := by
  induction each with
  | nil => exact known_mirrors _
  | cons head _ ih =>
    simp only [ownWidths]
    refine mirrorsWith_bind head ?_
    rintro Q width _ sub rfl
    cases width with
    | none => exact mirrorsWith_fails fun memo n => ⟨_, rfl⟩
    | some width =>
      refine mirrorsWith_bind (mirrorsWith_mono ih sub) ?_
      rintro R total _ sub' rfl
      exact known_mirrors _

theorem joinWidths_mirrors {a a' b b' : Expr}
    (left : FindsSame base P (ownWidth g a) (ownWidth g a'))
    (right : FindsSame base P (ownWidth g b) (ownWidth g b')) :
    FindsSame base P (do return joinWidths (← ownWidth g a) (← ownWidth g b))
      (do return joinWidths (← ownWidth g a') (← ownWidth g b')) := by
  refine mirrorsWith_bind left ?_
  rintro Q m _ sub rfl
  refine mirrorsWith_bind (mirrorsWith_mono right sub) ?_
  rintro R n _ sub' rfl
  exact known_mirrors _

theorem ownWidth_mirrors (twins : Twins base P next next') (e : Expr) :
    ∀ e', (e, e') ∈ P → FindsSame base P (ownWidth g e) (ownWidth g e') := by
  induction e using operand_induction with
  | step e ih =>
    intro e' member
    have remembered : ∀ find find', FindsSame base P find find' →
        FindsSame base P (rememberOwn e.node find) (rememberOwn e'.node find') :=
      fun find find' => rememberOwn_mirrors member
    have alike := twins.alike member
    cases alike with
    | signal n n' leaf | unassigned n n' leaf =>
      refine mirrorsWith_bind (ask_mirrors _) ?_
      rintro Q width _ sub rfl
      exact known_mirrors _
    | read n n' target =>
      refine remembered _ _ (mirrorsWith_bind (ask_mirrors _) ?_)
      rintro Q width _ sub rfl
      exact known_mirrors _
    | literal n n' value => exact remembered _ _ (known_mirrors _)
    | integer n n' value => exact known_mirrors _
    | unary n n' op a =>
      refine remembered _ _ ?_
      split
      · exact known_mirrors _
      · exact ih _ (by simp [children]) _ a
    | binary n n' op a b =>
      refine remembered _ _ ?_
      split
      · exact known_mirrors _
      · split
        · exact ih _ (by simp [children]) _ a
        · exact joinWidths_mirrors (ih _ (by simp [children]) _ a) (ih _ (by simp [children]) _ b)
    | mux n n' c t f =>
      exact remembered _ _
        (joinWidths_mirrors (ih _ (by simp [children]) _ t) (ih _ (by simp [children]) _ f))
    | @concat n n' as as' parts =>
      refine remembered _ _ (mirrorsWith_bind (ownWidths_mirrors (paired_each parts ih)) ?_)
      rintro Q total _ sub rfl
      exact known_mirrors _
    | slice | extend | caseMatch => exact known_mirrors _

theorem neededWidth_mirrors {e e' : Expr} (own : FindsSame base P (ownWidth g e) (ownWidth g e')) :
    FindsSame base P (neededWidth g e) (neededWidth g e') := by
  refine mirrorsWith_bind own ?_
  rintro Q width _ sub rfl
  cases width with
  | none => exact mirrorsWith_fails fun memo n => ⟨_, rfl⟩
  | some width => exact known_mirrors _

/-- The last step of sizing a node. -/
theorem keep_mirrors {e e' : Expr} {as as' : List Expr} {width width' : Nat} (member : (e, e') ∈ P)
    (paired : Paired P as as') (length : as.length = e.children.length) (same : width = width') :
    SizesSame base P (do return (← Sizing.keep e as, width))
      (do return (← Sizing.keep e' as', width')) := by
  refine mirrorsWith_bind (mirrorsWith_lift (fun _ _ _ _ => sizeTwins_mono)
    (rebuild_mirrors member paired length)) fun Q s s' sub built => ?_
  exact mirrorsWith_pure fun R sub' => ⟨sub' built, same⟩

theorem fitParts_mirrors {es es' : List Expr}
    (own : List.Forall₂ (fun a a' => FindsSame base P (ownWidth g a) (ownWidth g a')) es es')
    (each : List.Forall₂ (fun a a' => ∀ width, SizesSame base P (fit g a width) (fit g a' width))
      es es') :
    MirrorsWith SizeTwins base P (fitParts g es) (fitParts g es') fun Q r r' =>
      Paired Q r.1 r'.1 ∧ r.1.length = es.length ∧ r.2 = r'.2 := by
  induction each with
  | nil => exact mirrorsWith_pure fun _ _ => ⟨.nil, rfl, rfl⟩
  | cons head _ ih =>
    cases own with
    | cons first later =>
      simp only [fitParts]
      refine mirrorsWith_bind (neededWidth_mirrors first) ?_
      rintro Q width _ sub rfl
      refine mirrorsWith_bind (mirrorsWith_mono (head width) sub) ?_
      rintro Q₁ ⟨s, w⟩ ⟨s', _⟩ sub₁ ⟨one, rfl⟩
      refine mirrorsWith_bind (mirrorsWith_mono (ih later) (sub.trans sub₁)) ?_
      rintro Q₂ ⟨ss, total⟩ ⟨ss', _⟩ sub₂ ⟨all, length, rfl⟩
      exact mirrorsWith_pure fun R sub₃ =>
        ⟨.cons (sub₃ (sub₂ one)) (paired_mono sub₃ all), congrArg (· + 1) length, rfl⟩

theorem leastWidth_alike {a a' : Expr} (alike : a.shape = a'.shape) :
    a.leastWidth = a'.leastWidth := by
  rw [← leastWidth_shape, alike, leastWidth_shape]

theorem pairWidths_alike {a a' b b' : Expr} (left : a.shape = a'.shape) (right : b.shape = b'.shape)
    (width : Nat) (own own' : Option Nat) :
    pairWidths a b width own own' = pairWidths a' b' width own own' := by
  rw [← pairWidths_shape, left, right, pairWidths_shape]

/-- A node with one operand is sized by sizing the operand. -/
theorem fitOne_mirrors {e e' a a' : Expr} {w : Nat} (member : (e, e') ∈ P)
    (only : e.children.length = 1) (width : Nat → Nat)
    (fits : SizesSame base P (fit g a w) (fit g a' w)) :
    SizesSame base P
      (do
        let r ← fit g a w
        return (← Sizing.keep e [r.1], width r.2))
      (do
        let r ← fit g a' w
        return (← Sizing.keep e' [r.1], width r.2)) := by
  refine mirrorsWith_bind fits ?_
  rintro Q ⟨s, sw⟩ ⟨s', _⟩ sub ⟨one, rfl⟩
  exact keep_mirrors (sub member) (.cons one .nil) only.symm rfl

/-- Two operands are sized for the widths that they share. -/
theorem fitPair_mirrors (twins : Twins base P next next') {a a' b b' : Expr} (pair : (a, a') ∈ P)
    (pair' : (b, b') ∈ P) (context : Nat)
    (left : ∀ width, SizesSame base P (fit g a width) (fit g a' width))
    (right : ∀ width, SizesSame base P (fit g b width) (fit g b' width))
    {rest rest' : Expr × Nat → Expr × Nat → Sizing (Expr × Nat)} (larger : P ⊆ Q)
    (join : ∀ R s s' t t' w w', Q ⊆ R → (s, s') ∈ R → (t, t') ∈ R →
      SizesSame base R (rest (s, w) (t, w')) (rest' (s', w) (t', w'))) :
    SizesSame base Q
      (do
        let widths := pairWidths a b context (← ownWidth g a) (← ownWidth g b)
        let x ← fit g a widths.1
        let y ← fit g b widths.2
        rest x y)
      (do
        let widths := pairWidths a' b' context (← ownWidth g a') (← ownWidth g b')
        let x ← fit g a' widths.1
        let y ← fit g b' widths.2
        rest' x y) := by
  refine mirrorsWith_bind (mirrorsWith_mono (ownWidth_mirrors twins a a' pair) larger) ?_
  rintro Q₁ w _ sub₁ rfl
  have sub := larger.trans sub₁
  refine mirrorsWith_bind (mirrorsWith_mono (ownWidth_mirrors twins b b' pair') sub) ?_
  rintro Q₂ w' _ sub₂ rfl
  rw [pairWidths_alike (twins.shape_eq a a' pair) (twins.shape_eq b b' pair')]
  refine mirrorsWith_bind (mirrorsWith_mono (left _) (sub.trans sub₂)) ?_
  rintro Q₃ ⟨s, sw⟩ ⟨s', _⟩ sub₃ ⟨one, rfl⟩
  refine mirrorsWith_bind (mirrorsWith_mono (right _) ((sub.trans sub₂).trans sub₃)) ?_
  rintro Q₄ ⟨t, tw⟩ ⟨t', _⟩ sub₄ ⟨one', rfl⟩
  exact join Q₄ s s' t t' sw tw (((sub₁.trans sub₂).trans sub₃).trans sub₄) (sub₄ one) one'

theorem fit_mirrors (twins : Twins base P next next') (e : Expr) : ∀ e', (e, e') ∈ P → ∀ width,
    SizesSame base P (fit g e width) (fit g e' width) := by
  induction e using operand_induction with
  | step e ih =>
    intro e' member width
    have own : ∀ {a a'}, (a, a') ∈ P → FindsSame base P (ownWidth g a) (ownWidth g a') :=
      fun pair => ownWidth_mirrors twins _ _ pair
    have remembered : ∀ find find', SizesSame base P find find' →
        SizesSame base P (rememberSized e.node width find) (rememberSized e'.node width find') :=
      fun find find' => rememberSized_mirrors member width
    have atom : SizesSame base P (pure (e, width)) (pure (e', width)) :=
      mirrorsWith_pure fun Q sub => ⟨sub member, rfl⟩
    have alike := twins.alike member
    cases alike with
    | signal | literal | read | unassigned => exact atom
    | integer n n' value =>
      refine remembered _ _ ?_
      refine mirrorsWith_bind (mirrorsWith_lift (fun _ _ _ _ => sizeTwins_mono)
        (mirrors_node (fun _ => rfl) (fun _ => rfl) fun n n' => .literal n n' _)) ?_
      exact fun Q s s' sub built => mirrorsWith_pure fun R sub' => ⟨sub' built, rfl⟩
    | @unary n n' op a a' pair =>
      have fits := ih a (by simp [children]) a' pair
      refine remembered _ _ ?_
      split
      · refine mirrorsWith_bind (neededWidth_mirrors (own pair)) ?_
        rintro Q w _ sub rfl
        exact fitOne_mirrors (sub member) rfl (fun _ => 1) (mirrorsWith_mono (fits w) sub)
      · exact fitOne_mirrors member rfl id (fits width)
    | @binary n n' op a a' b b' pair pair' =>
      have left := ih a (by simp [children]) a' pair
      have right := ih b (by simp [children]) b' pair'
      refine remembered _ _ ?_
      split
      · refine mirrorsWith_bind (left width) ?_
        rintro Q₁ ⟨s, sw⟩ ⟨s', _⟩ sub₁ ⟨one, rfl⟩
        refine mirrorsWith_bind (mirrorsWith_mono (own pair') sub₁) ?_
        rintro Q₂ w _ sub₂ rfl
        rw [leastWidth_alike (twins.shape_eq b b' pair')]
        refine mirrorsWith_bind (mirrorsWith_mono (right _) (sub₁.trans sub₂)) ?_
        rintro Q₃ ⟨t, tw⟩ ⟨t', _⟩ sub₃ ⟨one', rfl⟩
        exact keep_mirrors (sub₃ (sub₂ (sub₁ member))) (.cons (sub₃ (sub₂ one)) (.cons one' .nil))
          rfl rfl
      · refine fitPair_mirrors twins pair pair' _ left right subset_rfl ?_
        intro Q s s' t t' w w' sub one one'
        by_cases differ : w ≠ w' ∧ w ≠ 1 ∧ w' ≠ 1
        · simp only [if_pos differ]
          exact mirrorsWith_fails fun memo n => ⟨_, rfl⟩
        · simp only [if_neg differ]
          exact keep_mirrors (sub member) (.cons one (.cons one' .nil)) rfl rfl
    | @mux n n' c c' t t' f f' pair pair' pair'' =>
      refine remembered _ _ ?_
      refine mirrorsWith_bind (own pair) ?_
      rintro Q₁ w _ sub₁ rfl
      refine mirrorsWith_bind (mirrorsWith_mono (ih c (by simp [children]) c' pair _) sub₁) ?_
      rintro Q₂ ⟨s, sw⟩ ⟨s', _⟩ sub₂ ⟨one, rfl⟩
      by_cases bit : sw ≠ 1
      · simp only [if_pos bit]
        exact mirrorsWith_fails fun memo n => ⟨_, rfl⟩
      simp only [if_neg bit]
      refine fitPair_mirrors twins pair' pair'' _ (ih t (by simp [children]) t' pair')
        (ih f (by simp [children]) f' pair'') (sub₁.trans sub₂) ?_
      intro Q u u' v v' w w' later one' one''
      by_cases differ : w ≠ w'
      · simp only [if_pos differ]
        exact mirrorsWith_fails fun memo n => ⟨_, rfl⟩
      simp only [if_neg differ]
      exact keep_mirrors (later (sub₂ (sub₁ member)))
        (.cons (later one) (.cons one' (.cons one'' .nil))) rfl rfl
    | @concat n n' as as' parts =>
      refine remembered _ _ ?_
      refine mirrorsWith_bind (fitParts_mirrors (paired_each parts fun a _ a' pair => own pair)
        (paired_each parts fun a below a' pair => ih a below a' pair)) ?_
      rintro Q ⟨ss, total⟩ ⟨ss', _⟩ sub ⟨all, length, rfl⟩
      exact keep_mirrors (sub member) all length rfl
    | @slice n n' a a' pair high low =>
      have fits := ih a (by simp [children]) a' pair
      refine remembered _ _ ?_
      refine mirrorsWith_bind (neededWidth_mirrors (own pair)) ?_
      rintro Q w _ sub rfl
      by_cases outside : high < low ∨ w ≤ high
      · simp only [if_pos outside]
        exact mirrorsWith_fails fun memo n => ⟨_, rfl⟩
      simp only [if_neg outside]
      exact fitOne_mirrors (sub member) rfl (fun _ => high - low + 1) (mirrorsWith_mono (fits w) sub)
    | @extend n n' a a' pair target signed =>
      have fits := ih a (by simp [children]) a' pair
      refine remembered _ _ ?_
      refine mirrorsWith_bind (own pair) ?_
      rintro Q w _ sub rfl
      by_cases narrow : target < w.getD target
      · simp only [if_pos narrow]
        exact mirrorsWith_fails fun memo n => ⟨_, rfl⟩
      simp only [if_neg narrow]
      exact fitOne_mirrors (sub member) rfl (fun _ => target) (mirrorsWith_mono (fits _) sub)
    | @caseMatch n n' a a' b b' pair pair' wildcard =>
      refine remembered _ _ ?_
      refine fitPair_mirrors twins pair pair' _ (ih a (by simp [children]) a' pair)
        (ih b (by simp [children]) b' pair') subset_rfl ?_
      intro Q s s' t t' w w' sub one one'
      by_cases differ : w ≠ w'
      · simp only [if_pos differ]
        exact mirrorsWith_fails fun memo n => ⟨_, rfl⟩
      simp only [if_neg differ]
      exact keep_mirrors (sub member) (.cons one (.cons one' .nil)) rfl rfl

theorem sizeFor_mirrors (twins : Twins base P next next') {e e' : Expr} (member : (e, e') ∈ P)
    (context : Option Nat) : Mirrors base P (g.sizeFor e context) (g.sizeFor e' context) OneSize := by
  have sized : SizesSame base P (Sizing.size g e context) (Sizing.size g e' context) := by
    refine mirrorsWith_bind (ownWidth_mirrors twins e e' member) ?_
    rintro Q width _ sub rfl
    cases width with
    | some width => exact mirrorsWith_mono (fit_mirrors twins e e' member width) sub
    | none =>
      rw [leastWidth_alike (twins.shape_eq e e' member)]
      exact mirrorsWith_mono (fit_mirrors twins e e' member _) sub
  exact mirrors_run (fun _ => sizeTwins_empty) sized

end CombLogic
