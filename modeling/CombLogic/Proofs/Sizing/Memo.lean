import CombLogic.Proofs.Sizing.Plain

/- Sizing with its memos against plain sizing. What the memos keep for a node is what plain sizing
   gives for it, so a node met again is sized as at its first place. -/
namespace CombLogic

open Expr Sizing Std

variable {g : Netlist} {K L : Set Expr} {next : Nat}

/-- A result of sizing against the plain one. -/
def Fits (e : Expr) (L : Set Expr) (r t : Expr × Nat) : Prop :=
  r.1 ∈ L ∧ r.1.shape = t.1.shape ∧ r.2 = t.2 ∧ (e.Integerless → r.1 = e)

structure SizeRight (g : Netlist) (K : Set Expr) (memo : SizeMemo) : Prop where
  own : ∀ node width, memo.own[node]? = some width →
    ∃ e ∈ K, e.node = node ∧ e.natural g.declared = some width
  sized : ∀ node width r, lookupSized memo node width = some r →
    ∃ e ∈ K, e.node = node ∧ ∃ t, e.fitted g.declared width = some t ∧ Fits e K r t

theorem fits_mono {e : Expr} {r t : Expr × Nat} (sub : K ⊆ L) (fits : Fits e K r t) :
    Fits e L r t :=
  ⟨sub fits.1, fits.2⟩

theorem sizeRight_mono {memo : SizeMemo} (sub : K ⊆ L) (here : SizeRight g K memo) :
    SizeRight g L memo where
  own node width kept := by
    obtain ⟨e, member, same, found⟩ := here.own node width kept
    exact ⟨e, sub member, same, found⟩
  sized node width r kept := by
    obtain ⟨e, member, same, t, found, fits⟩ := here.sized node width r kept
    exact ⟨e, sub member, same, t, found, fits_mono sub fits⟩

theorem sizeRight_empty : SizeRight g K ⟨{}, {}⟩ where
  own node width kept := by simp at kept
  sized node width r kept := by simp [lookupSized] at kept

theorem rememberOwn_eq (node : Nat) (find : Sizing (Option Nat)) : rememberOwn node find =
    remembering (·.own[node]?) (fun width memo => { memo with own := memo.own.insert node width })
      find := by
  refine bind_congr fun memo => ?_
  dsimp only
  cases memo.own[node]? <;> rfl

theorem rememberSized_eq (node width : Nat) (find : Sizing (Expr × Nat)) :
    rememberSized node width find = remembering (lookupSized · node width) (fun done memo =>
      { memo with sized := memo.sized.insert node ((width, done) :: memo.sized.getD node []) })
        find := by
  refine bind_congr fun memo => ?_
  dsimp only
  cases lookupSized memo node width <;> rfl

theorem rememberOwn_builds {e : Expr} (member : e ∈ K) {find : Sizing (Option Nat)}
    (found : BuildsWith (SizeRight g) K find (e.natural g.declared) fun _ a b => a = b) :
    BuildsWith (SizeRight g) K (rememberOwn e.node find) (e.natural g.declared)
      fun _ a b => a = b := by
  rw [rememberOwn_eq]
  refine buildsWith_remembering ?_ ?_ found
  · intro L memo n width sub sharing here known
    obtain ⟨f, inside, same, plain⟩ := here.own e.node width known
    obtain rfl := sharing.one_node f inside e (sub member) same
    exact ⟨width, plain, rfl⟩
  · rintro L memo a _ sub plain kept rfl
    refine ⟨fun node width listed => ?_, kept.sized⟩
    rw [TreeMap.getElem?_insert] at listed
    by_cases same : e.node = node
    · simp only [same, LawfulEqCmp.compare_eq_iff_eq, ↓reduceIte, Option.some.injEq] at listed
      exact ⟨e, sub member, same, listed ▸ plain⟩
    · rw [if_neg (by simpa using same)] at listed
      exact kept.own node width listed

theorem lookupSized_insert {memo : SizeMemo} {node width node' width' : Nat} {done : Expr × Nat} :
    lookupSized { memo with
        sized := memo.sized.insert node ((width, done) :: memo.sized.getD node []) } node' width' =
      if node = node' ∧ width = width' then some done else lookupSized memo node' width' := by
  simp only [lookupSized, TreeMap.getD_insert, LawfulEqCmp.compare_eq_iff_eq]
  by_cases same : node = node'
  · subst same
    by_cases fit : width = width'
    · simp [fit]
    · have other : (width' == width) = false := by simpa using Ne.symm fit
      simp [fit, List.lookup_cons, other]
  · simp [same]

theorem rememberSized_builds {e : Expr} (member : e ∈ K) (width : Nat)
    {find : Sizing (Expr × Nat)}
    (found : BuildsWith (SizeRight g) K find (e.fitted g.declared width) (Fits e)) :
    BuildsWith (SizeRight g) K (rememberSized e.node width find) (e.fitted g.declared width)
      (Fits e) := by
  rw [rememberSized_eq]
  refine buildsWith_remembering ?_ ?_ found
  · intro L memo n r sub sharing here known
    obtain ⟨f, inside, same, t, plain, fits⟩ := here.sized e.node width r known
    obtain rfl := sharing.one_node f inside e (sub member) same
    exact ⟨t, plain, fits⟩
  · intro L memo r t sub plain kept fits
    refine ⟨kept.own, fun node width' r' listed => ?_⟩
    rw [lookupSized_insert] at listed
    split at listed
    · obtain ⟨rfl, rfl⟩ := ‹e.node = node ∧ width = width'›
      cases listed
      exact ⟨e, sub member, rfl, t, plain, fits⟩
    · exact kept.sized node width' r' listed

theorem declared_leaf (leaf : LeafId) :
    g.declared (.leaf leaf) = (g.leaf leaf).toOption.map (·.width) := by
  simp only [Netlist.declared, Netlist.widthOf, Netlist.widthWithin]
  cases g.leaf leaf <;> rfl

/-- A measure of what is looked up, which plain sizing finds where the look-up succeeds. -/
theorem askSome_builds {α : Type} (r : Except NetlistError α) (measure : α → Nat) :
    BuildsWith (SizeRight g) K (do return some (measure (← Sizing.ask r)))
      (do return some (← r.toOption.map measure)) fun _ a b => a = b := by
  intro L sub memo n here sharing
  cases r with
  | error x => exact ⟨x, rfl⟩
  | ok a => exact ⟨some (measure a), memo, n, L, rfl, subset_rfl, sharing, here, rfl⟩

theorem askWidth_builds (target : Ref) :
    BuildsWith (SizeRight g) K (do return some (← Sizing.ask (g.widthOf target)))
      (do return some (← g.declared target)) fun _ a b => a = b := by
  have asked := askSome_builds (g := g) (K := K) (g.widthOf target) id
  rw [Option.map_id] at asked
  exact asked

theorem askLeaf_builds (leaf : LeafId) :
    BuildsWith (SizeRight g) K (do return some (← Sizing.ask (g.leaf leaf)).width)
      (do return some (← g.declared (.leaf leaf))) fun _ a b => a = b := by
  rw [declared_leaf]
  exact askSome_builds (g.leaf leaf) (·.width)

/-- A width found by the netlist is the one that plain sizing finds. -/
abbrev FindsWidth (g : Netlist) (K : Set Expr) (m : Sizing (Option Nat))
    (p : Option (Option Nat)) : Prop :=
  BuildsWith (SizeRight g) K m p fun _ a b => a = b

theorem ownWidths_builds {es : List Expr}
    (each : ∀ a ∈ es, FindsWidth g K (ownWidth g a) (a.natural g.declared)) :
    BuildsWith (SizeRight g) K (ownWidths g es) (naturals g.declared es) fun _ a b => a = b := by
  induction es with
  | nil => exact buildsWith_pure fun _ _ => rfl
  | cons e rest ih =>
    simp only [ownWidths, naturals]
    refine buildsWith_bind (each e (by simp)) ?_
    rintro L width _ sub rfl
    cases width with
    | none => exact buildsWith_fail fun memo n => ⟨_, rfl⟩
    | some width =>
      refine buildsWith_bind (buildsWith_mono (ih fun a later => each a (by simp [later])) sub) ?_
      rintro L' total _ sub' rfl
      exact buildsWith_pure fun _ _ => rfl

theorem joinWidths_builds {a b : Expr}
    (left : FindsWidth g K (ownWidth g a) (a.natural g.declared))
    (right : FindsWidth g K (ownWidth g b) (b.natural g.declared)) :
    FindsWidth g K (do return joinWidths (← ownWidth g a) (← ownWidth g b))
      (do return joinWidths (← a.natural g.declared) (← b.natural g.declared)) := by
  refine buildsWith_bind left ?_
  rintro L m _ sub rfl
  refine buildsWith_bind (buildsWith_mono right sub) ?_
  rintro L' n _ sub' rfl
  exact buildsWith_pure fun _ _ => rfl

theorem ownWidth_builds (sharing : Sharing K next) (e : Expr) :
    e ∈ K → FindsWidth g K (ownWidth g e) (e.natural g.declared) := by
  induction e using operand_induction with
  | step e ih =>
    intro member
    have operand : ∀ a ∈ e.children, FindsWidth g K (ownWidth g a) (a.natural g.declared) :=
      fun a below => ih a below (sharing.operands e member a below)
    have remembered : ∀ find, FindsWidth g K find (e.natural g.declared) →
        FindsWidth g K (rememberOwn e.node find) (e.natural g.declared) :=
      fun find => rememberOwn_builds member
    have known : ∀ width, FindsWidth g K (pure width) (some width) :=
      fun width => buildsWith_pure fun _ _ => rfl
    cases e with
    | signal node leaf => exact askLeaf_builds leaf
    | unassigned node leaf => exact askLeaf_builds leaf
    | read node target => exact remembered _ (askWidth_builds target)
    | literal node value => exact remembered _ (known _)
    | integer node value => exact known _
    | unary node op a =>
      refine remembered _ ?_
      simp only [natural]
      split
      · exact known _
      · exact operand a (by simp [children])
    | binary node op a b =>
      refine remembered _ ?_
      simp only [natural]
      split
      · exact known _
      · split
        · exact operand a (by simp [children])
        · exact joinWidths_builds (operand a (by simp [children])) (operand b (by simp [children]))
    | mux node c t f =>
      exact remembered _
        (joinWidths_builds (operand t (by simp [children])) (operand f (by simp [children])))
    | concat node parts =>
      refine remembered _ (buildsWith_bind (ownWidths_builds operand) ?_)
      rintro L total _ sub rfl
      exact buildsWith_pure fun _ _ => rfl
    | slice node a high low => exact known _
    | extend node a width signed => exact known _
    | caseMatch node s p wildcard => exact known _

theorem neededWidth_builds {e : Expr}
    (own : FindsWidth g K (ownWidth g e) (e.natural g.declared)) :
    BuildsWith (SizeRight g) K (neededWidth g e) (e.needed g.declared) fun _ a b => a = b := by
  refine buildsWith_bind own ?_
  rintro L width _ sub rfl
  cases width with
  | none => exact buildsWith_fail fun memo n => ⟨_, rfl⟩
  | some width => exact buildsWith_pure fun _ _ => rfl

theorem integerless_operand {e a : Expr} (free : e.Integerless) (operand : a ∈ e.children) :
    a.Integerless :=
  (all_iff.mp free).2 a operand

/-- How the operands of a node were sized, each against its plain sizing. -/
abbrev AllFit (es : List Expr) (L : Set Expr) (fits : List ((Expr × Nat) × (Expr × Nat))) : Prop :=
  List.Forall₂ (fun a r => Fits a L r.1 r.2) es fits

theorem allFit_mono {es : List Expr} {fits : List ((Expr × Nat) × (Expr × Nat))} (sub : K ⊆ L)
    (here : AllFit es K fits) : AllFit es L fits :=
  here.imp fun _ _ => fits_mono sub

theorem allFit_sized {es : List Expr} {fits : List ((Expr × Nat) × (Expr × Nat))}
    (here : AllFit es K fits) : (∀ s ∈ fits.map (·.1.1), s ∈ K) ∧
      (fits.map (·.1.1)).map shape = (fits.map (·.2.1)).map shape ∧
      ((∀ a ∈ es, a.Integerless) → fits.map (·.1.1) = es) := by
  induction here with
  | nil => simp
  | cons first _ ih =>
    obtain ⟨inside, alike, -, old⟩ := first
    obtain ⟨insides, alikes, olds⟩ := ih
    refine ⟨List.forall_mem_cons.mpr ⟨inside, insides⟩, ?_, fun free => ?_⟩
    · exact congrArg₂ List.cons alike alikes
    · obtain ⟨here, later⟩ := List.forall_mem_cons.mp free
      exact congrArg₂ List.cons (old here) (olds later)

/-- The last step of sizing a node: the node over its sized operands. -/
theorem keep_builds {e : Expr} (member : e ∈ K) (fits : List ((Expr × Nat) × (Expr × Nat)))
    (operands : AllFit e.children K fits) (width : Nat) :
    BuildsWith (SizeRight g) K (do return (← Sizing.keep e (fits.map (·.1.1)), width))
      (some (e.withChildren e.node (fits.map (·.2.1)), width)) (Fits e) := by
  obtain ⟨inside, alike, old⟩ := allFit_sized operands
  have length := operands.length_eq.symm
  have kept : BuildsWith (SizeRight g) K (Sizing.keep e (fits.map (·.1.1))) (some ()) fun L s _ =>
      s ∈ L ∧ (fits.map (·.1.1) = e.children ∧ s = e ∨ fits.map (·.1.1) ≠ e.children ∧ s ∉ K ∧
        ∃ n, s = e.withChildren n (fits.map (·.1.1))) :=
    buildsWith_lift (fun _ _ _ => sizeRight_mono)
      (rebuild_builds member inside ((List.length_map _).trans length))
  refine buildsWith_bind kept
    (q := fun _ => some (e.withChildren e.node (fits.map (·.2.1)), width)) ?_
  rintro L s _ sub ⟨made, built⟩
  refine buildsWith_pure fun L' sub' => ⟨sub' made, ?_, rfl, fun free => ?_⟩
  · rw [rebuilt_shape ((List.length_map _).trans length) built,
      shape_withChildren e _ _ ((List.length_map _).trans length),
      shape_withChildren e _ _ ((List.length_map _).trans length), alike]
  · rcases built with ⟨-, same⟩ | ⟨other, -⟩
    · exact same
    · exact (other (old fun a operand => integerless_operand free operand)).elim

/-- A node with one operand is sized by sizing the operand. -/
theorem fitOne_builds {e a : Expr} {w : Nat} (member : e ∈ K) (only : e.children = [a])
    (width : Nat → Nat)
    (fits : BuildsWith (SizeRight g) K (fit g a w) (a.fitted g.declared w) (Fits a)) :
    BuildsWith (SizeRight g) K
      (do
        let r ← fit g a w
        return (← Sizing.keep e [r.1], width r.2))
      (do
        let r ← a.fitted g.declared w
        return (e.withChildren e.node [r.1], width r.2)) (Fits e) := by
  refine buildsWith_bind fits ?_
  rintro L ⟨s, sw⟩ ⟨t, _⟩ sub ⟨inside, alike, rfl, old⟩
  exact keep_builds (sub member) [((s, sw), (t, sw))]
    (only ▸ .cons ⟨inside, alike, rfl, old⟩ .nil) (width sw)

/-- Two operands are sized for the widths that they share. -/
theorem fitPair_builds {a b : Expr} (context : Nat)
    (own : ∀ L, K ⊆ L → FindsWidth g L (ownWidth g a) (a.natural g.declared))
    (own' : ∀ L, K ⊆ L → FindsWidth g L (ownWidth g b) (b.natural g.declared))
    (left : ∀ L, K ⊆ L → ∀ width,
      BuildsWith (SizeRight g) L (fit g a width) (a.fitted g.declared width) (Fits a))
    (right : ∀ L, K ⊆ L → ∀ width,
      BuildsWith (SizeRight g) L (fit g b width) (b.fitted g.declared width) (Fits b))
    {rest : Expr × Nat → Expr × Nat → Sizing (Expr × Nat)}
    {rest' : Expr × Nat → Expr × Nat → Option (Expr × Nat)} {e : Expr}
    (join : ∀ L s s' t t' w w', K ⊆ L → Fits a L (s, w) (t, w) → Fits b L (s', w') (t', w') →
      BuildsWith (SizeRight g) L (rest (s, w) (s', w')) (rest' (t, w) (t', w')) (Fits e)) :
    BuildsWith (SizeRight g) K
      (do
        let widths := pairWidths a b context (← ownWidth g a) (← ownWidth g b)
        let x ← fit g a widths.1
        let y ← fit g b widths.2
        rest x y)
      (do
        let widths := pairWidths a b context (← a.natural g.declared) (← b.natural g.declared)
        let x ← a.fitted g.declared widths.1
        let y ← b.fitted g.declared widths.2
        rest' x y) (Fits e) := by
  refine buildsWith_bind (own K subset_rfl) ?_
  rintro L₁ w _ sub₁ rfl
  refine buildsWith_bind (own' L₁ sub₁) ?_
  rintro L₂ w' _ sub₂ rfl
  refine buildsWith_bind (left L₂ (sub₁.trans sub₂) _) ?_
  rintro L₃ ⟨s, sw⟩ ⟨t, _⟩ sub₃ ⟨inside, alike, rfl, old⟩
  have sub := (sub₁.trans sub₂).trans sub₃
  refine buildsWith_bind (right L₃ sub _) ?_
  rintro L₄ ⟨s', sw'⟩ ⟨t', _⟩ sub₄ ⟨inside', alike', rfl, old'⟩
  exact join L₄ s s' t t' sw sw' (sub.trans sub₄) ⟨sub₄ inside, alike, rfl, old⟩
    ⟨inside', alike', rfl, old'⟩

theorem fitParts_builds {es : List Expr}
    (own : ∀ a ∈ es, FindsWidth g K (ownWidth g a) (a.natural g.declared))
    (each : ∀ a ∈ es, ∀ width,
      BuildsWith (SizeRight g) K (fit g a width) (a.fitted g.declared width) (Fits a)) :
    BuildsWith (SizeRight g) K (fitParts g es) (fittedParts g.declared es) fun L r t =>
      ∃ fits, AllFit es L fits ∧ r.1 = fits.map (·.1.1) ∧ t.1 = fits.map (·.2.1) ∧ r.2 = t.2 := by
  induction es with
  | nil => exact buildsWith_pure fun _ _ => ⟨[], .nil, rfl, rfl, rfl⟩
  | cons e rest ih =>
    simp only [fitParts, fittedParts]
    refine buildsWith_bind (neededWidth_builds (own e (by simp))) ?_
    rintro L width _ sub rfl
    refine buildsWith_bind (buildsWith_mono (each e (by simp) width) sub) ?_
    rintro L₁ ⟨s, sw⟩ ⟨t, _⟩ sub₁ ⟨inside, alike, rfl, old⟩
    have later := ih (fun a member => own a (by simp [member]))
      (fun a member => each a (by simp [member]))
    refine buildsWith_bind (buildsWith_mono later (sub.trans sub₁)) ?_
    rintro L₂ ⟨_, total⟩ ⟨_, _⟩ sub₂ ⟨fits, all, rfl, rfl, rfl⟩
    refine buildsWith_pure fun L₃ sub₃ => ⟨((s, sw), (t, sw)) :: fits, ?_, rfl, rfl, rfl⟩
    exact .cons ⟨sub₃ (sub₂ inside), alike, rfl, old⟩ (allFit_mono sub₃ all)

theorem fit_builds (sharing : Sharing K next) (e : Expr) : e ∈ K → ∀ width,
    BuildsWith (SizeRight g) K (fit g e width) (e.fitted g.declared width) (Fits e) := by
  induction e using operand_induction with
  | step e ih =>
    intro member width
    have within : ∀ a ∈ e.children, a ∈ K := sharing.operands e member
    have own : ∀ a ∈ e.children, ∀ L, K ⊆ L →
        FindsWidth g L (ownWidth g a) (a.natural g.declared) :=
      fun a below L sub => buildsWith_mono (ownWidth_builds sharing a (within a below)) sub
    have operand : ∀ a ∈ e.children, ∀ L, K ⊆ L → ∀ width,
        BuildsWith (SizeRight g) L (fit g a width) (a.fitted g.declared width) (Fits a) :=
      fun a below L sub width => buildsWith_mono (ih a below (within a below) width) sub
    have remembered : ∀ find,
        BuildsWith (SizeRight g) K find (e.fitted g.declared width) (Fits e) →
        BuildsWith (SizeRight g) K (rememberSized e.node width find) (e.fitted g.declared width)
          (Fits e) :=
      fun find => rememberSized_builds member width
    have atom : BuildsWith (SizeRight g) K (pure (e, width) : Sizing (Expr × Nat))
        (some (e, width)) (Fits e) :=
      buildsWith_pure fun L sub => ⟨sub member, rfl, rfl, fun _ => rfl⟩
    cases e with
    | signal | literal | read | unassigned => exact atom
    | integer node value =>
      refine remembered _ ?_
      have made : BuildsWith (SizeRight g) K
          (Sizing.build (Build.literal (.ofInt width value))) (some ()) fun L s _ =>
          s ∈ L ∧ s ∉ K ∧ ∃ n, s = .literal n (.ofInt width value) :=
        buildsWith_lift (fun _ _ _ => sizeRight_mono)
          (builds_node (fun _ => rfl) (by simp [children]))
      simp only [fitted]
      refine buildsWith_bind made
        (q := fun _ => some (literal node (.ofInt width value), width)) ?_
      rintro L s _ sub ⟨inside, -, n, rfl⟩
      refine buildsWith_pure fun L' sub' => ⟨sub' inside, rfl, rfl, fun free => ?_⟩
      cases free _ (.root _)
    | unary node op a =>
      have fits := operand a (by simp [children])
      refine remembered _ ?_
      simp only [fitted]
      split
      · refine buildsWith_bind (neededWidth_builds (own a (by simp [children]) K subset_rfl)) ?_
        rintro L w _ sub rfl
        exact fitOne_builds (sub member) rfl (fun _ => 1) (fits L sub w)
      · exact fitOne_builds member rfl id (fits K subset_rfl width)
    | binary node op a b =>
      have left := operand a (by simp [children])
      have right := operand b (by simp [children])
      have own' := own b (by simp [children])
      refine remembered _ ?_
      simp only [fitted]
      split
      · refine buildsWith_bind (left K subset_rfl width) ?_
        rintro L₁ ⟨s, sw⟩ ⟨t, _⟩ sub₁ ⟨inside, alike, rfl, old⟩
        refine buildsWith_bind (own' L₁ sub₁) ?_
        rintro L₂ w _ sub₂ rfl
        refine buildsWith_bind (right L₂ (sub₁.trans sub₂) _) ?_
        rintro L₃ r r' sub₃ fits
        have first := fits_mono (sub₂.trans sub₃) ⟨inside, alike, rfl, old⟩
        exact keep_builds (sub₃ (sub₂ (sub₁ member))) [((s, sw), (t, sw)), (r, r')]
          (.cons first (.cons fits .nil)) sw
      · refine fitPair_builds _ (own a (by simp [children])) own' left right ?_
        intro L s s' t t' w w' sub one one'
        by_cases differ : w ≠ w' ∧ w ≠ 1 ∧ w' ≠ 1
        · simp only [if_pos differ]
          exact buildsWith_fail fun memo n => ⟨_, rfl⟩
        · simp only [if_neg differ]
          exact keep_builds (sub member) [((s, w), (t, w)), ((s', w'), (t', w'))]
            (.cons one (.cons one' .nil)) _
    | mux node c t f =>
      refine remembered _ ?_
      simp only [fitted]
      refine buildsWith_bind (own c (by simp [children]) K subset_rfl) ?_
      rintro L₁ w _ sub₁ rfl
      refine buildsWith_bind (operand c (by simp [children]) L₁ sub₁ _) ?_
      rintro L₂ ⟨s, sw⟩ ⟨p, _⟩ sub₂ ⟨inside, alike, rfl, old⟩
      by_cases bit : sw ≠ 1
      · simp only [if_pos bit]
        exact buildsWith_fail fun memo n => ⟨_, rfl⟩
      simp only [if_neg bit]
      have sub := sub₁.trans sub₂
      refine fitPair_builds _ (fun L later => own t (by simp [children]) L (sub.trans later))
        (fun L later => own f (by simp [children]) L (sub.trans later))
        (fun L later => operand t (by simp [children]) L (sub.trans later))
        (fun L later => operand f (by simp [children]) L (sub.trans later)) ?_
      intro L s' s'' p' p'' w' w'' later one' one''
      by_cases differ : w' ≠ w''
      · simp only [if_pos differ]
        exact buildsWith_fail fun memo n => ⟨_, rfl⟩
      simp only [if_neg differ]
      exact keep_builds (later (sub member))
        [((s, sw), (p, sw)), ((s', w'), (p', w')), ((s'', w''), (p'', w''))]
        (.cons ⟨later inside, alike, rfl, old⟩ (.cons one' (.cons one'' .nil))) w'
    | concat node parts =>
      refine remembered _ ?_
      simp only [fitted]
      refine buildsWith_bind (fitParts_builds (fun a below => own a below K subset_rfl)
        fun a below width => operand a below K subset_rfl width) ?_
      rintro L ⟨_, total⟩ ⟨_, _⟩ sub ⟨fits, all, rfl, rfl, rfl⟩
      exact keep_builds (sub member) fits all total
    | slice node a high low =>
      refine remembered _ ?_
      simp only [fitted]
      refine buildsWith_bind (neededWidth_builds (own a (by simp [children]) K subset_rfl)) ?_
      rintro L w _ sub rfl
      by_cases outside : high < low ∨ w ≤ high
      · simp only [if_pos outside]
        exact buildsWith_fail fun memo n => ⟨_, rfl⟩
      simp only [if_neg outside]
      exact fitOne_builds (sub member) rfl (fun _ => high - low + 1)
        (operand a (by simp [children]) L sub w)
    | extend node a target signed =>
      refine remembered _ ?_
      simp only [fitted]
      refine buildsWith_bind (own a (by simp [children]) K subset_rfl) ?_
      rintro L w _ sub rfl
      by_cases narrow : target < w.getD target
      · simp only [if_pos narrow]
        exact buildsWith_fail fun memo n => ⟨_, rfl⟩
      simp only [if_neg narrow]
      exact fitOne_builds (sub member) rfl (fun _ => target)
        (operand a (by simp [children]) L sub _)
    | caseMatch node a b wildcard =>
      refine remembered _ ?_
      simp only [fitted]
      refine fitPair_builds _ (own a (by simp [children])) (own b (by simp [children]))
        (operand a (by simp [children])) (operand b (by simp [children])) ?_
      intro L s s' t t' w w' sub one one'
      by_cases differ : w ≠ w'
      · simp only [if_pos differ]
        exact buildsWith_fail fun memo n => ⟨_, rfl⟩
      simp only [if_neg differ]
      exact keep_builds (sub member) [((s, w), (t, w)), ((s', w'), (t', w'))]
        (.cons one (.cons one' .nil)) 1

/-- Sizing by a netlist gives what plain sizing gives, up to node numbers. -/
theorem sizeFor_builds (sharing : Sharing K next) {e : Expr} (member : e ∈ K)
    (context : Option Nat) :
    Builds K (g.sizeFor e context) (e.sized g.declared context) (Fits e) := by
  have run : BuildsWith (SizeRight g) K (Sizing.size g e context) (e.sized g.declared context)
      (Fits e) := by
    refine buildsWith_bind (ownWidth_builds sharing e member) ?_
    rintro L width _ sub rfl
    cases width with
    | some width => exact buildsWith_mono (fit_builds sharing e member width) sub
    | none => exact buildsWith_mono (fit_builds sharing e member _) sub
  intro L sub n shared
  have done := run L sub ⟨{}, {}⟩ n sizeRight_empty shared
  cases plain : e.sized g.declared context with
  | none =>
    rw [plain] at done
    obtain ⟨x, done⟩ := done
    exact ⟨x, by simp [Netlist.sizeFor, StateT.run, done, Functor.map, StateT.map, bind,
      Except.bind]⟩
  | some t =>
    rw [plain] at done
    obtain ⟨r, memo, n', L', done, grown, still, -, fits⟩ := done
    exact ⟨r, n', L', by simp [Netlist.sizeFor, StateT.run, done, Functor.map, StateT.map, bind,
      Except.bind, pure, Except.pure], grown, still, fits⟩

end CombLogic
