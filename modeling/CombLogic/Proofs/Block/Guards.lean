import CombLogic.Proofs.Block.Items

/- The conditions that are built around the branches of a block: guards of branches, and the conditions
   that are watched. Each of them is 1 exactly where every bit that it was built from is what it has to
   be, however little is known of any other bit. -/
namespace CombLogic

open Expr

namespace Value

theorem align_width {operation : String} {a b a' b' : Value}
    (aligned : align operation a b = .ok (a', b')) : a'.width = b'.width := by
  unfold align at aligned
  split at aligned
  · cases aligned
    assumption
  · split at aligned <;> cases aligned <;> simp

/-- Operands that come out as one bit each are what they were. -/
theorem align_single {operation : String} {a b a' b' : Value}
    (aligned : align operation a b = .ok (a', b')) (narrow : a'.width = 1) : a = a' ∧ b = b' := by
  have same := align_width aligned
  by_cases apart : a.width = b.width
  · cases (align_same operation apart).symm.trans aligned
    exact ⟨rfl, rfl⟩
  · unfold align at aligned
    rw [if_neg apart] at aligned
    split at aligned
    · rename_i bit here
      have single := single_bit.mpr ⟨bit, here⟩
      cases aligned
      omega
    · rename_i bit here _
      have single := single_bit.mpr ⟨bit, here⟩
      cases aligned
      omega
    · cases aligned

/-- A gate that gives some bit for one pair of bits only, which is that bit twice. -/
theorem bitwise_single {operation : String} {f : Bit → Bit → Bit} {bit : Bit}
    (only : ∀ p q, f p q = bit ↔ p = bit ∧ q = bit) (v w : Value) :
    bitwise operation f v w = .ok (ofBit bit) ↔ v = ofBit bit ∧ w = ofBit bit := by
  constructor
  · intro done
    obtain ⟨⟨a, b⟩, aligned, done⟩ := bind_ok done
    have made : List.zipWith f a.bits b.bits = [bit] := congrArg bits (Except.ok.inj done)
    have same := align_width aligned
    have narrow : a.width = 1 := by
      have length := congrArg List.length made
      simp only [List.length_zipWith, List.length_singleton] at length
      simp only [width] at same ⊢
      omega
    obtain ⟨rfl, rfl⟩ := align_single aligned narrow
    obtain ⟨p, left⟩ := single_bit.mp narrow
    obtain ⟨q, right⟩ := single_bit.mp (same.symm.trans narrow)
    rw [left, right] at made
    obtain ⟨rfl, rfl⟩ := (only p q).mp (List.head_eq_of_cons_eq made)
    exact ⟨congrArg mk left, congrArg mk right⟩
  · rintro ⟨rfl, rfl⟩
    simp [bitwise, align, ofBit, (only bit bit).mpr ⟨rfl, rfl⟩, bind, Except.bind, pure, Except.pure]

theorem and_true (v w : Value) :
    v.and w = .ok (ofBool true) ↔ v = ofBool true ∧ w = ofBool true :=
  bitwise_single (by intro p q; cases p <;> cases q <;> decide) v w

theorem or_false (v w : Value) :
    v.or w = .ok (ofBool false) ↔ v = ofBool false ∧ w = ofBool false :=
  bitwise_single (by intro p q; cases p <;> cases q <;> decide) v w

theorem not_single (v : Value) (bit : Bool) : v.not = ofBool bit ↔ v = ofBool !bit := by
  have turned : ∀ b : Bit, b.not = .ofBool bit ↔ b = .ofBool !bit := by
    intro b
    cases b <;> cases bit <;> decide
  obtain ⟨bits⟩ := v
  simp [not, ofBool, ofBit, List.map_eq_singleton_iff, turned]

end Value

/-- An expression has a known bit for a value. -/
def Is (env : Env) (e : Expr) (bit : Bool) : Prop := e.value env = .ok (.ofBool bit)

/-- An expression that is assigned where others are, that has a value only where all of them have one,
    and that is a certain bit exactly where each of them is a certain bit. -/
structure Needs (facts : List (Expr × Bool)) (e : Expr) (bit : Bool) : Prop where
  assigned : e.Assigned ↔ ∀ p ∈ facts, p.1.Assigned
  defined : ∀ env v, e.value env = .ok v → ∀ p ∈ facts, ∃ w, p.1.value env = .ok w
  value : ∀ env, Is env e bit ↔ ∀ p ∈ facts, Is env p.1 p.2

section

variable {K L : Set Expr} {facts facts' : List (Expr × Bool)} {p q e found : Expr} {n : Nat}

theorem needs_self (e : Expr) (bit : Bool) : Needs [(e, bit)] e bit where
  assigned := by simp
  defined env v found := by simp [found]
  value := by simp

/-- Two conditions joined by a gate that has this bit where both of them have it, and only there. -/
theorem needs_pair {op : BinaryOp} {bit : Bool}
    (only : ∀ v w, op.apply v w = .ok (.ofBool bit) ↔ v = .ofBool bit ∧ w = .ofBool bit)
    (left : Needs facts p bit) (right : Needs facts' q bit) :
    Needs (facts ++ facts') (.binary n op p q) bit where
  assigned := by
    rw [assigned_binary, left.assigned, right.assigned, List.forall_mem_append]
  defined env r found fact listed := by
    obtain ⟨v, w, here, there, -⟩ := value_binary.mp found
    rcases List.mem_append.mp listed with first | second
    · exact left.defined env v here fact first
    · exact right.defined env w there fact second
  value env := by
    rw [List.forall_mem_append, ← left.value, ← right.value]
    unfold Is
    rw [value_binary]
    constructor
    · rintro ⟨v, w, here, there, done⟩
      obtain ⟨rfl, rfl⟩ := (only v w).mp done
      exact ⟨here, there⟩
    · rintro ⟨here, there⟩
      exact ⟨_, _, here, there, (only _ _).mpr ⟨rfl, rfl⟩⟩

theorem needs_and (left : Needs facts p true) (right : Needs facts' q true) :
    Needs (facts ++ facts') (.binary n .and p q) true :=
  needs_pair Value.and_true left right

theorem needs_or (left : Needs facts p false) (right : Needs facts' q false) :
    Needs (facts ++ facts') (.binary n .or p q) false :=
  needs_pair Value.or_false left right

theorem needs_not {bit : Bool} (operand : Needs facts e !bit) :
    Needs facts (.unary n .not e) bit where
  assigned := by rw [assigned_unary, operand.assigned]
  defined env v found := by
    obtain ⟨w, here, -⟩ := value_unary.mp found
    exact operand.defined env w here
  value env := by
    rw [← operand.value]
    unfold Is
    rw [value_unary]
    constructor
    · rintro ⟨v, here, done⟩
      exact (Value.not_single v bit).mp done ▸ here
    · intro here
      exact ⟨_, here, (Value.not_single _ bit).mpr rfl⟩

theorem needs_literal (bit : Bool) : Needs [] (.literal n (.ofBool bit)) bit where
  assigned := iff_of_true (all_iff.mpr ⟨rfl, by simp [children]⟩) (by simp)
  defined := by simp
  value env := by simp [Is, Expr.value, valueOn]

theorem unary_fits {op : UnaryOp} (operand : Fit K e) :
    Makes (ε := ε) K (Build.unary op e) fun L r => Fit L r ∧ ∃ n, r = .unary n op e := by
  refine makes_weaken (makes_node (fun _ => rfl) fun n a member => ?_) ?_
  · obtain rfl : a = e := by simpa [children] using member
    exact operand.1
  · rintro L r - ⟨inside, n, rfl⟩
    refine ⟨⟨inside, all_iff.mpr ⟨rfl, fun a member => ?_⟩⟩, n, rfl⟩
    obtain rfl : a = e := by simpa [children] using member
    exact operand.2

theorem literal_fits (value : Value) :
    Makes (ε := ε) K (Build.literal value) fun L r => Fit L r ∧ ∃ n, r = .literal n value := by
  refine makes_weaken (makes_node (fun _ => rfl) (by simp [children])) ?_
  rintro L r - ⟨inside, n, rfl⟩
  exact ⟨⟨inside, all_iff.mpr ⟨rfl, by simp [children]⟩⟩, n, rfl⟩

theorem concat_fits {parts : List Expr} (fits : ∀ e ∈ parts, Fit K e) :
    Makes (ε := ε) K (Build.concat parts) fun L r => Fit L r ∧ ∃ n, r = .concat n parts := by
  refine makes_weaken (makes_node (fun _ => rfl) fun n a member => (fits a member).1) ?_
  rintro L r - ⟨inside, n, rfl⟩
  exact ⟨⟨inside, all_iff.mpr ⟨rfl, fun a member => (fits a member).2⟩⟩, n, rfl⟩

/-- What an earlier condition is: 0 exactly where none of the items before matches. -/
def Earlier (K : Set Expr) (before : List Expr) : Option Expr → Prop
  | none => before = []
  | some e => Fit K e ∧ Needs (before.map (·, false)) e false

theorem earlier_mono {before : List Expr} {earlier : Option Expr} (sub : K ⊆ L)
    (holds : Earlier K before earlier) : Earlier L before earlier := by
  cases earlier with
  | none => exact holds
  | some e => exact ⟨fit_mono sub holds.1, holds.2⟩

variable {before : List Expr} {earlier : Option Expr}

theorem itemGuard_makes (fit : Fit K found) (holds : Earlier K before earlier) :
    Makes K (Executing.itemGuard found earlier) fun L e =>
      Fit L e ∧ Needs ((found, true) :: before.map (·, false)) e true := by
  cases earlier with
  | none =>
    obtain rfl : before = [] := holds
    exact makes_pure fun L sub => ⟨fit_mono sub fit, needs_self found true⟩
  | some e =>
    obtain ⟨inside, needs⟩ := holds
    refine makes_bind (unary_fits inside) ?_
    rintro L fails sub ⟨fitted, n, rfl⟩
    refine makes_weaken (binary_fits (fit_mono sub fit) fitted) ?_
    rintro L' guard - ⟨fitted', m, rfl⟩
    exact ⟨fitted', needs_and (needs_self found true) (needs_not needs)⟩

theorem orEarlier_makes (fit : Fit K found) (holds : Earlier K before earlier) :
    Makes K (Executing.orEarlier found earlier) fun L e =>
      Earlier L (before ++ [found]) (some e) := by
  cases earlier with
  | none =>
    obtain rfl : before = [] := holds
    exact makes_pure fun L sub => ⟨fit_mono sub fit, needs_self found false⟩
  | some e =>
    obtain ⟨inside, needs⟩ := holds
    refine makes_weaken (binary_fits inside fit) ?_
    rintro L' joint - ⟨fitted', m, rfl⟩
    refine ⟨fitted', ?_⟩
    simpa using needs_or needs (needs_self found false)

theorem defaultGuard_makes (holds : Earlier K before earlier) :
    Makes K (Executing.defaultGuard earlier) fun L e =>
      Fit L e ∧ Needs (before.map (·, false)) e true := by
  cases earlier with
  | none =>
    obtain rfl : before = [] := holds
    refine makes_weaken (literal_fits _) ?_
    rintro L e - ⟨fitted, n, rfl⟩
    exact ⟨fitted, needs_literal true⟩
  | some e =>
    obtain ⟨inside, needs⟩ := holds
    refine makes_weaken (unary_fits inside) ?_
    rintro L e - ⟨fitted, n, rfl⟩
    exact ⟨fitted, needs_not needs⟩

/-- Only what the facts are matters. -/
theorem needs_same {bit : Bool} (needs : Needs facts e bit) (same : ∀ p, p ∈ facts' ↔ p ∈ facts) :
    Needs facts' e bit where
  assigned := by simp only [needs.assigned, same]
  defined env v found p listed := needs.defined env v found p ((same p).mp listed)
  value env := by simp only [needs.value, same]

theorem foldAnd_makes (es : List Expr) (fit : Fit K e) (fits : ∀ a ∈ es, Fit K a)
    (needs : Needs facts e true) : Makes (ε := ε) K (es.foldlM (Build.binary .and) e) fun L r =>
      Fit L r ∧ Needs (facts ++ es.map (·, true)) r true := by
  induction es generalizing e facts K with
  | nil => exact makes_pure fun L sub => ⟨fit_mono sub fit, by simpa using needs⟩
  | cons a rest ih =>
    rw [List.foldlM_cons]
    refine makes_bind (binary_fits fit (fits a (by simp))) ?_
    rintro L r sub ⟨fitted, n, rfl⟩
    have joined : Needs (facts ++ [(a, true)]) (.binary n .and e a) true :=
      needs_and needs (needs_self a true)
    refine makes_weaken (ih fitted (fun a' later => fit_mono sub (fits a' (by simp [later]))) joined) ?_
    rintro L' r' - here
    simpa using here

theorem andAll_makes {es : List Expr} (fits : ∀ a ∈ es, Fit K a) :
    Makes (ε := ε) K (Build.reduce .and es) fun L r =>
      (r = none ∧ es = []) ∨ ∃ e, r = some e ∧ Fit L e ∧ Needs (es.map (·, true)) e true := by
  cases es with
  | nil => exact makes_pure fun L _ => .inl ⟨rfl, rfl⟩
  | cons e rest =>
    refine makes_bind (foldAnd_makes rest (fits e (by simp)) (fun a later => fits a (by simp [later]))
      (needs_self e true)) fun L r _ here => makes_pure fun L' sub => .inr ⟨r, rfl, ?_⟩
    exact ⟨fit_mono sub here.1, by simpa using here.2⟩

/-- The condition that is watched for a case under a path. -/
def conflictOf (path found : List Expr) : Numbering (Except NetlistError) Expr := do
  let multiple ← Build.unary .multiHot (← Build.concat found)
  match ← Build.reduce .and path.reverse with
  | some reached => Build.binary .and reached multiple
  | none => return multiple

/-- A condition that is 1 where all conditions of a path are and several of some bits are 1. -/
def Watched (path found : List Expr) (e : Expr) : Prop :=
  ∃ m n, Needs (path.map (·, true) ++ [(.unary n .multiHot (.concat m found), true)]) e true

theorem conflictOf_makes {path found : List Expr} (above : ∀ e ∈ path, Fit K e)
    (fits : ∀ e ∈ found, Fit K e) :
    Makes K (conflictOf path found) fun L e => Fit L e ∧ Watched path found e := by
  refine makes_bind (concat_fits fits) ?_
  rintro L₁ _ sub₁ ⟨fit₁, m, rfl⟩
  refine makes_bind (unary_fits fit₁) ?_
  rintro L₂ _ sub₂ ⟨fit₂, n, rfl⟩
  have several := needs_self (.unary n .multiHot (.concat m found)) true
  refine makes_bind (andAll_makes fun e listed =>
    fit_mono (sub₁.trans sub₂) (above e (List.mem_reverse.mp listed))) ?_
  rintro L₃ _ sub₃ (⟨rfl, none⟩ | ⟨reached, rfl, fit₃, needs⟩)
  · obtain rfl : path = [] := List.reverse_eq_nil_iff.mp none
    exact makes_pure fun L₄ sub₄ => ⟨fit_mono (sub₃.trans sub₄) fit₂, m, n, several⟩
  · refine makes_weaken (binary_fits fit₃ (fit_mono sub₃ fit₂)) ?_
    rintro L₄ _ - ⟨fit₄, k, rfl⟩
    exact ⟨fit₄, m, n, needs_same (needs_and needs several) (by simp)⟩

theorem watchCase_eq (c : ExecContext) (path : List Expr) (kind : CaseKind) (name : String)
    (found : List Expr) : Executing.watchCase c path kind name found =
      if kind.unique ∧ c.settings.overlapRule ≠ .allow ∧ 1 < found.length then do
        Executing.watch name (← Executing.build (conflictOf path found))
      else pure () := rfl

theorem watchCase_yields {c : ExecContext} {path found : List Expr} {kind : CaseKind} {name : String}
    (above : ∀ e ∈ path, Fit K e) (fits : ∀ e ∈ found, Fit K e) :
    Yields K (Executing.watchCase c path kind name found) fun _ _ => True := by
  rw [watchCase_eq]
  split
  · refine yields_bind (yields_build (conflictOf_makes above fits)) fun L _ e _ _ made => ?_
    exact yields_watch name made.1.1
  · exact yields_pure fun _ _ => trivial

end

end CombLogic
