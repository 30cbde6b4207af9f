import CombLogic.Proofs.Block.Joined
import CombLogic.Proofs.Block.Replay

/- Widths of what symbolic execution binds, on one valuation. An entry spans the width of its leaf: no value
   that it comes to has another one, and it comes to a value unless a leaf in it is not assigned. -/
namespace CombLogic

open Expr Sizing Netlist Stmt

/-- Every leaf has a value of its width. -/
def Env.Suits (env : Env) (g : Netlist) : Prop :=
  ∀ leaf width, g.HasWidth (leaf, width) → ∃ v, env.value leaf = .ok v ∧ v.width = width

structure Expr.Spans (env : Env) (e : Expr) (width : Nat) : Prop where
  wide : ∀ v, e.value env = .ok v → v.width = width
  found : e.Assigned → ∃ v, e.value env = .ok v

section Nodes

variable {env : Env} {a b c t f : Expr} {n width w w' : Nat}

theorem Expr.Spans.value (spans : a.Spans env width) (assigned : a.Assigned) :
    ∃ v, a.value env = .ok v ∧ v.width = width := by
  obtain ⟨v, found⟩ := spans.found assigned
  exact ⟨v, found, spans.wide v found⟩

theorem spans_alike (alike : a.shape = b.shape) (spans : b.Spans env width) : a.Spans env width where
  wide v found := spans.wide v (value_alike alike ▸ found)
  found assigned := value_alike alike ▸ spans.found (assigned_alike alike.symm assigned)

theorem spans_of_value {v : Value} (found : a.value env = .ok v) : a.Spans env v.width :=
  ⟨fun _ here => congrArg Value.width (Except.ok.inj (here.symm.trans found)), fun _ => ⟨v, found⟩⟩

theorem spans_literal (v : Value) : (Expr.literal n v).Spans env v.width := spans_of_value rfl

theorem spans_unassigned (leaf : LeafId) : (Expr.unassigned n leaf).Spans env width where
  wide v found := by cases valueOn_outcome found
  found assigned := by cases assigned _ (.root _)

theorem spans_unary {op : UnaryOp} (spans : a.Spans env w) :
    (Expr.unary n op a).Spans env (if op.isReduction then 1 else w) where
  wide v found := by
    obtain ⟨u, operand, rfl⟩ := value_unary.mp found
    rw [UnaryOp.width_apply, spans.wide u operand]
  found assigned := by
    obtain ⟨v, operand⟩ := spans.found (assigned_unary.mp assigned)
    exact ⟨_, value_unary.mpr ⟨v, operand, rfl⟩⟩

theorem spans_binary {op : BinaryOp} (left : a.Spans env w) (right : b.Spans env w')
    (applies : ∀ u v : Value, u.width = w → v.width = w' →
      ∃ r, op.apply u v = .ok r ∧ r.width = width) : (Expr.binary n op a b).Spans env width where
  wide r found := by
    obtain ⟨u, v, first, second, done⟩ := value_binary.mp found
    obtain ⟨r', applied, same⟩ := applies u v (left.wide u first) (right.wide v second)
    cases applied.symm.trans done
    exact same
  found assigned := by
    obtain ⟨one, other⟩ := assigned_binary.mp assigned
    obtain ⟨u, first, own⟩ := left.value one
    obtain ⟨v, second, own'⟩ := right.value other
    obtain ⟨r, applied, -⟩ := applies u v own own'
    exact ⟨r, value_binary.mpr ⟨u, v, first, second, applied⟩⟩

theorem spans_shift {op : BinaryOp} (shifts : op.isShift = true) (left : a.Spans env w)
    (right : b.Spans env w') : (Expr.binary n op a b).Spans env w :=
  spans_binary left right fun u v own _ => own ▸ BinaryOp.shift_ok shifts u v

theorem spans_pair {op : BinaryOp} (pairs : op.isShift = false) (left : a.Spans env w)
    (right : b.Spans env w') (fits : Alignable w w') (apart : w + w' ≠ 1) :
    (Expr.binary n op a b).Spans env (if op.isComparison then 1 else max w w') := by
  refine spans_binary left right fun u v own own' => ?_
  subst own own'
  obtain ⟨r, applied, wide⟩ := BinaryOp.pair_ok pairs fits
  exact ⟨r, applied, by rw [wide, aligned_max fits apart]⟩

theorem spans_mux (condition : c.Spans env 1) (left : t.Spans env width) (right : f.Spans env width) :
    (Expr.mux n c t f).Spans env width where
  wide v found := by
    cases valueOn_outcome found with
    | whenTrue _ taken => exact left.wide v taken
    | whenFalse _ taken => exact right.wide v taken
    | undecided _ _ first => rw [Value.width_unknown, left.wide _ first]
  found assigned := by
    obtain ⟨chosen, first, second⟩ := assigned_mux.mp assigned
    obtain ⟨v, asked, single⟩ := condition.value chosen
    obtain ⟨bit, bits⟩ := Value.single_bit.mp single
    obtain rfl : v = .ofBit bit := congrArg Value.mk bits
    obtain ⟨u, here⟩ := left.found first
    obtain ⟨u', there⟩ := right.found second
    cases bit with
    | one => exact ⟨u, outcome_valueOn (.whenTrue asked here)⟩
    | zero => exact ⟨u', outcome_valueOn (.whenFalse asked there)⟩
    | x | z => exact ⟨_, outcome_valueOn (.undecided asked rfl here)⟩

theorem spans_concat {parts : List Expr} {ws : List Nat}
    (each : List.Forall₂ (fun a w => a.Spans env w) parts ws) :
    (Expr.concat n parts).Spans env ws.sum where
  wide v found := by
    obtain ⟨vs, values, rfl⟩ := value_concat.mp found
    have same : List.Forall₂ (fun v w => Value.width v = w) vs ws := by
      refine (forall₂_join values each).imp ?_
      rintro v w ⟨a, -, here, spans⟩
      exact spans.wide v here
    rw [← List.forall₂_map_left_iff, List.forall₂_eq_eq_eq] at same
    rw [Value.width_concat, same]
  found assigned := by
    have parted := assigned_concat.mp assigned
    clear assigned
    have values : ∃ vs, List.Forall₂ (fun a v => a.value env = .ok v) parts vs := by
      induction each with
      | nil => exact ⟨[], .nil⟩
      | cons first _ ih =>
        obtain ⟨own, others⟩ := List.forall_mem_cons.mp parted
        obtain ⟨v, here⟩ := first.found own
        obtain ⟨vs, later⟩ := ih others
        exact ⟨v :: vs, .cons here later⟩
    obtain ⟨vs, values⟩ := values
    exact ⟨_, value_concat.mpr ⟨vs, values, rfl⟩⟩

theorem spans_slice {high low : Nat} (spans : a.Spans env w) (ordered : low ≤ high)
    (inside : high < w) : (Expr.slice n a high low).Spans env (high - low + 1) where
  wide v found := by
    cases valueOn_outcome found with
    | slice operand done =>
      obtain ⟨r, cut, wide⟩ := Value.slice_ok ordered (spans.wide _ operand ▸ inside)
      cases cut.symm.trans done
      exact wide
  found assigned := by
    obtain ⟨v, operand, rfl⟩ := spans.value (assigned_operand assigned (by simp [children]))
    obtain ⟨r, cut, -⟩ := Value.slice_ok ordered inside
    exact ⟨r, outcome_valueOn (.slice operand cut)⟩

theorem spans_extend {target : Nat} {signed : Bool} (spans : a.Spans env w) (wider : w ≤ target) :
    (Expr.extend n a target signed).Spans env target := by
  have padded : ∀ v : Value, v.width = w → ∃ r,
      (if signed then v.signExtend target else v.zeroExtend target) = .ok r ∧ r.width = target := by
    rintro v rfl
    cases signed with
    | true => exact Value.padWith_ok v.sign wider
    | false => exact Value.padWith_ok .zero wider
  refine ⟨fun v found => ?_, fun assigned => ?_⟩
  · cases valueOn_outcome found with
    | extend operand done =>
      obtain ⟨r, long, wide⟩ := padded _ (spans.wide _ operand)
      cases long.symm.trans done
      exact wide
  · obtain ⟨v, operand, own⟩ := spans.value (assigned_operand assigned (by simp [children]))
    obtain ⟨r, long, -⟩ := padded v own
    exact ⟨r, outcome_valueOn (.extend operand long)⟩

theorem spans_caseMatch {wildcard : Bool} (left : a.Spans env w) (right : b.Spans env w) :
    (Expr.caseMatch n a b wildcard).Spans env 1 where
  wide v found := by
    cases valueOn_outcome found with
    | wildMatch => rfl
    | exactMatch => rfl
  found assigned := by
    obtain ⟨u, first, rfl⟩ := left.value (assigned_operand assigned (by simp [children]))
    obtain ⟨v, second, same⟩ := right.value (assigned_operand assigned (by simp [children]))
    cases wildcard with
    | true =>
      have matched : u.matchWild v = .ok (Value.matchWildBits u.bits v.bits) := by
        rw [Value.matchWild, if_pos same.symm]
      exact ⟨_, outcome_valueOn (.wildMatch first second matched)⟩
    | false => exact ⟨_, outcome_valueOn (.exactMatch first second)⟩

theorem spans_ored {rs : List Expr} {e : Expr} (ored : Ored rs e) (each : ∀ r ∈ rs, r.Spans env 1) :
    e.Spans env 1 := by
  induction ored with
  | none n => exact spans_literal (.ofBool false)
  | one listed => exact each _ listed
  | or _ _ left right => exact spans_pair rfl left right (.inl rfl) (by decide)

theorem spans_merged {arms : List (Expr × Expr)} {fallback : Expr}
    (each : ∀ p ∈ arms, p.1.Spans env 1 ∧ p.2.Spans env width) (last : fallback.Spans env width) :
    (fallback.merged arms).Spans env width := by
  induction arms with
  | nil => exact last
  | cons p rest ih =>
    rw [merged]
    split
    · exact last
    · obtain ⟨condition, value⟩ := each p List.mem_cons_self
      exact spans_mux condition value (ih fun q later => each q (by simp [later]))

end Nodes

section

variable {env : Env} {d : Ref → Option Nat} {g : Netlist}

theorem fixed_fits {a r : Expr} {w rw : Nat} (fixed : a.Fixed d w) (done : a.fitted d w = some (r, rw)) :
    rw = w :=
  (Prod.mk.inj (Option.some.inj (done.symm.trans fixed.2))).2

theorem spans_parts {answer : Ref → Expr} {parts : List Expr}
    (each : ∀ a ∈ parts, ∃ w, a.Fixed d w ∧ (a.subst answer).Spans env w) :
    ∃ ws, naturals d parts = some ws.sum ∧
      List.Forall₂ (fun a w => a.Spans env w) (parts.map (subst answer)) ws := by
  induction parts with
  | nil => exact ⟨[], rfl, .nil⟩
  | cons a rest ih =>
    obtain ⟨w, own, spans⟩ := each a (by simp)
    obtain ⟨ws, total, later⟩ := ih fun b member => each b (by simp [member])
    exact ⟨w :: ws, by simp [naturals, own.1, total], .cons spans later⟩

/-- An expression that is sized with a bit in every part spans its width, with anything in place of a
    read that spans the width of what was read. -/
theorem spans_subst {answer : Ref → Expr} (suits : ∀ leaf width, d (.leaf leaf) = some width →
      ∃ v, env.value leaf = .ok v ∧ v.width = width)
    (answers : ∀ target width, d target = some width → (answer target).Spans env width) (e : Expr) :
    ∀ {width : Nat}, e.Fixed d width → e.AllFixed d → (e.subst answer).Spans env width := by
  induction e using operand_induction with
  | step e ih =>
    intro width fixed every
    have operand : ∀ a ∈ e.children, ∃ w, 0 < w ∧ a.Fixed d w ∧ (a.subst answer).Spans env w := by
      intro a member
      have below := (all_iff.mp every).2 a member
      obtain ⟨w, bits, own⟩ := (all_iff.mp below).1
      exact ⟨w, bits, own, ih a member own below⟩
    have known : ∀ {n : Expr} {w own : Nat}, n.Fixed d w → n.natural d = some (some own) → w = own :=
      fun fixed natural => Option.some.inj (Option.some.inj (fixed.1.symm.trans natural))
    cases e with
    | signal n leaf =>
      obtain ⟨w, declared, same⟩ := Option.bind_eq_some_iff.mp fixed.1
      obtain rfl := Option.some.inj (Option.some.inj same)
      obtain ⟨v, found, rfl⟩ := suits leaf w declared
      exact spans_of_value found
    | literal n value =>
      obtain rfl := Option.some.inj (Option.some.inj fixed.1)
      exact spans_literal value
    | integer n value => cases (all_iff.mp (fixed_integerless fixed)).1
    | read n target =>
      obtain ⟨w, declared, same⟩ := Option.bind_eq_some_iff.mp fixed.1
      obtain rfl := Option.some.inj (Option.some.inj same)
      exact spans_alike (shape_shape _) (answers target w declared)
    | unassigned n leaf => exact spans_unassigned leaf
    | unary n op a =>
      obtain ⟨w, -, own, spans⟩ := operand a (by simp [children])
      have wide : width = if op.isReduction then 1 else w := by
        refine known fixed ?_
        simp only [natural, own.1]
        split <;> rfl
      exact wide ▸ spans_unary spans
    | binary n op a b =>
      obtain ⟨w, bits, own, left⟩ := operand a (by simp [children])
      obtain ⟨w', bits', own', right⟩ := operand b (by simp [children])
      cases fit_step fixed.2 with
      | atom _ leaf => cases leaf
      | shift shifts first =>
        have single : op.isComparison = false := by
          cases op <;> simp_all [BinaryOp.isShift, BinaryOp.isComparison]
        have wide : width = w := known fixed (by simp [natural, single, shifts, own.1])
        exact wide ▸ spans_shift shifts left right
      | pair pairs first second here there fits =>
        cases own.1.symm.trans first
        cases own'.1.symm.trans second
        obtain rfl := fixed_fits own here
        obtain rfl := fixed_fits own' there
        exact spans_pair pairs left right (by unfold Alignable; omega) (by omega)
    | mux n c t f =>
      obtain ⟨w₀, -, own₀, condition⟩ := operand c (by simp [children])
      obtain ⟨w, -, own, left⟩ := operand t (by simp [children])
      obtain ⟨w', -, own', right⟩ := operand f (by simp [children])
      cases fit_step fixed.2 with
      | atom _ leaf => cases leaf
      | mux asked first second single here there =>
        cases own₀.1.symm.trans asked
        cases own.1.symm.trans first
        cases own'.1.symm.trans second
        obtain rfl := fixed_fits own₀ single
        obtain rfl := fixed_fits own here
        obtain rfl := fixed_fits own' there
        exact spans_mux condition left right
    | concat n parts =>
      obtain ⟨ws, total, spans⟩ := spans_parts fun a member =>
        (operand a (by simpa [children])).imp fun _ fixed => fixed.2
      have wide : width = ws.sum := known fixed (by simp [natural, total])
      rw [subst, substAll_eq_map, wide]
      exact spans_concat spans
    | slice n a high low =>
      obtain ⟨w, -, own, spans⟩ := operand a (by simp [children])
      cases fit_step fixed.2 with
      | atom _ leaf => cases leaf
      | slice needed ordered inside =>
        cases own.1.symm.trans needed
        exact spans_slice spans ordered inside
    | extend n a target signed =>
      obtain ⟨w, -, own, spans⟩ := operand a (by simp [children])
      cases fit_step fixed.2 with
      | atom _ leaf => cases leaf
      | extend found wide =>
        cases own.1.symm.trans found
        exact spans_extend spans wide
    | caseMatch n s p wildcard =>
      obtain ⟨w, -, own, left⟩ := operand s (by simp [children])
      obtain ⟨w', -, own', right⟩ := operand p (by simp [children])
      cases fit_step fixed.2 with
      | atom _ leaf => cases leaf
      | caseMatch first second here there =>
        cases own.1.symm.trans first
        cases own'.1.symm.trans second
        obtain rfl := fixed_fits own here
        obtain rfl := fixed_fits own' there
        exact spans_caseMatch left right

theorem piece_spans {answer : Ref → Expr} {t : Expr} {low width w : Nat}
    (suits : ∀ leaf width, d (.leaf leaf) = some width → ∃ v, env.value leaf = .ok v ∧ v.width = width)
    (answers : ∀ target width, d target = some width → (answer target).Spans env width)
    (fixed : (piece t low width).Fixed d w) (every : t.AllFixed d) :
    ((piece t low width).subst answer).Spans env w := by
  unfold piece at fixed ⊢
  split
  · rename_i none
    rw [if_pos none] at fixed
    obtain rfl : (Value.zeros 0).width = w := Option.some.inj (Option.some.inj fixed.1)
    exact spans_literal (.zeros 0)
  · rename_i several
    rw [if_neg several] at fixed
    have some : 0 < w := by
      obtain rfl := Option.some.inj (Option.some.inj fixed.1)
      omega
    exact spans_subst suits answers _ fixed (allFixed_node some fixed (by simpa [children])).2

end

section

variable {env : Env} {g : Netlist} {b after : Binding} {leaf : LeafId} {target : Ref} {width : Nat}

/-- All entries span the widths of their leaves. -/
def Binding.Spans (g : Netlist) (env : Env) (b : Binding) : Prop :=
  ∀ leaf e, b.get? leaf = some e → ∃ width, g.HasWidth (leaf, width) ∧ e.Spans env width

theorem suits_declared (suits : env.Suits g) (leaf : LeafId) (width : Nat)
    (declared : g.declared (.leaf leaf) = some width) :
    ∃ v, env.value leaf = .ok v ∧ v.width = width := by
  obtain ⟨there, found, own⟩ := leaf_width declared
  exact suits leaf width ⟨there, found, own⟩

theorem entry_spans (suits : env.Suits g) (spans : b.Spans g env) (there : g.HasWidth (leaf, width)) :
    (b.entry leaf).Spans env width := by
  unfold Binding.entry
  cases found : b.get? leaf with
  | none =>
    obtain ⟨v, held, rfl⟩ := suits leaf width there
    exact spans_of_value held
  | some e =>
    obtain ⟨width', known, own⟩ := spans leaf e found
    obtain rfl : width' = width := hasWidth_unique known there rfl
    exact own

theorem held_spans (suits : env.Suits g) (spans : b.Spans g env)
    (declared : g.declared target = some width) : (g.held b target).Spans env width := by
  obtain ⟨parts, found, rfl⟩ := declared_parts declared
  refine held_sums found (fun part listed => ?_) fun _ _ => spans_concat
  exact entry_spans suits spans ((leafWidths_ok found).2 part listed)

/-- Everything that is written has a bit: all parts of the expressions, and the targets. -/
structure Netlist.Bits (g : Netlist) (exprs : List Expr) (targets : List Ref) : Prop where
  exprs : ∀ e ∈ exprs, e.Proper g.declared
  targets : ∀ target ∈ targets, g.declared target ≠ some 0

theorem bits_mono {exprs exprs' : List Expr} {targets targets' : List Ref} (fewer : exprs ⊆ exprs')
    (targeted : targets ⊆ targets') (bits : g.Bits exprs' targets') : g.Bits exprs targets :=
  ⟨fun e listed => bits.exprs e (fewer listed), fun t listed => bits.targets t (targeted listed)⟩

/-- What stands for an expression of the text spans the width for which it is sized. -/
theorem text_spans (suits : env.Suits g) (spans : b.Spans g env) {e t r : Expr} {context : Option Nat}
    (sized : e.sized g.declared context = some (t, width)) (some : context ≠ some 0)
    (proper : e.Proper g.declared) (form : r.shape = t.subst (g.held b)) : r.Spans env width := by
  obtain ⟨fixed, every⟩ := sized_settles sized some proper
  have alike : r.shape = (t.subst (g.held b)).shape := by rw [← form, shape_shape]
  exact spans_alike alike (spans_subst (suits_declared suits)
    (fun target width declared => held_spans suits spans declared) t fixed every)

theorem shares_spans (suits : env.Suits g) (spans : b.Spans g env) {e : Expr}
    {ps ds : List (LeafId × Expr)} (some : g.declared target ≠ some 0) (proper : e.Proper g.declared)
    (shares : g.shares target e = Option.some ps) (answers : g.Answers b ps ds) :
    ∀ p ∈ ds, ∃ width, g.HasWidth (p.1, width) ∧ p.2.Spans env width := by
  intro p listed
  obtain ⟨share, given, same, form⟩ := forall₂_right answers p listed
  cases target with
  | leaf leaf =>
    obtain ⟨t, width, declared, sized, rfl⟩ := shares_leaf.mp shares
    obtain rfl := List.mem_singleton.mp given
    obtain ⟨entry, found, own⟩ := leaf_width declared
    exact ⟨width, ⟨entry, same ▸ found, own⟩, text_spans suits spans sized (declared ▸ some) proper form⟩
  | bundle id =>
    obtain ⟨t, parts, widths, declared, sized, rfl⟩ := shares_bundle.mp shares
    obtain ⟨fixed, every⟩ := sized_settles sized (declared ▸ some) proper
    obtain ⟨part, inside, named, cut⟩ := forall₂_left (fixed_slices fixed (by omega)) share given
    obtain ⟨_, -, low, rfl⟩ := mem_plainSlices given
    refine ⟨part.2, (same.trans named) ▸ (leafWidths_ok widths).2 part inside, ?_⟩
    exact spans_alike (by rw [← form, shape_shape]) (piece_spans (suits_declared suits)
      (fun target width declared => held_spans suits spans declared) cut every)

theorem allFixed_proper {d : Ref → Option Nat} {e : Expr} (every : e.AllFixed d) : e.Proper d := by
  intro n inside none
  obtain ⟨width, bits, fixed⟩ := every n inside
  have := Option.some.inj (Option.some.inj (fixed.1.symm.trans none))
  omega

theorem spelled_spans (suits : env.Suits g) (spans : b.Spans g env) {wildcard : Bool}
    {selector t e : Expr} {patterns : List Expr} (sized : selector.sized g.declared none = some (t, width))
    (proper : selector.Proper g.declared) (propers : ∀ pattern ∈ patterns, pattern.Proper g.declared)
    (spelled : Spelled g b wildcard t patterns e) : e.Spans env 1 := by
  obtain ⟨rs, stand, -, -, ored⟩ := spelled
  refine spans_ored ored fun r listed => ?_
  obtain ⟨pattern, given, t', w, matched, form⟩ := forall₂_right stand r listed
  have selected := allFixed_proper (sized_settles sized (by simp) proper).2
  have compared : (Expr.caseMatch 0 t pattern wildcard).Proper g.declared :=
    all_iff.mpr ⟨by simp [natural], by simpa [children] using ⟨selected, propers pattern given⟩⟩
  obtain ⟨w', fits⟩ := sized_fitted matched
  obtain rfl : w = 1 := by
    cases fit_step fits with
    | atom _ leaf => cases leaf
    | caseMatch => rfl
  exact text_spans suits spans matched (by simp) compared form

theorem bindAll_spans {ds : List (LeafId × Expr)} (spans : b.Spans g env)
    (each : ∀ p ∈ ds, ∃ width, g.HasWidth (p.1, width) ∧ p.2.Spans env width) :
    (Executing.bindAll b ds).Spans g env := by
  intro leaf e found
  by_cases listed : leaf ∈ ds.map Prod.fst
  · obtain ⟨f, -, member, here⟩ := bindAll_listed (b := b) listed
    obtain rfl := Option.some.inj (here.symm.trans found)
    exact each _ member
  · exact spans leaf e (bindAll_unlisted listed ▸ found)

theorem JoinsExactly.spans {arms : List (Expr × Binding)} {fallback : Binding}
    (joins : JoinsExactly arms fallback b.keys b after) (suits : env.Suits g) (spans : b.Spans g env)
    (each : ∀ p ∈ arms, p.1.Spans env 1 ∧ p.2.Spans g env) (last : fallback.Spans g env) :
    after.Spans g env := by
  intro leaf e found
  have listed : leaf ∈ b.keys := joins.keys ▸ OrderedMap.mem_keys_of_get? found
  obtain ⟨f, before⟩ := OrderedMap.get?_of_mem_keys listed
  obtain ⟨width, there, -⟩ := spans leaf f before
  have form := (joins.each leaf listed).form
  rw [entry_of_get found] at form
  refine ⟨width, there, spans_alike form (spans_merged ?_ (entry_spans suits last there))⟩
  refine List.forall_mem_map.mpr fun p member => ?_
  exact ⟨(each p member).1, entry_spans suits (each p member).2 there⟩

end

end CombLogic
