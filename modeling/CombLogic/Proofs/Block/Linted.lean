import CombLogic.Proofs.Block.Overlap

/- Cases with constant patterns. The match bits of such a case all compare one value, that of the
   selector, with constants; a case whose items do not overlap is watched for nothing. -/
namespace CombLogic

open Expr

namespace Value

theorem or_bits (p q : Bit) : (ofBit p).or (ofBit q) = .ok (ofBit (p.or q)) := by
  cases p <;> cases q <;> rfl

theorem single_ofBit {v : Value} (single : v.width = 1) : ∃ bit, v = ofBit bit := by
  obtain ⟨bit, bits⟩ := single_bit.mp single
  exact ⟨bit, congrArg mk bits⟩

end Value

theorem ofBit_one {bit : Bit} : Value.ofBool true = .ofBit bit ↔ bit = .one := by
  cases bit <;> decide

/-- A joint match of single bits is 1 exactly if one of them is. -/
theorem anyOf_one {vs : List Value} {v : Value} (single : ∀ w ∈ vs, w.width = 1)
    (joined : Scene.anyOf vs = some v) : v = .ofBool true ↔ .ofBool true ∈ vs := by
  have folded : ∀ (vs : List Value) (p : Bit), (∀ w ∈ vs, w.width = 1) →
      vs.foldlM (fun v w => (Value.or v w).toOption) (Value.ofBit p) = some v →
        (v = .ofBool true ↔ p = .one ∨ .ofBool true ∈ vs) := by
    intro vs
    induction vs with
    | nil =>
      intro p _ done
      obtain rfl := Option.some.inj done
      simp [eq_comm (b := Value.ofBool true), ofBit_one]
    | cons w rest ih =>
      intro p each done
      obtain ⟨q, rfl⟩ := Value.single_ofBit (each w (by simp))
      rw [List.foldlM_cons, Value.or_bits] at done
      have either : p.or q = .one ↔ p = .one ∨ q = .one := by cases p <;> cases q <;> decide
      rw [ih (p.or q) (fun v later => each v (by simp [later])) done, either, List.mem_cons,
        ofBit_one, or_assoc]
  cases vs with
  | nil =>
    obtain rfl := Option.some.inj joined
    decide
  | cons w rest =>
    obtain ⟨p, rfl⟩ := Value.single_ofBit (single w (by simp))
    rw [folded rest p (fun w later => single w (by simp [later])) joined, List.mem_cons, ofBit_one]

/-- Of bits that exclude one another at most one is 1. -/
theorem count_apart {α : Type} {hit : α → Prop} {as : List α} {vs : List Value}
    (apart : as.Pairwise fun a b => ¬(hit a ∧ hit b))
    (each : List.Forall₂ (fun a v => v = .ofBool true → hit a) as vs) :
    vs.countP (· = .ofBool true) ≤ 1 := by
  induction each with
  | nil => simp
  | @cons a v as vs here later ih =>
    obtain ⟨first, others⟩ := List.pairwise_cons.mp apart
    rw [List.countP_cons]
    by_cases one : v = .ofBool true
    · have none : vs.countP (· = .ofBool true) = 0 := by
        rw [List.countP_eq_zero]
        intro w listed same
        obtain ⟨b, member, hits⟩ := forall₂_right later w listed
        exact first b member ⟨here one, hits (by simpa using same)⟩
      simp [one, none]
    · simpa [one] using ih others

/-- What the check phase looks at for a site. -/
def Site.shape (g : Netlist) (site : Site) : Coverage.Shape where
  selector := (Executing.caseName g site.selector).toOption.getD ""
  kind := ⟨site.wildcard, true⟩
  items := match site.selector.sized g.declared none with
    | some (selector, _) => constants g site.wildcard selector site.items
    | none => []

/-- All patterns of a site are constant once they are sized, and no two of its items overlap. -/
structure Site.Clean (site : Site) (g : Netlist) : Prop where
  constant : ∀ item ∈ (site.shape g).items, none ∉ item
  apart : Coverage.overlaps (site.shape g) = []

instance (site : Site) (g : Netlist) : Decidable (site.Clean g) :=
  decidable_of_iff (_ ∧ _) ⟨fun both => ⟨both.1, both.2⟩, fun clean => ⟨clean.constant, clean.apart⟩⟩

/-- A condition of a site that has passed the check of its patterns. It never is 1 if that check has
    all patterns before it and finds no overlap. -/
structure Linted (settings : BlockSettings) (g : Netlist) (site : Site) (e : Expr) : Prop where
  checked : ∃ warnings, Coverage.check settings (site.shape g) = .ok warnings
  silent : site.Clean g → ∀ env, ¬Is env e true

section

variable {settings : BlockSettings} {g : Netlist} {b : Binding} {wildcard : Bool}
  {selector t pattern r e : Expr} {env : Env} {v p : Value} {path found : List Expr}

/-- The match of a sized selector with a constant compares their values. -/
theorem match_value {d : Ref → Option Nat} {m : Expr} {width : Nat}
    {answer : Ref → Except NetlistError Value} (fixed : t.Integerless)
    (sized : (Expr.caseMatch 0 t pattern wildcard).sized d none = some (m, width))
    (constant : m.constant? = some p) (value : m.valueOn env answer = .ok v) :
    v.width = 1 ∧ ∃ s, t.valueOn env answer = .ok s ∧
      (v = .ofBool true ↔ Coverage.Accepts wildcard s p) := by
  obtain ⟨w, fits⟩ := sized_fitted sized
  cases fit_step fits with
  | atom _ leaf => cases leaf
  | @caseMatch _ _ _ _ s' _ p' _ _ _ first second left right =>
    obtain rfl := fitted_fixed _ left fixed
    obtain ⟨n, rfl⟩ : ∃ n, p' = .literal n p := by
      cases p' with
      | literal n q => exact ⟨n, congrArg _ (Option.some.inj constant)⟩
      | _ => cases constant
    cases valueOn_outcome value with
    | @wildMatch _ _ _ s _ bit left right done =>
      cases right
      refine ⟨rfl, s, left, ?_⟩
      have wild : Coverage.Accepts true s p ↔ s.matchWild p = .ok .one := Iff.rfl
      rw [wild, done, Except.ok.injEq]
      cases bit <;> decide
    | @exactMatch _ _ _ s _ left right =>
      cases right
      refine ⟨rfl, s, left, ?_⟩
      have exact : Coverage.Accepts false s p ↔ s = p := Iff.rfl
      have bits : ∀ bit, Value.ofBool bit = .ofBool true ↔ bit = true := by decide
      rw [exact, bits, beq_iff_eq]

/-- What stands for the match of a constant has the value of that match. -/
theorem standsFor_value (fixed : t.Integerless) (stands : StandsFor g b wildcard t pattern r)
    (constant : constantOf g wildcard t pattern = some p) (value : r.value env = .ok v) :
    v.width = 1 ∧ ∃ s, t.valueOn env (fun target => (g.held b target).value env) = .ok s ∧
      (v = .ofBool true → Coverage.Accepts wildcard s p) := by
  obtain ⟨m, width, sized, form⟩ := stands
  rw [constantOf, sized] at constant
  have plain : m.valueOn env (fun target => (g.held b target).value env) = .ok v := by
    rw [← value_subst, ← form, value_alike (shape_shape r), value]
  obtain ⟨single, s, known, accepts⟩ := match_value fixed sized constant plain
  exact ⟨single, s, known, accepts.mp⟩

/-- The selector has a value, and an item takes it. -/
def Hits (g : Netlist) (b : Binding) (env : Env) (wildcard : Bool) (t : Expr)
    (item : List (Option Value)) : Prop :=
  ∃ s, t.valueOn env (fun target => (g.held b target).value env) = .ok s ∧
    Coverage.Takes wildcard s item

theorem hits_apart {items : List (List (Option Value))}
    (apart : ∀ s, items.Pairwise fun item other =>
      ¬(Coverage.Takes wildcard s item ∧ Coverage.Takes wildcard s other)) :
    items.Pairwise fun item other =>
      ¬(Hits g b env wildcard t item ∧ Hits g b env wildcard t other) := by
  cases known : t.valueOn env fun target => (g.held b target).value env with
  | error x =>
    refine List.pairwise_of_forall fun item other both => ?_
    obtain ⟨s, here, -⟩ := both.1
    cases known.symm.trans here
  | ok s =>
    refine (apart s).imp fun none ⟨⟨s', here, first⟩, ⟨s'', there, second⟩⟩ => ?_
    cases known.symm.trans here
    cases known.symm.trans there
    exact none ⟨first, second⟩

/-- A joint match of constants is 1 only if the item takes the value of the selector. -/
theorem spelled_value (fixed : t.Integerless) {patterns : List Expr}
    (spelled : Spelled g b wildcard t patterns e)
    (constant : none ∉ patterns.map (constantOf g wildcard t)) (value : e.value env = .ok v) :
    v.width = 1 ∧ (v = .ofBool true →
      Hits g b env wildcard t (patterns.map (constantOf g wildcard t))) := by
  obtain ⟨rs, stand, -, joint, -⟩ := spelled
  obtain ⟨vs, values, joined⟩ := (joint env v).mp value
  have each : ∀ w ∈ vs, ∃ pattern ∈ patterns, ∃ p, constantOf g wildcard t pattern = some p ∧
      w.width = 1 ∧ ∃ s, t.valueOn env (fun target => (g.held b target).value env) = .ok s ∧
        (w = .ofBool true → Coverage.Accepts wildcard s p) := by
    intro w listed
    obtain ⟨pattern, given, r, -, stands, found⟩ := forall₂_right (forall₂_join stand.flip values) w listed
    cases known : constantOf g wildcard t pattern with
    | none => exact (constant (known ▸ List.mem_map_of_mem given)).elim
    | some p => exact ⟨pattern, given, p, known, standsFor_value fixed stands known found⟩
  refine ⟨Scene.anyOf_width (fun w listed => ?_) joined, ?_⟩
  · obtain ⟨-, -, -, -, single, -⟩ := each w listed
    exact single
  · rintro rfl
    have single : ∀ w ∈ vs, w.width = 1 := fun w listed => by
      obtain ⟨-, -, -, -, single, -⟩ := each w listed
      exact single
    obtain ⟨pattern, given, p, known, -, s, here, accepts⟩ :=
      each _ ((anyOf_one single joined).mp rfl)
    exact ⟨s, here, p, known ▸ List.mem_map_of_mem given, accepts rfl⟩

/-- The condition of a clean case is never 1, whatever the values of the signals are. -/
theorem watched_silent {items : List CaseItem} (fixed : t.Integerless)
    (spelled : List.Forall₂ (fun item e => Spelled g b wildcard t item.patterns e) items found)
    (constant : ∀ row ∈ constants g wildcard t items, none ∉ row)
    (apart : ∀ s, (constants g wildcard t items).Pairwise fun item other =>
      ¬(Coverage.Takes wildcard s item ∧ Coverage.Takes wildcard s other))
    (watched : Watched path found e) : ¬Is env e true := by
  intro one
  obtain ⟨m, n, needs⟩ := watched
  have several := (needs.value env).mp one _ (List.mem_append_right _ (List.mem_singleton.mpr rfl))
  obtain ⟨u, joined, same⟩ := value_unary.mp several
  obtain ⟨vs, values, rfl⟩ := value_concat.mp joined
  have paired := forall₂_join spelled.flip values
  have told : List.Forall₂ (fun item v => v.width = 1 ∧ (v = .ofBool true →
      Hits g b env wildcard t (item.patterns.map (constantOf g wildcard t)))) items vs := by
    refine ((List.forall₂_and_left _ _).mpr ⟨fun item member => member, paired⟩).imp ?_
    rintro item v ⟨member, e, -, spelled, value⟩
    exact spelled_value fixed spelled (constant _ (List.mem_map_of_mem member)) value
  have single : ∀ v ∈ vs, v.width = 1 := fun v listed => by
    obtain ⟨item, -, narrow, -⟩ := forall₂_right told v listed
    exact narrow
  have disjoint : (constants g wildcard t items).Pairwise fun item other =>
      ¬(Hits g b env wildcard t item ∧ Hits g b env wildcard t other) := hits_apart apart
  have most := count_apart disjoint
    (List.forall₂_map_left_iff.mpr (told.imp fun _ _ both => both.2))
  have least : 2 ≤ vs.countP (· = .ofBool true) :=
    Value.ones_concat vs single ▸ (Value.multiHot_true _).mp same
  omega

/-- The check phase looks at what the execution of the case has found. -/
theorem shape_case {kind : CaseKind} {name : String} {width : Nat} {items : List CaseItem}
    {reach : Scene → Store → Option (Option Store)} (unique : kind.unique = true)
    (sized : selector.sized g.declared none = some (t, width))
    (named : Executing.caseName g selector = .ok name) :
    Site.shape g ⟨kind.wildcard, selector, items, reach⟩ =
      ⟨name, kind, constants g kind.wildcard t items⟩ := by
  obtain ⟨wildcard, _⟩ := kind
  subst unique
  simp [Site.shape, named, sized, Except.toOption]

/-- The condition that a unique case sets aside for itself. -/
theorem linted_case {kind : CaseKind} {name : String} {warnings : List Diagnostic} {width : Nat}
    {items : List CaseItem} {reach : Scene → Store → Option (Option Store)}
    (unique : kind.unique = true) (sized : selector.sized g.declared none = some (t, width))
    (spelled : List.Forall₂ (fun item e => Spelled g b kind.wildcard t item.patterns e) items found)
    (named : Executing.caseName g selector = .ok name)
    (checked : Coverage.check settings ⟨name, kind, constants g kind.wildcard t items⟩ = .ok warnings)
    (watched : Watched path found e) :
    Linted settings g ⟨kind.wildcard, selector, items, reach⟩ e := by
  have shape : Site.shape g ⟨kind.wildcard, selector, items, reach⟩ = _ :=
    shape_case unique sized named
  refine ⟨⟨warnings, shape ▸ checked⟩, fun clean env => ?_⟩
  obtain ⟨constant, apart⟩ := clean
  rw [shape] at constant apart
  exact watched_silent (sized_integerless sized) spelled constant (Coverage.taken_once apart) watched

/-- Where a site stands in the block does not matter. -/
theorem linted_under {site : Site} {asked : Scene → Store → Option Bool}
    (linted : Linted settings g site e) : Linted settings g (site.under asked) e :=
  ⟨linted.checked, fun clean => linted.silent ⟨clean.constant, clean.apart⟩⟩

theorem linted_after {site : Site} {s : Stmt} (linted : Linted settings g site e) :
    Linted settings g (site.after s) e :=
  ⟨linted.checked, fun clean => linted.silent ⟨clean.constant, clean.apart⟩⟩

end

end CombLogic
