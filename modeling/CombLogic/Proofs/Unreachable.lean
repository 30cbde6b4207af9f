import CombLogic.Proofs.Block.Linted
import CombLogic.Proofs.Block.Patterns
import CombLogic.Proofs.Calls

/- Items that are reported as unreachable. What such an item matches for sure, an earlier one
   matches too, so no run takes it; and the test for one pattern against another is exact. -/
namespace CombLogic

open Expr

namespace Coverage

variable {wildcard : Bool} {earlier : List (List (Option Value))} {item : List (Option Value)}
  {shape : Shape} {settings : BlockSettings} {index first : Nat}

theorem coveredBy_some {p : Value} {k : Nat} (found : coveredBy wildcard earlier p = some k) :
    ∃ other, earlier[k]? = some other ∧ ∀ s, Accepts wildcard s p → Takes wildcard s other := by
  obtain ⟨inside, covers, -⟩ := List.findIdx?_eq_some_iff_getElem.mp found
  refine ⟨earlier[k], List.getElem?_eq_getElem inside, fun s accepts => ?_⟩
  obtain ⟨pattern, listed, here⟩ := List.any_eq_true.mp covers
  cases pattern with
  | none => cases here
  | some q => exact ⟨q, listed, covers_accepts here accepts⟩

/-- The patterns of a shadowed item are constant, and each is covered by some earlier item. -/
theorem shadowedBy_some (found : shadowedBy wildcard earlier item = some first) :
    none ∉ item ∧ first < earlier.length ∧ ∀ s, Takes wildcard s item → ∃ k : Nat, ∃ other,
      earlier[k]? = some other ∧ Takes wildcard s other := by
  obtain ⟨patterns, constant, found⟩ := Option.bind_eq_some_iff.mp found
  obtain ⟨covering, each, least⟩ := Option.bind_eq_some_iff.mp found
  have same := mapM_some.mp constant
  have paired := mapM_some.mp each
  refine ⟨fun missing => ?_, ?_, ?_⟩
  · obtain ⟨p, -, absent⟩ := forall₂_left same none missing
    cases absent
  · obtain ⟨p, -, here⟩ := forall₂_right paired first (List.min?_mem least)
    obtain ⟨other, there, -⟩ := coveredBy_some here
    exact (List.getElem?_eq_some_iff.mp there).1
  · rintro s ⟨p, listed, accepts⟩
    obtain ⟨p', member, own⟩ := forall₂_left same (some p) listed
    obtain rfl : p = p' := Option.some.inj own
    obtain ⟨k, -, here⟩ := forall₂_left paired p member
    obtain ⟨other, there, takes⟩ := coveredBy_some here
    exact ⟨k, other, there, takes s accepts⟩

/-- An item all of whose patterns are constant, and which is taken only where an earlier one is. -/
structure Unreachable (shape : Shape) (index first : Nat) (item : List (Option Value)) : Prop where
  found : shape.items[index]? = some item
  constant : none ∉ item
  first : first < index
  earlier : ∀ s, Takes shape.kind.wildcard s item → ∃ k < index, ∃ other,
    shape.items[k]? = some other ∧ Takes shape.kind.wildcard s other

theorem unreachable_reported (reported : (index, first) ∈ unreachable shape) :
    ∃ item, Unreachable shape index first item := by
  obtain ⟨place, listed, found⟩ := List.mem_filterMap.mp reported
  obtain ⟨least, shadowed, same⟩ := Option.map_eq_some_iff.mp found
  cases same
  have inside := List.mem_range.mp listed
  have here := List.getElem?_eq_getElem inside
  rw [List.getD_eq_getElem?_getD, here, Option.getD_some] at shadowed
  obtain ⟨constant, before, earlier⟩ := shadowedBy_some shadowed
  rw [List.length_take] at before
  refine ⟨_, here, constant, by omega, fun s takes => ?_⟩
  obtain ⟨k, other, there, takes'⟩ := earlier s takes
  rw [List.getElem?_take] at there
  split at there
  · exact ⟨k, ‹_›, other, there, takes'⟩
  · nomatch there

/-- A priority case gets no other warnings. -/
theorem priority_warnings {warnings : List Diagnostic} (priority : shape.kind.unique = false)
    (checked : check settings shape = .ok warnings) :
    ∀ w ∈ warnings, ∃ p ∈ unreachable shape, w = unreachableWarning shape p := by
  intro w listed
  rw [check, priority, if_neg (by decide)] at checked
  split at checked
  · obtain rfl := Except.ok.inj checked
    obtain ⟨p, reported, rfl⟩ := List.mem_map.mp listed
    exact ⟨p, reported, rfl⟩
  · obtain rfl := Except.ok.inj checked
    cases listed

end Coverage

namespace Scene

variable {c : Scene} {σ : Store} {wildcard : Bool} {t pattern : Expr} {s p v : Value} {bit : Bool}
  {patterns : List Expr}

/-- The match with a constant pattern is 1 where the pattern matches the selector for sure. -/
theorem matches_value (fixed : t.Integerless)
    (constant : constantOf c.netlist wildcard t pattern = some p)
    (found : c.matches? wildcard t pattern σ = some v) :
    ∃ s, t.valueOn c.settled (c.read σ) = .ok s ∧
      (v = .ofBool true ↔ Coverage.Accepts wildcard s p) := by
  obtain ⟨⟨m, width⟩, sized, found⟩ := Option.bind_eq_some_iff.mp found
  rw [constantOf, sized] at constant
  exact (match_value fixed sized constant (of_toOption found)).2

/-- The match bits of an item that is answered for. -/
theorem taken_some (answer : c.taken wildcard t patterns σ = some bit) :
    ∃ vs, List.Forall₂ (fun pattern v => c.matches? wildcard t pattern σ = some v) patterns vs ∧
      (bit = true ↔ .ofBool true ∈ vs) := by
  obtain ⟨vs, each, answer⟩ := Option.bind_eq_some_iff.mp answer
  obtain ⟨v, joined, known⟩ := Option.bind_eq_some_iff.mp answer
  have paired := mapM_some.mp each
  refine ⟨vs, paired, ?_⟩
  rw [← anyOf_one (fun w listed => ?_) joined, bit_some known]
  · cases bit <;> decide
  · obtain ⟨pattern, -, here⟩ := forall₂_right paired w listed
    exact matches_width here

/-- An item of constant patterns is taken only if one of them matches the selector for sure. -/
theorem taken_takes (fixed : t.Integerless)
    (constant : none ∉ patterns.map (constantOf c.netlist wildcard t))
    (taken : c.taken wildcard t patterns σ = some true) :
    ∃ s, t.valueOn c.settled (c.read σ) = .ok s ∧
      Coverage.Takes wildcard s (patterns.map (constantOf c.netlist wildcard t)) := by
  obtain ⟨vs, paired, hit⟩ := taken_some taken
  obtain ⟨pattern, given, here⟩ := forall₂_right paired _ (hit.mp rfl)
  have listed := List.mem_map_of_mem (f := constantOf c.netlist wildcard t) given
  cases known : constantOf c.netlist wildcard t pattern with
  | none => exact (constant (known ▸ listed)).elim
  | some p =>
    obtain ⟨s, value, accepts⟩ := matches_value fixed known here
    exact ⟨s, value, p, known ▸ listed, accepts.mp rfl⟩

/-- If an answer for an item is found and a constant pattern of it matches, the item is taken. -/
theorem takes_taken (fixed : t.Integerless) (value : t.valueOn c.settled (c.read σ) = .ok s)
    (takes : Coverage.Takes wildcard s (patterns.map (constantOf c.netlist wildcard t)))
    (answer : c.taken wildcard t patterns σ = some bit) : bit = true := by
  obtain ⟨p, listed, accepts⟩ := takes
  obtain ⟨pattern, given, known⟩ := List.mem_map.mp listed
  obtain ⟨vs, paired, hit⟩ := taken_some answer
  obtain ⟨v, member, here⟩ := forall₂_left paired pattern given
  obtain ⟨s', value', accepts'⟩ := matches_value fixed known here
  cases value.symm.trans value'
  exact hit.mpr (accepts'.mpr accepts ▸ member)

/-- Where none of some items is taken, each of them is answered for with no. -/
theorem misses_each {items : List CaseItem} (missed : c.misses wildcard t items σ = some true) :
    ∀ item ∈ items, c.taken wildcard t item.patterns σ = some false := by
  induction items with
  | nil => simp
  | cons first rest ih =>
    obtain ⟨bit, taken, missed⟩ := Option.bind_eq_some_iff.mp missed
    cases bit with
    | true => cases missed
    | false => exact List.forall_mem_cons.mpr ⟨taken, ih missed⟩

/-- No run takes an item that is reported. -/
theorem untaken {kind : CaseKind} {name : String} {items : List CaseItem} {item : CaseItem}
    {index first : Nat} (fixed : t.Integerless) (listed : items[index]? = some item)
    (reported : (index, first) ∈
      Coverage.unreachable ⟨name, kind, constants c.netlist kind.wildcard t items⟩) :
    c.takes kind.wildcard t (items.take index) item σ ≠ some true := by
  intro taken
  obtain ⟨missed, before, taken⟩ := Option.bind_eq_some_iff.mp taken
  cases missed with
  | false => cases taken
  | true =>
    obtain ⟨row, found, constant, -, earlier⟩ := Coverage.unreachable_reported reported
    obtain rfl : item.patterns.map (constantOf c.netlist kind.wildcard t) = row := by
      simpa [constants, listed] using found
    obtain ⟨s, value, takes⟩ := taken_takes fixed constant taken
    obtain ⟨k, inside, other, there, takes'⟩ := earlier s takes
    obtain ⟨item', here, rfl⟩ : ∃ item', items[k]? = some item' ∧
        item'.patterns.map (constantOf c.netlist kind.wildcard t) = other := by
      simpa [constants] using there
    have past : item' ∈ items.take index :=
      List.mem_of_getElem? ((List.getElem?_take_of_lt inside).trans here)
    cases takes_taken fixed value takes' (misses_each before item' past)

/-- An item that is not taken can be removed. -/
theorem runItems_removed {items : List CaseItem} {item : CaseItem} {index : Nat}
    {default : Store → Option Store} {σ' : Store} (listed : items[index]? = some item)
    (untaken : c.takes wildcard t (items.take index) item σ ≠ some true)
    (done : c.runItems wildcard t items default σ = some σ') :
    c.runItems wildcard t (items.eraseIdx index) default σ = some σ' := by
  induction items generalizing index with
  | nil => simp at listed
  | cons head rest ih =>
    obtain ⟨patterns, body⟩ := head
    simp only [runItems] at done
    obtain ⟨bit, answer, done⟩ := Option.bind_eq_some_iff.mp done
    have answered : c.taken wildcard t (CaseItem.mk patterns body).patterns σ = some bit := answer
    cases index with
    | zero =>
      obtain rfl : CaseItem.mk patterns body = item := Option.some.inj listed
      cases bit with
      | true => exact (untaken (by simp [takes, misses, answered])).elim
      | false => exact done
    | succ index =>
      simp only [List.eraseIdx_cons_succ, runItems, answer]
      cases bit with
      | true => exact done
      | false =>
        refine ih listed ?_ done
        simpa [takes, misses, answered] using untaken

end Scene

/-- Reports of unreachable items are true, and the test that they rest on is exact. -/
theorem unreachable_items :
    (∀ shape index first, (index, first) ∈ Coverage.unreachable shape →
      first < index ∧ ∃ item, shape.items[index]? = some item ∧ none ∉ item ∧
        ∀ s, Coverage.Takes shape.kind.wildcard s item → ∃ k < index, ∃ earlier,
          shape.items[k]? = some earlier ∧ Coverage.Takes shape.kind.wildcard s earlier) ∧
    (∀ settings shape warnings, shape.kind.unique = false →
      Coverage.check settings shape = .ok warnings → ∀ w ∈ warnings,
        ∃ p ∈ Coverage.unreachable shape, w = Coverage.unreachableWarning shape p) ∧
    (∀ (c : Scene) kind (selector t : Expr) width items item name index first,
      selector.sized c.netlist.declared none = some (t, width) → items[index]? = some item →
        (index, first) ∈
          Coverage.unreachable ⟨name, kind, constants c.netlist kind.wildcard t items⟩ →
        ∀ σ, c.takes kind.wildcard t (items.take index) item σ ≠ some true ∧
          ∀ default σ', c.runItems kind.wildcard t items default σ = some σ' →
            c.runItems kind.wildcard t (items.eraseIdx index) default σ = some σ') ∧
    ∀ wildcard earlier later, (wildcard = true → .x ∉ later.bits) →
      (Coverage.valueCovers wildcard earlier later = true ↔
        ∀ s, Coverage.Accepts wildcard s later → Coverage.Accepts wildcard s earlier) := by
  refine ⟨?_, ?_, ?_, ?_⟩
  · intro shape index first reported
    obtain ⟨item, found, constant, before, earlier⟩ := Coverage.unreachable_reported reported
    exact ⟨before, item, found, constant, earlier⟩
  · intro settings shape warnings priority checked
    exact Coverage.priority_warnings priority checked
  · intro c kind selector t width items item name index first sized listed reported σ
    have untaken := Scene.untaken (σ := σ) (sized_integerless sized) listed reported
    exact ⟨untaken, fun default σ' done => Scene.runItems_removed listed untaken done⟩
  · intro wildcard earlier later known
    exact Coverage.covers_iff known

/-- The two patterns of an item are covered by different items, one of which also has a pattern that
    is not constant. -/
theorem both_shadowed : ∃ (g : Netlist) (items : List CaseItem) (item : CaseItem),
    items[2]? = some item ∧
      Coverage.unreachable ⟨"sel", ⟨true, false⟩, constants g true (.signal 0 0) items⟩ = [(2, 0)] ∧
        (∃ k < 2, ∃ earlier, (constants g true (.signal 0 0) items)[k]? = some earlier ∧
          Coverage.Takes true ⟨[.zero, .one]⟩ earlier) ∧
        (∀ settled assigned σ, Scene.takes ⟨g, settled, assigned⟩ true (.signal 0 0)
          (items.take 2) item σ ≠ some true) := by
  let items : List CaseItem := [.mk [.literal 1 ⟨[.one, .z]⟩] [],
    .mk [.signal 2 1, .literal 3 ⟨[.z, .one]⟩] [],
    .mk [.literal 4 ⟨[.one, .zero]⟩, .literal 5 ⟨[.zero, .one]⟩] []]
  let g := ((World.empty 10).after [.leaf "sel" (.unknown 2), .leaf "other" (.unknown 2)]).netlist
  have reported : Coverage.unreachable
      ⟨"sel", ⟨true, false⟩, constants g true (.signal 0 0) items⟩ = [(2, 0)] := by decide +kernel
  have sized : (Expr.signal 0 0).sized g.declared none = some (.signal 0 0, 2) := by decide +kernel
  obtain ⟨shapes, -, runs, -⟩ := unreachable_items
  have constant : (constants g true (.signal 0 0) items)[2]? =
      some [some ⟨[.one, .zero]⟩, some ⟨[.zero, .one]⟩] := by decide +kernel
  obtain ⟨-, row, found, -, earlier⟩ := shapes _ 2 0 (reported ▸ List.mem_singleton.mpr rfl)
  obtain rfl := Option.some.inj (constant.symm.trans found)
  refine ⟨g, items, _, rfl, reported, earlier ⟨[.zero, .one]⟩ ?_, fun settled assigned σ => ?_⟩
  · exact ⟨⟨[.zero, .one]⟩, by simp, rfl⟩
  · exact (runs ⟨g, settled, assigned⟩ ⟨true, false⟩ _ _ 2 items _ "sel" 2 0 sized rfl
      (reported ▸ List.mem_singleton.mpr rfl) σ).1

end CombLogic
