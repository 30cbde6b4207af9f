import CombLogic.Proofs.Attempts
import CombLogic.Proofs.Netlist.Kept
import CombLogic.Proofs.Order

/- A settlement pass. Every driver in the order of a pass is evaluated after all drivers that it reads,
   so what is found for it is its value on the values that the pass ends with; and the values kept by
   node number, which all its drivers share, are the values of those nodes there. -/
namespace CombLogic.Netlist

open Expr

variable {g : Netlist} {made : List ConflictCheck} {K : Set Expr}

theorem env_of_value {ev : Evaluation} {id : LeafId} {value : Value}
    (known : ev.values[id]? = some value) : (ev.env g).value id = .ok value := by
  simp [Evaluation.env, known]

theorem env_of_none {ev : Evaluation} {id : LeafId} (unknown : ev.values[id]? = none) :
    (ev.env g).value id = g.value id := by
  simp [Evaluation.env, unknown]

theorem env_alike {ev ev' : Evaluation} {id : LeafId} (same : ev.values[id]? = ev'.values[id]?) :
    (ev.env g).value id = (ev'.env g).value id := by
  simp [Evaluation.env, same]

theorem values_set (ev : Evaluation) (id other : LeafId) (value : Value) :
    (ev.set id value).values[other]? = if id = other then some value else ev.values[other]? := by
  simp only [Evaluation.set, Std.TreeMap.getElem?_insert, Std.LawfulEqCmp.compare_eq_iff_eq]

theorem run_values {ev ev' : Evaluation} {e : Expr} {value : Value}
    (done : ev.run g e = .ok (value, ev')) :
    (e.evaluate (ev.env g)).run ev.memo = .ok (value, ev'.memo) ∧ ev'.values = ev.values := by
  obtain ⟨⟨v, memo⟩, found, done⟩ := bind_ok done
  cases done
  exact ⟨found, rfl⟩

/-- One driver: what evaluation finds is its value, and what it keeps stays right. -/
theorem run_right {next : Nat} (sharing : Sharing K next) {e : Expr} (member : e ∈ K)
    (resolved : e.Resolved) {env : Env} {ev ev' : Evaluation} {value : Value}
    (right : MemoRight K env ev.memo)
    (same : ∀ d, e.Reads d → (ev.env g).value d = env.value d)
    (done : ev.run g e = .ok (value, ev')) :
    e.value env = .ok value ∧ MemoRight K env ev'.memo := by
  obtain ⟨found, -⟩ := run_values done
  have computes := (evaluate_computes sharing e member : Computes (MemoRight K env) _ _) ev.memo right
  rw [← evaluate_congr e resolved same] at computes
  simp only [StateT.run] at found
  cases plain : e.value env with
  | error x =>
    rw [plain, found] at computes
    cases computes
  | ok v =>
    rw [plain, found] at computes
    obtain ⟨after, equal, right'⟩ := computes
    cases equal
    exact ⟨rfl, right'⟩

section Drivers

theorem evaluateDrivers_cons {ev ev' : Evaluation} {count n : Nat} {id : LeafId}
    {rest : List LeafId} (done : g.evaluateDrivers ev count (id :: rest) = .ok (ev', n)) :
    ∃ leaf, g.leaves.get? id = some leaf ∧
      ((∃ e value ev₁, leaf.drive = .driven e ∧ ev.run g e = .ok (value, ev₁) ∧
          g.evaluateDrivers (ev₁.set id value) (count + 1) rest = .ok (ev', n)) ∨
        (leaf.drive.isDriven = false ∧ g.evaluateDrivers ev count rest = .ok (ev', n))) := by
  rw [evaluateDrivers] at done
  obtain ⟨leaf, found, done⟩ := bind_ok done
  refine ⟨leaf, leaf_ok.mp found, ?_⟩
  cases drive : leaf.drive with
  | driven e =>
    rw [drive] at done
    obtain ⟨⟨value, ev₁⟩, here, done⟩ := bind_ok done
    exact .inl ⟨e, value, ev₁, rfl, here, done⟩
  | undriven | root =>
    rw [drive] at done
    exact .inr ⟨rfl, done⟩

/-- Only driven leaves in the order take a value. -/
theorem evaluateDrivers_frame {order : List LeafId} {ev ev' : Evaluation} {count n : Nat}
    (done : g.evaluateDrivers ev count order = .ok (ev', n)) {d : LeafId}
    (other : d ∈ order → ∀ leaf, g.leaves.get? d = some leaf → leaf.drive.isDriven = false) :
    ev'.values[d]? = ev.values[d]? := by
  induction order generalizing ev count with
  | nil =>
    cases done
    rfl
  | cons id rest ih =>
    have later := fun member => other (List.mem_cons_of_mem _ member)
    obtain ⟨leaf, found, ⟨e, value, ev₁, driven, here, done⟩ | ⟨-, done⟩⟩ := evaluateDrivers_cons done
    · have apart : id ≠ d := by
        rintro rfl
        have := other (by simp) leaf found
        simp [driven, Drive.isDriven] at this
      rw [ih done later, values_set, if_neg apart, (run_values here).2]
    · exact ih done later

/-- Every driver of the order has its value where the evaluation ends. -/
theorem evaluateDrivers_right (kept : Kept g made K) {order : List LeafId} {ev ev' : Evaluation}
    {count n : Nat} (forward : Order.Forward g.readersOf order)
    (done : g.evaluateDrivers ev count order = .ok (ev', n))
    (right : MemoRight K (ev'.env g) ev.memo) :
    MemoRight K (ev'.env g) ev'.memo ∧ ∀ id ∈ order, ∀ leaf e, g.leaves.get? id = some leaf →
      leaf.drive = .driven e → ∃ value, e.value (ev'.env g) = .ok value ∧
        ev'.values[id]? = some value := by
  induction order generalizing ev count with
  | nil =>
    cases done
    exact ⟨right, by simp⟩
  | cons id rest ih =>
    obtain ⟨ahead, forward⟩ := forward
    obtain ⟨leaf, found, ⟨e, value, ev₁, driven, here, done⟩ | ⟨undriven, done⟩⟩ :=
      evaluateDrivers_cons done
    · obtain ⟨member, checked⟩ := kept.driver id leaf e found driven
      -- a leaf that this driver reads takes no value from here on
      have settled : ∀ d, e.Reads d → (ev.env g).value d = (ev'.env g).value d := by
        intro d read
        have edge := kept.listed id leaf e found driven d read
        have apart : id ≠ d := fun same => ahead id (by simp) (same ▸ edge)
        have past : d ∉ rest := fun later => ahead d (by simp [later]) edge
        refine env_alike ?_
        rw [evaluateDrivers_frame done (fun later => (past later).elim), values_set, if_neg apart,
          (run_values here).2]
      obtain ⟨plain, right'⟩ := run_right kept.sharing member checked.resolved right settled here
      obtain ⟨last, each⟩ := ih forward done right'
      refine ⟨last, fun other listed leaf' e' found' driven' => ?_⟩
      by_cases later : other ∈ rest
      · exact each other later leaf' e' found' driven'
      · obtain rfl : other = id := (List.mem_cons.mp listed).resolve_right later
        obtain rfl : leaf = leaf' := by simpa [found] using found'
        obtain rfl : e = e' := by simpa [driven] using driven'
        refine ⟨value, plain, ?_⟩
        rw [evaluateDrivers_frame done (fun inside => (later inside).elim), values_set, if_pos rfl]
    · obtain ⟨last, each⟩ := ih forward done right
      refine ⟨last, fun other listed leaf' e' found' driven' => ?_⟩
      rcases List.mem_cons.mp listed with rfl | later
      · obtain rfl : leaf = leaf' := by simpa [found] using found'
        simp [driven', Drive.isDriven] at undriven
      · exact each other later leaf' e' found' driven'

end Drivers

end CombLogic.Netlist
