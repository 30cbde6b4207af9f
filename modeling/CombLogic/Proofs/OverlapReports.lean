import CombLogic.Proofs.Block.Denied
import CombLogic.Proofs.Block.Patterns
import CombLogic.Proofs.Block.Telling
import CombLogic.Proofs.Calls

/- Reports of overlapping items. Two items are reported exactly if some selector is taken by both of
   them, or if a wildcard of the one stands where the other has an unknown bit: such a pattern matches
   nothing for sure, but the test takes a wildcard to overlap with anything. -/
namespace CombLogic

open Expr Stmt

namespace Coverage

variable {wildcard : Bool} {a b : List (Option Value)} {shape : Shape} {settings : BlockSettings}
  {i j : Nat}

/-- Some selector is taken by two items. -/
def Shared (shape : Shape) (i j : Nat) : Prop :=
  i < j ∧ ∃ a b, shape.items[i]? = some a ∧ shape.items[j]? = some b ∧
    ∃ s, Takes shape.kind.wildcard s a ∧ Takes shape.kind.wildcard s b

/-- Patterns of two items pass for overlapping although one of them has an unknown bit. -/
def Misread (shape : Shape) (i j : Nat) : Prop :=
  i < j ∧ shape.kind.wildcard = true ∧ ∃ a b, shape.items[i]? = some a ∧ shape.items[j]? = some b ∧
    ∃ p q, some p ∈ a ∧ some q ∈ b ∧ valuesOverlap true p q = true ∧ (.x ∈ p.bits ∨ .x ∈ q.bits)

/-- What is reported and why. -/
theorem mem_overlaps_iff : (i, j) ∈ overlaps shape ↔ Shared shape i j ∨ Misread shape i j := by
  rw [mem_overlaps]
  constructor
  · intro ⟨less, a, b, here, there, overlap⟩
    obtain ⟨p, q, first, second, overlap⟩ := itemsOverlap_iff.mp overlap
    by_cases unknown : shape.kind.wildcard = true ∧ (.x ∈ p.bits ∨ .x ∈ q.bits)
    · obtain ⟨wild, unknown⟩ := unknown
      rw [wild] at overlap
      exact .inr ⟨less, wild, a, b, here, there, p, q, first, second, overlap, unknown⟩
    · have known : shape.kind.wildcard = true → .x ∉ p.bits ∧ .x ∉ q.bits := by
        intro wild
        exact not_or.mp fun either => unknown ⟨wild, either⟩
      obtain ⟨s, accepts, accepts'⟩ := common_iff.mpr ⟨overlap, known⟩
      exact .inl ⟨less, a, b, here, there, s, ⟨p, first, accepts⟩, q, second, accepts'⟩
  · intro either
    rcases either with ⟨less, a, b, here, there, s, takes, takes'⟩ | ⟨less, wild, rest⟩
    · exact ⟨less, a, b, here, there, takes_overlap takes takes'⟩
    · obtain ⟨a, b, here, there, p, q, first, second, overlap, -⟩ := rest
      refine ⟨less, a, b, here, there, itemsOverlap_iff.mpr ⟨p, q, first, second, ?_⟩⟩
      rwa [wild]

/-- Patterns without unknown bits are read as they are meant. -/
theorem known_read (known : shape.kind.wildcard = true →
    ∀ item ∈ shape.items, ∀ p, some p ∈ item → .x ∉ p.bits) : ¬Misread shape i j := by
  intro ⟨_, wild, a, b, here, there, p, q, first, second, _, unknown⟩
  rcases unknown with unknown | unknown
  · exact known wild a (List.mem_of_getElem? here) p first unknown
  · exact known wild b (List.mem_of_getElem? there) q second unknown

theorem check_warn (unique : shape.kind.unique = true) (warn : settings.overlapRule = .warn) :
    check settings shape = .ok ((overlaps shape).map (overlapWarning shape)) := by
  simp [check, unique, warn]

theorem check_deny (unique : shape.kind.unique = true) (deny : settings.overlapRule = .deny)
    (found : (i, j) ∈ overlaps shape) : ∃ x, check settings shape = .error x := by
  cases pairs : overlaps shape with
  | nil => simp [pairs] at found
  | cons first rest => simp [check, unique, deny, pairs]

theorem check_ok {warnings : List Diagnostic} (unique : shape.kind.unique = true)
    (checked : check settings shape = .ok warnings) :
    ∀ w ∈ warnings, ∃ i j, (i, j) ∈ overlaps shape ∧ w = overlapWarning shape (i, j) := by
  intro w listed
  unfold check at checked
  rw [if_pos unique] at checked
  split at checked
  · cases checked
    cases listed
  · nomatch checked
  · obtain rfl := Except.ok.inj checked
    obtain ⟨p, found, rfl⟩ := List.mem_map.mp listed
    exact ⟨p.1, p.2, found, rfl⟩

end Coverage

section

variable {settings : BlockSettings} {g : Netlist} {statements : List Stmt} {name : String} {i j : Nat}

/-- An overlap for which a block is rejected was found at one of its sites. -/
theorem compile_denied {log : Option DiagnosticLog}
    (numbered : WellNumbered (bodyExprs statements) g.nextNode)
    (rejected : (Block.compile settings statements ⟨g, log⟩).1 = .error (.overlap name i j)) :
    ∃ site ∈ bodySites statements,
      Coverage.check settings (site.shape g) = .error (.overlap name i j) := by
  have told : TellsFrom settings Block.Elsewhere (bodyShapes g statements)
      (Block.compileQuietly settings statements) ⟨g, log⟩ := compileQuietly_tells log numbered
  obtain ⟨ds, -, visits⟩ := told
  rw [← Block.compile_result, rejected] at visits
  rcases Coverage.visits_error visits with elsewhere | ⟨shape, listed, failed⟩
  · exact (elsewhere name i j rfl).elim
  · obtain ⟨site, here, rfl⟩ := bodyShapes_site statements listed failed
    exact ⟨site, here, failed⟩

end

/-- Reports of overlaps are complete, and they are true unless a pattern is misread; so they are true
    of a case whose patterns have no unknown bits beside wildcards. -/
theorem overlap_reports (settings : BlockSettings) :
    (∀ shape, shape.kind.unique = true →
      (∀ warnings, Coverage.check settings shape = .ok warnings → ∀ w ∈ warnings, ∃ i j,
        w = Coverage.overlapWarning shape (i, j) ∧
          (Coverage.Shared shape i j ∨ Coverage.Misread shape i j)) ∧
      (∀ x, Coverage.check settings shape = .error x → ∃ i j,
        x = .overlap shape.selector i j ∧
          (Coverage.Shared shape i j ∨ Coverage.Misread shape i j)) ∧
      (∀ i j, Coverage.Shared shape i j ∨ Coverage.Misread shape i j →
        (settings.overlapRule = .warn → ∃ warnings, Coverage.check settings shape = .ok warnings ∧
          Coverage.overlapWarning shape (i, j) ∈ warnings) ∧
        (settings.overlapRule = .deny → ∃ x, Coverage.check settings shape = .error x)) ∧
      ((shape.kind.wildcard = true → ∀ item ∈ shape.items, ∀ p, some p ∈ item → .x ∉ p.bits) →
        ∀ i j, ¬Coverage.Misread shape i j)) ∧
    ∀ g log statements name i j, WellNumbered (bodyExprs statements) g.nextNode →
      (Block.compile settings statements ⟨g, log⟩).1 = .error (.overlap name i j) →
        ∃ site ∈ bodySites statements, (site.shape g).selector = name ∧
          (Coverage.Shared (site.shape g) i j ∨ Coverage.Misread (site.shape g) i j) := by
  constructor
  · intro shape unique
    refine ⟨?_, ?_, ?_, ?_⟩
    · intro warnings checked w listed
      obtain ⟨i, j, found, same⟩ := Coverage.check_ok unique checked w listed
      exact ⟨i, j, same, Coverage.mem_overlaps_iff.mp found⟩
    · intro x failed
      obtain ⟨-, -, i, j, found, same⟩ := Coverage.check_error failed
      exact ⟨i, j, same, Coverage.mem_overlaps_iff.mp found⟩
    · intro i j cause
      have found := Coverage.mem_overlaps_iff.mpr cause
      constructor
      · intro warn
        exact ⟨_, Coverage.check_warn unique warn, List.mem_map_of_mem found⟩
      · intro deny
        exact Coverage.check_deny unique deny found
    · intro known i j misread
      exact Coverage.known_read known misread
  · intro g log statements name i j numbered rejected
    obtain ⟨site, listed, failed⟩ := compile_denied numbered rejected
    obtain ⟨-, -, i', j', found, same⟩ := Coverage.check_error failed
    cases same
    exact ⟨site, listed, rfl, Coverage.mem_overlaps_iff.mp found⟩

/-- The first and the last item can both match; the one between them matches nothing for sure. -/
theorem shared_rejected : ∃ (g : Netlist) (statements : List Stmt),
    (Block.compile ⟨.deny, true⟩ statements ⟨g, none⟩).1 = .error (.overlap "sel" 0 2) ∧
      ∃ site ∈ bodySites statements, Coverage.Shared (site.shape g) 0 2 := by
  let items : List CaseItem := [
    .mk [.literal 1 ⟨[.z, .one]⟩] [.assign (.leaf 1) (.literal 2 (.ofBool true))],
    .mk [.literal 3 ⟨[.x, .zero]⟩] [], .mk [.literal 4 ⟨[.zero, .z]⟩] []]
  let statements : List Stmt := [.assign (.leaf 1) (.literal 0 (.ofBool false)),
    .case ⟨true, true⟩ (.signal 5 0) items []]
  let w := (World.empty 10).after [.leaf "sel" (.unknown 2), .leaf "y" (.unknown 1)]
  let g : Netlist := { w.netlist with nextNode := 6 }
  have numbered : WellNumbered (bodyExprs statements) g.nextNode := by decide +kernel
  have rejected : (Block.compile ⟨.deny, true⟩ statements ⟨g, none⟩).1 =
      .error (.overlap "sel" 0 2) := by decide +kernel
  have rows : ∀ site ∈ bodySites statements, (site.shape g).items =
      [[some ⟨[.z, .one]⟩], [some ⟨[.x, .zero]⟩], [some ⟨[.zero, .z]⟩]] := by decide +kernel
  clear_value g w statements
  obtain ⟨site, listed, -, cause⟩ := (overlap_reports _).2 g none statements _ _ _ numbered rejected
  refine ⟨g, statements, rejected, site, listed, ?_⟩
  rcases cause with shared | ⟨-, -, a, b, here, there, p, q, first, second, -, unknown⟩
  · exact shared
  · rw [rows site listed] at here there
    cases here
    cases there
    simp_all

/-- A wildcard against an unknown bit, which is taken for an overlap. -/
theorem unmet_overlap : ∃ (g : Netlist) (statements : List Stmt),
    (Block.compile ⟨.deny, true⟩ statements ⟨g, none⟩).1 = .error (.overlap "sel" 0 1) ∧
      ∀ site ∈ bodySites statements, ¬Coverage.Shared (site.shape g) 0 1 := by
  let items : List CaseItem := [
    .mk [.literal 1 ⟨[.z]⟩] [.assign (.leaf 1) (.literal 2 (.ofBool true))],
    .mk [.literal 3 ⟨[.x]⟩] [.assign (.leaf 1) (.literal 4 (.ofBool false))]]
  let statements : List Stmt := [.assign (.leaf 1) (.literal 0 (.ofBool false)),
    .case ⟨true, true⟩ (.signal 5 0) items []]
  let w := (World.empty 10).after [.leaf "sel" (.unknown 1), .leaf "y" (.unknown 1)]
  let g : Netlist := { w.netlist with nextNode := 6 }
  have rejected : (Block.compile ⟨.deny, true⟩ statements ⟨g, none⟩).1 =
      .error (.overlap "sel" 0 1) := by decide +kernel
  have rows : ∀ site ∈ bodySites statements, (site.shape g).kind.wildcard = true ∧
      (site.shape g).items = [[some ⟨[.z]⟩], [some ⟨[.x]⟩]] := by decide +kernel
  refine ⟨g, statements, rejected, fun site listed => ?_⟩
  obtain ⟨wild, rows⟩ := rows site listed
  rintro ⟨-, a, b, here, there, s, -, q, second, accepts⟩
  rw [rows] at there
  cases there
  obtain rfl : q = ⟨[.x]⟩ := by simpa using second
  rw [wild] at accepts
  exact Coverage.accepts_known accepts (by simp)

end CombLogic
