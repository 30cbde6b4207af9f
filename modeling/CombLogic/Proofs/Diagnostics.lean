import CombLogic.Proofs.Block.Telling
import CombLogic.Proofs.Calls

/- Diagnostics of compilations. Whatever a log holds, a compilation adds the warnings for the cases that
   its execution comes to, in their order, and behind them the error with which the block is rejected, if
   it is. Nothing that is added gets lost or counted twice, however often the log is drained. -/
namespace CombLogic

open Expr Stmt Logging

theorem diagnostic_severity (x : BlockError) : x.diagnostic.severity = .error := by
  cases x <;> rfl

namespace Block

/-- The error with which a block is rejected. To name something that does not exist is a mistake in the
    use of the compiler, on which it breaks off. -/
def rejection? : Except BlockError BlockSummary → Option BlockError
  | .ok _ => none
  | .error x => if x.isUnknown then none else some x

/-- What a compilation adds to a log, given what it warns of. -/
structure Reported (settings : BlockSettings) (g : Netlist) (statements : List Stmt)
    (result : Except BlockError BlockSummary) (warnings added : List Diagnostic) : Prop where
  parts : added = warnings ++ (rejection? result).toList.map (·.diagnostic)
  lints : ∀ d ∈ warnings, d.severity = .warning ∧ (d.code = .warning 201 ∨ d.code = .warning 202)
  denied : settings.overlapRule = .deny → ∀ d ∈ warnings, d.code ≠ .warning 201
  order : WellNumbered (bodyExprs statements) g.nextNode →
    Coverage.Visits settings Elsewhere (bodyShapes g statements) (errorOf result) warnings
  errors : ∀ log : DiagnosticLog, (log.addAll added).count .error =
    log.count .error + if (rejection? result).isSome then 1 else 0
  warned : ∀ log : DiagnosticLog, (log.addAll added).count .warning =
    log.count .warning + warnings.length

end Block

section

variable {settings : BlockSettings} {g : Netlist} {statements : List Stmt}

theorem appends_unique {α : Type} {m : Compiling α} {s : Session} {ds es : List Diagnostic}
    (first : Appends m s ds) (second : Appends m s es) : ds = es := by
  have same := (first (some .empty)).symm.trans (second (some .empty))
  have logs := congrArg (fun r => r.2.log) same
  have held := congrArg (fun log => log.held.toList) (Option.some.inj logs)
  simpa only [DiagnosticLog.addAll_held, List.append_cancel_left_eq] using held

/-- The warnings come first, and the error if there is one. -/
theorem reported_of_emitted {result : Except BlockError BlockSummary} {warnings : List Diagnostic}
    (warns : ∀ d ∈ warnings, Coverage.Warns settings d)
    (order : WellNumbered (bodyExprs statements) g.nextNode →
      Coverage.Visits settings Block.Elsewhere (bodyShapes g statements) (errorOf result) warnings) :
    Block.Reported settings g statements result warnings
      (warnings ++ (Block.rejection? result).toList.map (·.diagnostic)) where
  parts := rfl
  lints d listed := by
    obtain ⟨severity, codes⟩ := Coverage.warns_code (warns d listed)
    exact ⟨severity, codes.imp And.left And.left⟩
  denied deny d listed overlap := by
    obtain ⟨-, ⟨-, warn⟩ | ⟨unreachable, -⟩⟩ := Coverage.warns_code (warns d listed)
    · cases deny.symm.trans warn
    · cases overlap.symm.trans unreachable
  order := order
  errors log := by
    have none : warnings.countP (·.severity = .error) = 0 := by
      rw [List.countP_eq_zero]
      intro d listed
      simp [(Coverage.warns_code (warns d listed)).1]
    rw [DiagnosticLog.addAll_count, List.countP_append, none]
    cases Block.rejection? result <;> simp [diagnostic_severity]
  warned log := by
    have all : warnings.countP (·.severity = .warning) = warnings.length := by
      rw [List.countP_eq_length]
      intro d listed
      simp [(Coverage.warns_code (warns d listed)).1]
    rw [DiagnosticLog.addAll_count, List.countP_append, all]
    cases Block.rejection? result <;> simp [diagnostic_severity]

/-- A compilation does the same with any log, to which it adds the same. -/
theorem compile_adds (settings : BlockSettings) (g : Netlist) (statements : List Stmt) :
    ∃ result g' warnings added, Block.Reported settings g statements result warnings added ∧
      ∀ log, Block.compile settings statements ⟨g, log⟩ =
        (result, ⟨g', log.map (·.addAll added)⟩) := by
  obtain ⟨warnings, warns, appends⟩ := Block.compileQuietly_emits settings statements ⟨g, none⟩
  obtain ⟨result, s, run⟩ : ∃ result s,
      Block.compileQuietly settings statements ⟨g, none⟩ = (result, s) := ⟨_, _, rfl⟩
  refine ⟨result, s.netlist, warnings, _, reported_of_emitted warns fun numbered => ?_, fun log => ?_⟩
  · have told : TellsFrom settings Block.Elsewhere (bodyShapes g statements)
        (Block.compileQuietly settings statements) ⟨g, none⟩ := compileQuietly_tells none numbered
    obtain ⟨ds, appends', visits⟩ := told
    obtain rfl := appends_unique appends appends'
    rwa [run] at visits
  · have here : Block.compileQuietly settings statements ⟨g, log⟩ =
        (result, ⟨s.netlist, log.map (·.addAll warnings)⟩) := by
      have there := appends log
      rwa [run] at there
    simp only [Block.compile, here]
    cases result with
    | ok block => simp [Block.rejection?]
    | error x =>
      cases unknown : x.isUnknown with
      | true => simp [Block.rejection?, unknown]
      | false =>
        simp [Block.rejection?, unknown, DiagnosticLog.addAll_append, Function.comp_def]
        rfl

end

/-- What is done with a log: a compilation on some netlist, or a drain. -/
inductive LogUse where
  | compile (settings : BlockSettings) (g : Netlist) (statements : List Stmt)
  | drain

namespace LogUse

/-- What is taken out, and the log afterwards. -/
def run : LogUse → DiagnosticLog → List Diagnostic × DiagnosticLog
  | compile settings g statements, log =>
    ([], (Block.compile settings statements ⟨g, some log⟩).2.log.getD log)
  | drain, log => log.drain

/-- All that is taken out, and the log in the end. -/
def runAll : List LogUse → DiagnosticLog → List Diagnostic × DiagnosticLog
  | [], log => ([], log)
  | use :: rest, log =>
    let (drained, log) := use.run log
    let (more, last) := runAll rest log
    (drained ++ more, last)

/-- What comes into an empty log. -/
def emitted (use : LogUse) : List Diagnostic := (use.run .empty).2.held.toList

/-- What was held or emitted is taken out or still held, and counted either way. -/
structure Conserves (before : DiagnosticLog) (emitted drained : List Diagnostic)
    (after : DiagnosticLog) : Prop where
  kept : drained ++ after.held.toList = before.held.toList ++ emitted
  counted : ∀ severity, after.count severity =
    before.count severity + emitted.countP (·.severity = severity)

variable {settings : BlockSettings} {g : Netlist} {statements : List Stmt}

theorem compile_run {result : Except BlockError BlockSummary} {g' : Netlist}
    {added : List Diagnostic} (compiled : ∀ log, Block.compile settings statements ⟨g, log⟩ =
      (result, ⟨g', log.map (·.addAll added)⟩)) (log : DiagnosticLog) :
    (compile settings g statements).run log = ([], log.addAll added) := by
  simp [run, compiled]

theorem compile_emitted {result : Except BlockError BlockSummary} {g' : Netlist}
    {added : List Diagnostic} (compiled : ∀ log, Block.compile settings statements ⟨g, log⟩ =
      (result, ⟨g', log.map (·.addAll added)⟩)) : (compile settings g statements).emitted = added := by
  rw [emitted, compile_run compiled, DiagnosticLog.addAll_held]
  rfl

theorem run_conserves (use : LogUse) (log : DiagnosticLog) :
    Conserves log use.emitted (use.run log).1 (use.run log).2 := by
  cases use with
  | compile settings g statements =>
    obtain ⟨result, g', warnings, added, -, compiled⟩ := compile_adds settings g statements
    rw [compile_emitted compiled, compile_run compiled]
    exact ⟨log.addAll_held added, log.addAll_count added⟩
  | drain => exact ⟨rfl, fun severity => by cases severity <;> rfl⟩

theorem runAll_conserves (uses : List LogUse) (log : DiagnosticLog) :
    Conserves log (uses.flatMap emitted) (runAll uses log).1 (runAll uses log).2 := by
  induction uses generalizing log with
  | nil => exact ⟨by simp [runAll], fun severity => rfl⟩
  | cons use rest ih =>
    obtain ⟨kept, counted⟩ := run_conserves use log
    obtain ⟨kept', counted'⟩ := ih (use.run log).2
    constructor
    · calc (use.run log).1 ++ (runAll rest (use.run log).2).1 ++
            (runAll rest (use.run log).2).2.held.toList
          = (use.run log).1 ++ ((use.run log).2.held.toList ++ rest.flatMap emitted) := by
            rw [List.append_assoc, kept']
        _ = log.held.toList ++ (use :: rest).flatMap emitted := by
            rw [← List.append_assoc, kept, List.append_assoc, List.flatMap_cons]
    · intro severity
      have last : (runAll (use :: rest) log).2 = (runAll rest (use.run log).2).2 := rfl
      rw [last, counted', counted, List.flatMap_cons, List.countP_append]
      omega

end LogUse

/-- Every rejection is reported exactly once, behind the warnings of the cases before it, and every
    report is handed out once and counted once. -/
theorem compilations_reported :
    (∀ settings g statements, ∃ result g' warnings,
      Block.Reported settings g statements result warnings
        (LogUse.compile settings g statements).emitted ∧
      ∀ log, Block.compile settings statements ⟨g, log⟩ =
        (result, ⟨g', log.map (·.addAll (LogUse.compile settings g statements).emitted)⟩)) ∧
    ∀ uses log, LogUse.Conserves log (uses.flatMap LogUse.emitted) (LogUse.runAll uses log).1
      (LogUse.runAll uses log).2 := by
  constructor
  · intro settings g statements
    obtain ⟨result, g', warnings, added, reported, compiled⟩ := compile_adds settings g statements
    have same := LogUse.compile_emitted compiled
    exact ⟨result, g', warnings, same ▸ reported, same ▸ compiled⟩
  · exact LogUse.runAll_conserves

/-- Items that overlap are warned of, and behind that the block is rejected for a latch. -/
theorem latch_reported : ∃ (g : Netlist) (statements : List Stmt) (warning : Diagnostic),
    warning.code = .warning 201 ∧
      (LogUse.compile ⟨.warn, true⟩ g statements).emitted =
        [warning, (BlockError.unassignedRead "y" "y").diagnostic] ∧
      Coverage.Visits ⟨.warn, true⟩ Block.Elsewhere (bodyShapes g statements)
        (some (.unassignedRead "y" "y")) [warning] := by
  let items : List CaseItem := [
    .mk [.literal 1 ⟨[.z, .one]⟩] [.assign (.leaf 1) (.literal 2 (.ofBool true))],
    .mk [.literal 3 ⟨[.one, .z]⟩] []]
  let statements : List Stmt := [.case ⟨true, true⟩ (.signal 4 0) items []]
  let w := (World.empty 10).after [.leaf "sel" (.unknown 2), .leaf "y" (.unknown 1)]
  let g : Netlist := { w.netlist with nextNode := 5 }
  let warning : Diagnostic := .make (.warning 201) "unique case items overlap"
    [⟨"sel", "items 0 and 1 can both match", .primary⟩]
    ["the first matching item is taken; overlaps are also reported at run time"] []
  have numbered : WellNumbered (bodyExprs statements) g.nextNode := by decide +kernel
  have rejected : (Block.compile ⟨.warn, true⟩ statements ⟨g, none⟩).1 =
      .error (.unassignedRead "y" "y") := by decide +kernel
  have emitted : (LogUse.compile ⟨.warn, true⟩ g statements).emitted =
      [warning, (BlockError.unassignedRead "y" "y").diagnostic] := by decide +kernel
  refine ⟨g, statements, warning, rfl, emitted, ?_⟩
  clear_value g w statements
  obtain ⟨result, g', warnings, reported, compiled⟩ :=
    compilations_reported.1 ⟨.warn, true⟩ g statements
  rw [compiled none] at rejected
  obtain rfl : result = .error (.unassignedRead "y" "y") := rejected
  have parts := reported.parts
  rw [emitted] at parts
  obtain rfl : [warning] = warnings := List.append_cancel_right parts
  exact reported.order numbered

end CombLogic
