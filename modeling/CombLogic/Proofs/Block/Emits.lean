import CombLogic.Proofs.Block.Errors

/- What is added to a log of diagnostics. It does not depend on the log, and neither does anything else
   that an execution or a compilation does. -/
namespace CombLogic

namespace DiagnosticLog

/-- Several diagnostics one after the other. -/
def addAll (s : DiagnosticLog) (ds : List Diagnostic) : DiagnosticLog := ds.foldl add s

variable (s : DiagnosticLog)

@[simp] theorem add_held (d : Diagnostic) : (s.add d).held = s.held.push d := by
  unfold add
  cases d.severity <;> rfl

theorem add_count (d : Diagnostic) (severity : Severity) :
    (s.add d).count severity = s.count severity + if d.severity = severity then 1 else 0 := by
  unfold add count
  cases d.severity <;> cases severity <;> rfl

theorem addAll_append (ds es : List Diagnostic) : s.addAll (ds ++ es) = (s.addAll ds).addAll es :=
  List.foldl_append

theorem addAll_held (ds : List Diagnostic) : (s.addAll ds).held.toList = s.held.toList ++ ds := by
  induction ds generalizing s with
  | nil => simp [addAll]
  | cons d rest ih =>
    have later : (s.addAll (d :: rest)).held.toList = _ := ih (s.add d)
    rw [later, add_held, Array.toList_push, List.append_assoc, List.singleton_append]

theorem addAll_count (ds : List Diagnostic) (severity : Severity) :
    (s.addAll ds).count severity = s.count severity + ds.countP (·.severity = severity) := by
  induction ds generalizing s with
  | nil => rfl
  | cons d rest ih =>
    have later : (s.addAll (d :: rest)).count severity = _ := ih (s.add d)
    rw [later, add_count, List.countP_cons]
    simp only [decide_eq_true_eq]
    omega

end DiagnosticLog

/-- A state with a place for a log. -/
class Logging (σ : Type) where
  relog : Option DiagnosticLog → σ → σ

open Logging (relog)

instance : Logging ExecState := ⟨fun log s => { s with log }⟩

instance : Logging Session := ⟨fun log s => { s with log }⟩

/-- From some state, a computation does the same with any log, to which it adds some diagnostics. -/
def Appends {σ α : Type} [Logging σ] (m : ExceptT BlockError (StateM σ) α) (s : σ)
    (ds : List Diagnostic) : Prop :=
  ∀ log, m (relog log s) = ((m s).1, relog (log.map (·.addAll ds)) (m s).2)

/-- From any state, the diagnostics are of some kind. -/
def Emits {σ α : Type} [Logging σ] (kind : Diagnostic → Prop)
    (m : ExceptT BlockError (StateM σ) α) : Prop :=
  ∀ s, ∃ ds, (∀ d ∈ ds, kind d) ∧ Appends m s ds

section

variable {σ α β : Type} [Logging σ] {m : ExceptT BlockError (StateM σ) α}
  {f : α → ExceptT BlockError (StateM σ) β} {s s' : σ} {ds es : List Diagnostic}
  {kind : Diagnostic → Prop}

theorem map_nothing (log : Option DiagnosticLog) : log.map (·.addAll []) = log := by
  cases log <;> rfl

theorem appends_throw (x : BlockError) :
    Appends (throw x : ExceptT BlockError (StateM σ) α) s [] := by
  intro log
  rw [map_nothing]
  rfl

theorem appends_then {a : α} (run : m s = (.ok a, s')) (first : Appends m s ds)
    (rest : Appends (f a) s' es) : Appends (m >>= f) s (ds ++ es) := by
  intro log
  have here : m (relog log s) = (.ok a, relog (log.map (·.addAll ds)) s') := by
    rw [first log, run]
  rw [step_ok here, step_ok run, rest, Option.map_map]
  have both : (·.addAll es) ∘ (·.addAll ds) = fun log : DiagnosticLog => log.addAll (ds ++ es) :=
    funext fun log => (log.addAll_append ds es).symm
  rw [both]

theorem appends_failed {x : BlockError} (run : m s = (.error x, s')) (first : Appends m s ds) :
    Appends (m >>= f) s ds := by
  intro log
  have here : m (relog log s) = (.error x, relog (log.map (·.addAll ds)) s') := by
    rw [first log, run]
  rw [step_error here, step_error run]

/-- A look at the state that leaves the log out. -/
theorem appends_get {f : σ → ExceptT BlockError (StateM σ) β} (blind : ∀ log, f (relog log s) = f s)
    (rest : Appends (f s) s ds) : Appends (get >>= f) s ds := by
  have looks : ∀ t, (get >>= f) t = f t t := fun _ => rfl
  intro log
  rw [looks, looks, blind, rest]

theorem emits_then (first : Emits kind m) (rest : ∀ a, Emits kind (f a)) : Emits kind (m >>= f) := by
  intro s
  obtain ⟨ds, here, appends⟩ := first s
  obtain ⟨result, s', run⟩ : ∃ result s', m s = (result, s') := ⟨_, _, rfl⟩
  cases result with
  | error x => exact ⟨ds, here, appends_failed run appends⟩
  | ok a =>
    obtain ⟨es, there, appends'⟩ := rest a s'
    refine ⟨ds ++ es, fun d listed => ?_, appends_then run appends appends'⟩
    exact (List.mem_append.mp listed).elim (here d) (there d)

theorem emits_get {f : σ → ExceptT BlockError (StateM σ) β} (blind : ∀ log s, f (relog log s) = f s)
    (rest : ∀ s, Emits kind (f s)) : Emits kind (get >>= f) := by
  intro s
  obtain ⟨ds, each, appends⟩ := rest s s
  exact ⟨ds, each, appends_get (fun log => blind log s) appends⟩

/-- A step that passes the log on. -/
theorem emits_blind (blind : ∀ log s, m (relog log s) = ((m s).1, relog log (m s).2)) :
    Emits kind m := by
  intro s
  refine ⟨[], by simp, fun log => ?_⟩
  rw [map_nothing]
  exact blind log s

theorem emits_sequence {rejected : BlockError → Prop} :
    Sequential rejected fun α (m : ExceptT BlockError (StateM σ) α) => Emits kind m where
  answers _ := emits_blind fun _ _ => rfl
  follows := emits_then
  rejects _ := emits_blind fun _ _ => rfl

end

section

variable {α β : Type} {kind : Diagnostic → Prop}

theorem emits_ask (r : Except NetlistError α) : Emits kind (Executing.ask r) := by
  cases r with
  | ok a => exact emits_blind fun _ _ => rfl
  | error e => exact emits_blind fun _ _ => rfl

theorem emits_build (b : Numbering (Except NetlistError) α) : Emits kind (Executing.build b) := by
  refine emits_blind fun log s => ?_
  have same : (relog log s).nextNode = s.nextNode := rfl
  simp only [Executing.build, same]
  split <;> rfl

theorem emits_steps {rejected : BlockError → Prop} : Stepwise rejected fun _ m => Emits kind m where
  toSequential := emits_sequence
  asks := emits_ask
  builds := emits_build

theorem emits_watch (selector : String) (conflict : Expr) :
    Emits kind (Executing.watch selector conflict) :=
  emits_blind fun _ _ => rfl

/-- What is emitted behind a check may depend on its answer. -/
theorem emits_lift {r : Except BlockError α} {f : α → Executing β}
    (rest : ∀ a, r = .ok a → Emits kind (f a)) : Emits kind (liftM r >>= f) := by
  cases r with
  | ok a => exact rest a rfl
  | error x => exact emits_blind fun _ _ => rfl

/-- Reports go to the log one after the other. -/
theorem reports_run (ds : List Diagnostic) (s : ExecState) :
    (forIn ds PUnit.unit (fun d _ => do
      Executing.report d
      pure (ForInStep.yield PUnit.unit)) : Executing PUnit) s =
        (.ok PUnit.unit, relog (s.log.map (·.addAll ds)) s) := by
  induction ds generalizing s with
  | nil =>
    rw [map_nothing]
    rfl
  | cons d rest ih =>
    have first : (do
        Executing.report d
        pure (ForInStep.yield PUnit.unit) : Executing (ForInStep PUnit)) s =
          (.ok (.yield PUnit.unit), relog (s.log.map (·.add d)) s) := rfl
    rw [List.forIn_cons, step_ok first]
    have later := ih (relog (s.log.map (·.add d)) s)
    have logged : (relog (s.log.map (·.add d)) s).log = s.log.map (·.add d) := rfl
    rw [logged, Option.map_map] at later
    exact later

theorem appends_reports (ds : List Diagnostic) (s : ExecState) :
    Appends (forIn ds PUnit.unit (fun d _ => do
      Executing.report d
      pure (ForInStep.yield PUnit.unit)) : Executing PUnit) s ds := by
  intro log
  rw [reports_run, reports_run]
  rfl

/-- The check phase of a compilation starts with the log of its session. -/
theorem appends_execute {r : Executing α} {s : Session} {ds : List Diagnostic}
    (appends : Appends r ⟨s.netlist.nextNode, s.log, #[]⟩ ds) :
    Appends (Compiling.execute r) s ds := by
  intro log
  have here : r ⟨s.netlist.nextNode, log, #[]⟩ = _ := appends log
  obtain ⟨result, t, run⟩ : ∃ result t, r ⟨s.netlist.nextNode, s.log, #[]⟩ = (result, t) :=
    ⟨_, _, rfl⟩
  rw [run] at here
  have netlist : (relog log s).netlist = s.netlist := rfl
  have logged : (relog log s).log = log := rfl
  simp only [Compiling.execute, netlist, logged, here, run]
  cases result <;> rfl

theorem emits_execute {r : Executing α} (emits : Emits kind r) :
    Emits kind (Compiling.execute r) := by
  intro s
  obtain ⟨ds, each, appends⟩ := emits ⟨s.netlist.nextNode, s.log, #[]⟩
  exact ⟨ds, each, appends_execute appends⟩

theorem emits_question (f : Netlist → Except NetlistError α) : Emits kind (Compiling.ask f) :=
  emits_blind fun _ _ => rfl

theorem emits_edit (e : Edit α) : Emits kind (Compiling.edit e) :=
  emits_blind fun _ _ => rfl

theorem ensureFree_emits (leaf : LeafId) : Emits kind (Block.ensureFree leaf) := by
  have steps : Sequential (fun _ => True) fun α (m : Compiling α) => Emits kind m := emits_sequence
  refine emits_then (emits_question _) fun taken => ?_
  split
  · exact emits_then (emits_question _) fun name => steps.rejects trivial
  · exact steps.answers _

end

namespace Coverage

/-- A warning from the check of some case. -/
def Warns (settings : BlockSettings) (d : Diagnostic) : Prop :=
  ∃ shape ds, check settings shape = .ok ds ∧ d ∈ ds

/-- Items that overlap are warned of only where that is asked for, and unreachable ones likewise. -/
theorem warns_code {settings : BlockSettings} {d : Diagnostic} (warns : Warns settings d) :
    d.severity = .warning ∧ (d.code = .warning 201 ∧ settings.overlapRule = .warn ∨
      d.code = .warning 202 ∧ settings.reportUnreachable = true) := by
  obtain ⟨shape, ds, checked, listed⟩ := warns
  unfold check at checked
  split at checked
  · split at checked
    · cases checked
      cases listed
    · cases checked
    · rename_i allows denies
      cases checked
      obtain ⟨p, found, rfl⟩ := List.mem_map.mp listed
      have rule : settings.overlapRule = .warn := by
        cases rule : settings.overlapRule with
        | allow => exact (allows rule).elim
        | deny =>
          obtain ⟨q, rest, pairs⟩ := List.exists_cons_of_ne_nil (List.ne_nil_of_mem found)
          exact (denies q.1 q.2 rest rule pairs).elim
        | warn => rfl
      exact ⟨rfl, .inl ⟨rfl, rule⟩⟩
  · split at checked
    · rename_i asked
      cases checked
      obtain ⟨p, -, rfl⟩ := List.mem_map.mp listed
      exact ⟨rfl, .inr ⟨rfl, asked⟩⟩
    · cases checked
      cases listed

end Coverage

namespace Executing

variable (c : ExecContext)

theorem itemMatches_emits (kind : CaseKind) (selector : Expr) (items : List CaseItem)
    (b : Binding) : Emits (Coverage.Warns c.settings) (itemMatches c kind selector items b) := by
  have steps : Stepwise BlockError.Plain fun _ m => Emits (Coverage.Warns c.settings) m := emits_steps
  refine emits_then (steps.builds _) fun r => emits_then ?_ fun found => ?_
  · exact steps.mapM items fun item => steps.mapM item.patterns fun pattern => steps.builds _
  refine emits_then (steps.asks _) fun name => emits_lift fun ds checked => ?_
  refine emits_then (fun s => ⟨ds, fun d listed => ⟨_, ds, checked, listed⟩,
    appends_reports ds s⟩) fun _ => ?_
  refine emits_then (steps.builds _) fun resolved => ?_
  exact emits_then (steps.builds _) fun joints => steps.answers _

mutual

theorem statement_emits (path : List Expr) (s : Stmt) (b : Binding) :
    Emits (Coverage.Warns c.settings) (statement c path s b) := by
  have steps : Stepwise BlockError.Plain fun _ m => Emits (Coverage.Warns c.settings) m := emits_steps
  cases s with
  | assign target value =>
    simp only [statement]
    exact steps.assign c target value b
  | ifElse e thenBody elseBody =>
    simp only [statement]
    refine emits_then (steps.condition c e b) fun holds => ?_
    refine emits_then (body_emits _ thenBody b) fun thenArm => ?_
    refine emits_then (steps.builds _) fun fails => ?_
    refine emits_then (body_emits _ elseBody b) fun elseArm => ?_
    exact steps.joinBranches holds thenArm elseArm b.keys b
  | case kind selector items default =>
    simp only [statement]
    refine emits_then (itemMatches_emits c kind selector items b) fun r => ?_
    refine emits_then (steps.watchCase c emits_watch path r.2 kind r.1) fun _ => ?_
    refine emits_then (items_emit path items r.2 none b) fun arms => ?_
    refine emits_then (steps.builds _) fun guard => ?_
    refine emits_then (body_emits _ default b) fun fallback => ?_
    exact steps.joinItems r.2 arms.1 fallback b.keys b

theorem body_emits (path : List Expr) (body : List Stmt) (b : Binding) :
    Emits (Coverage.Warns c.settings) (Executing.body c path body b) := by
  cases body with
  | nil =>
    simp only [Executing.body]
    exact emits_blind fun _ _ => rfl
  | cons s rest =>
    simp only [Executing.body]
    exact emits_then (statement_emits path s b) fun b' => body_emits path rest b'

theorem items_emit (path : List Expr) (items : List CaseItem) (found : List Expr)
    (earlier : Option Expr) (b : Binding) :
    Emits (Coverage.Warns c.settings) (itemArms c path items found earlier b) := by
  have steps : Stepwise BlockError.Plain fun _ m => Emits (Coverage.Warns c.settings) m := emits_steps
  cases items with
  | nil =>
    simp only [itemArms]
    exact steps.answers _
  | cons item rest =>
    obtain ⟨patterns, body⟩ := item
    cases found with
    | nil =>
      simp only [itemArms]
      exact steps.answers _
    | cons e found =>
      simp only [itemArms]
      refine emits_then (steps.builds _) fun guard => ?_
      refine emits_then (body_emits _ body b) fun arm => ?_
      refine emits_then (steps.builds _) fun joint => ?_
      exact emits_then (items_emit path rest found _ b) fun r => steps.answers _

end

end Executing

namespace Block

theorem plan_emits (c : ExecContext) (statements : List Stmt) (outputs : List LeafId) :
    Emits (Coverage.Warns c.settings) (plan c statements outputs) := by
  have steps : Stepwise Elsewhere fun _ m => Emits (Coverage.Warns c.settings) m := emits_steps
  refine emits_then (emits_steps.unassigned outputs .empty) fun start => ?_
  refine emits_then (Executing.body_emits c [] statements start) fun final => ?_
  refine emits_then (steps.mapM outputs (steps.checkOutput c.netlist final)) fun drivers => ?_
  refine emits_get (fun _ _ => rfl) fun s => ?_
  refine emits_then (steps.mapM s.conflicts.toList fun w =>
    steps.checkConflict c.netlist w.1 w.2) fun checks => ?_
  exact steps.answers _

/-- Up to its end, a compilation emits nothing but warnings about cases. -/
theorem compileQuietly_emits (settings : BlockSettings) (statements : List Stmt) :
    Emits (Coverage.Warns settings) (compileQuietly settings statements) := by
  have steps : Sequential (fun _ => True) fun α (m : Compiling α) =>
    Emits (Coverage.Warns settings) m := emits_sequence
  refine emits_then (emits_question _) fun outputs => ?_
  refine emits_then (steps.each outputs fun leaf _ => ensureFree_emits leaf) fun _ => ?_
  refine emits_get (fun _ _ => rfl) fun s => ?_
  refine emits_then (emits_execute (plan_emits ⟨s.netlist, settings⟩ statements outputs)) fun r => ?_
  exact emits_then (emits_edit _) fun _ => steps.answers _

end Block

end CombLogic
