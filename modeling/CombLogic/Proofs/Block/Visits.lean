import CombLogic.Proofs.Block.Emits

/- The order of warnings. An execution comes to the cases of a block in the order of the text and
   warns of each of them what its check gives, until the check of one of them fails or something else
   is the matter with the block. -/
namespace CombLogic

open Expr Logging

/-- What the check of a case looks at. -/
def caseShape (g : Netlist) (kind : CaseKind) (selector : Expr) (items : List CaseItem) :
    Coverage.Shape where
  selector := (Executing.caseName g selector).toOption.getD ""
  kind := kind
  items := match selector.sized g.declared none with
    | some (selector, _) => constants g kind.wildcard selector items
    | none => []

namespace Stmt

variable (g : Netlist)

mutual

/-- The cases of a statement in the order of the text, each before those in its items. -/
def shapes : Stmt → List Coverage.Shape
  | .assign .. => []
  | .ifElse _ thenBody elseBody => bodyShapes thenBody ++ bodyShapes elseBody
  | .case kind selector items default =>
    caseShape g kind selector items :: (itemShapes items ++ bodyShapes default)

def bodyShapes : List Stmt → List Coverage.Shape
  | [] => []
  | s :: rest => shapes s ++ bodyShapes rest

def itemShapes : List CaseItem → List Coverage.Shape
  | [] => []
  | .mk _ body :: rest => bodyShapes body ++ itemShapes rest

end

end Stmt

open Stmt

namespace Coverage

/-- The error and the warnings of checking cases one after the other. The first check that fails is the
    last one. Between two checks another error may end the visit. -/
inductive Visits (settings : BlockSettings) (other : BlockError → Prop) :
    List Shape → Option BlockError → List Diagnostic → Prop
  | done : Visits settings other [] none []
  | passes {shape : Shape} {shapes : List Shape} {error : Option BlockError} {ds es : List Diagnostic}
      (checked : check settings shape = .ok ds) (later : Visits settings other shapes error es) :
      Visits settings other (shape :: shapes) error (ds ++ es)
  | fails {shape : Shape} {shapes : List Shape} {x : BlockError}
      (checked : check settings shape = .error x) : Visits settings other (shape :: shapes) (some x) []
  | stops {shapes : List Shape} {x : BlockError} (holds : other x) :
      Visits settings other shapes (some x) []

section

variable {settings : BlockSettings} {other weaker : BlockError → Prop} {shapes shapes' : List Shape}
  {error : Option BlockError} {ds es : List Diagnostic} {x : BlockError}

theorem visits_append (first : Visits settings other shapes none ds)
    (rest : Visits settings other shapes' error es) :
    Visits settings other (shapes ++ shapes') error (ds ++ es) := by
  generalize result : none = r at first
  induction first with
  | done => exact rest
  | passes checked _ ih =>
    rw [List.append_assoc]
    exact .passes checked (ih result)
  | fails => cases result
  | stops => cases result

theorem visits_ended (first : Visits settings other shapes (some x) ds) :
    Visits settings other (shapes ++ shapes') (some x) ds := by
  generalize result : some x = r at first
  induction first with
  | done => cases result
  | passes checked _ ih => exact .passes checked (ih result)
  | fails checked => exact .fails checked
  | stops holds => exact .stops holds

theorem visits_weaken (visits : Visits settings other shapes error ds)
    (each : ∀ x, other x → weaker x) : Visits settings weaker shapes error ds := by
  induction visits with
  | done => exact .done
  | passes checked _ ih => exact .passes checked ih
  | fails checked => exact .fails checked
  | stops holds => exact .stops (each _ holds)

theorem visits_error (visits : Visits settings other shapes (some x) ds) :
    other x ∨ ∃ shape ∈ shapes, check settings shape = .error x := by
  generalize result : some x = r at visits
  induction visits with
  | done => cases result
  | passes _ _ ih =>
    refine (ih result).imp_right ?_
    intro ⟨shape, listed, failed⟩
    exact ⟨shape, List.mem_cons_of_mem _ listed, failed⟩
  | fails checked =>
    cases result
    exact .inr ⟨_, List.mem_cons_self, checked⟩
  | stops holds =>
    cases result
    exact .inl holds

end

end Coverage

/-- The error of a computation that fails. -/
def errorOf {α : Type} : Except BlockError α → Option BlockError
  | .ok _ => none
  | .error x => some x

/-- A step that adds nothing to a log and fails only with errors of some kind. -/
def Idle {σ α : Type} [Logging σ] (other : BlockError → Prop) (m : ExceptT BlockError (StateM σ) α) :
    Prop :=
  Emits (fun _ => False) m ∧ Raises other m

/-- From some state, a computation adds to a log what a visit to some cases gives. -/
def TellsFrom {σ α : Type} [Logging σ] (settings : BlockSettings) (other : BlockError → Prop)
    (shapes : List Coverage.Shape) (m : ExceptT BlockError (StateM σ) α) (s : σ) : Prop :=
  ∃ ds, Appends m s ds ∧ Coverage.Visits settings other shapes (errorOf (m s).1) ds

section

variable {σ α β : Type} [Logging σ] {settings : BlockSettings} {other weaker : BlockError → Prop}
  {m : ExceptT BlockError (StateM σ) α} {f : α → ExceptT BlockError (StateM σ) β} {s : σ}
  {shapes shapes' : List Coverage.Shape}

theorem idle_sequence :
    Sequential other fun α (m : ExceptT BlockError (StateM σ) α) => Idle other m where
  answers a := ⟨emits_blind fun _ _ => rfl, raises_pure a⟩
  follows first rest :=
    ⟨emits_then first.1 fun a => (rest a).1, raises_then first.2 fun a => (rest a).2⟩
  rejects holds := ⟨emits_blind fun _ _ => rfl, raises_throw holds⟩

theorem tellsFrom_idle (idle : Idle other m) (s : σ) : TellsFrom settings other [] m s := by
  obtain ⟨ds, none, appends⟩ := idle.1 s
  obtain rfl : ds = [] := List.eq_nil_iff_forall_not_mem.mpr none
  refine ⟨[], appends, ?_⟩
  obtain ⟨result, s', run⟩ : ∃ result s', m s = (result, s') := ⟨_, _, rfl⟩
  rw [run]
  cases result with
  | ok a => exact .done
  | error x => exact .stops (idle.2 s x s' run)

theorem tellsFrom_then (first : TellsFrom settings other shapes m s)
    (rest : ∀ a s', m s = (.ok a, s') → TellsFrom settings other shapes' (f a) s') :
    TellsFrom settings other (shapes ++ shapes') (m >>= f) s := by
  obtain ⟨ds, appends, visits⟩ := first
  obtain ⟨result, s', run⟩ : ∃ result s', m s = (result, s') := ⟨_, _, rfl⟩
  rw [run] at visits
  cases result with
  | error x =>
    refine ⟨ds, appends_failed run appends, ?_⟩
    rw [step_error run]
    exact Coverage.visits_ended visits
  | ok a =>
    obtain ⟨es, appends', visits'⟩ := rest a s' run
    refine ⟨ds ++ es, appends_then run appends appends', ?_⟩
    rw [step_ok run]
    exact Coverage.visits_append visits visits'

theorem tellsFrom_step (idle : Idle other m)
    (rest : ∀ a s', m s = (.ok a, s') → TellsFrom settings other shapes (f a) s') :
    TellsFrom settings other shapes (m >>= f) s :=
  tellsFrom_then (tellsFrom_idle idle s) rest

theorem tellsFrom_last (first : TellsFrom settings other shapes m s) (idle : ∀ a, Idle other (f a)) :
    TellsFrom settings other shapes (m >>= f) s := by
  rw [← List.append_nil shapes]
  exact tellsFrom_then first fun a s' _ => tellsFrom_idle (idle a) s'

theorem tellsFrom_weaken (tells : TellsFrom settings other shapes m s)
    (each : ∀ x, other x → weaker x) : TellsFrom settings weaker shapes m s := by
  obtain ⟨ds, appends, visits⟩ := tells
  exact ⟨ds, appends, Coverage.visits_weaken visits each⟩

theorem tellsFrom_get {f : σ → ExceptT BlockError (StateM σ) β}
    (blind : ∀ log, f (relog log s) = f s) (tells : TellsFrom settings other shapes (f s) s) :
    TellsFrom settings other shapes (get >>= f) s := by
  obtain ⟨ds, appends, visits⟩ := tells
  exact ⟨ds, appends_get blind appends, visits⟩

theorem idle_get {f : σ → ExceptT BlockError (StateM σ) β} (blind : ∀ log s, f (relog log s) = f s)
    (rest : ∀ s, Idle other (f s)) : Idle other (get >>= f) :=
  ⟨emits_get blind fun s => (rest s).1, raises_then raises_get fun s => (rest s).2⟩

end

section

variable {α β : Type} {settings : BlockSettings} {other : BlockError → Prop} {n : Executing α}

theorem idle_steps (plain : ∀ x, x.Plain → other x) : Stepwise other fun _ m => Idle other m where
  toSequential := idle_sequence
  asks r := ⟨emits_ask r, raises_weaken (raises_ask r) plain⟩
  builds b := ⟨emits_build b, raises_weaken (raises_build b) plain⟩

theorem idle_watch (selector : String) (conflict : Expr) :
    Idle BlockError.Plain (Executing.watch selector conflict) :=
  ⟨emits_watch selector conflict, raises_watch selector conflict⟩

/-- The check of a case, and the reports of what it finds. -/
theorem tellsFrom_check {shape : Coverage.Shape} (idle : Idle other n) (s : ExecState) :
    TellsFrom settings other [shape] ((liftM (Coverage.check settings shape) : Executing _) >>= fun ds =>
      forIn ds PUnit.unit (fun d _ => do
        Executing.report d
        pure (ForInStep.yield PUnit.unit)) >>= fun _ => n) s := by
  cases checked : Coverage.check settings shape with
  | error x => exact ⟨[], appends_throw x, .fails checked⟩
  | ok ds =>
    have run := reports_run ds s
    have behind : TellsFrom settings other [] n (relog (s.log.map (·.addAll ds)) s) :=
      tellsFrom_idle idle _
    obtain ⟨es, appends, visits⟩ := behind
    have told := appends_then (f := fun _ => n) run (appends_reports ds s) appends
    refine ⟨ds ++ es, told, ?_⟩
    rw [← step_ok (f := fun _ => n) run] at visits
    exact .passes checked visits

end

end CombLogic
