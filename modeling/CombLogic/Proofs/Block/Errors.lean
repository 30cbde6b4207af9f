import CombLogic.Proofs.Block.Compile
import CombLogic.Proofs.Block.Steps

/- The errors of the parts of a compilation. Most parts look something up, build something or compare
   widths; how the items of a case match and what is assigned does not matter to them. -/
namespace CombLogic

/-- Whatever state it starts from, a computation fails only with errors of some kind. -/
def Raises {σ α : Type} (kind : BlockError → Prop) (m : ExceptT BlockError (StateM σ) α) : Prop :=
  ∀ s x s', m s = (.error x, s') → kind x

section

variable {σ α β : Type} {kind later : BlockError → Prop} {m : ExceptT BlockError (StateM σ) α}
  {f : α → ExceptT BlockError (StateM σ) β}

/-- An error that the first step does not have comes from what follows. -/
theorem error_inv {s s'' : σ} {x : BlockError} (first : ∀ s', m s ≠ (.error x, s'))
    (run : (m >>= f) s = (.error x, s'')) :
    ∃ a s', m s = (.ok a, s') ∧ f a s' = (.error x, s'') := by
  obtain ⟨result, s', before⟩ : ∃ result s', m s = (result, s') := ⟨_, _, rfl⟩
  cases result with
  | error y =>
    cases (step_error before).symm.trans run
    exact (first s'' before).elim
  | ok a => exact ⟨a, s', before, (step_ok before).symm.trans run⟩

theorem raises_not (raises : Raises kind m) {x : BlockError} (other : ¬kind x) (s : σ) :
    ∀ s', m s ≠ (.error x, s') :=
  fun s' run => other (raises s x s' run)

theorem raises_weaken (raises : Raises kind m) (weaker : ∀ x, kind x → later x) : Raises later m :=
  fun s x s' run => weaker x (raises s x s' run)

theorem raises_pure (a : α) : Raises kind (pure a : ExceptT BlockError (StateM σ) α) := by
  intro s x s' run
  cases run

theorem raises_then (first : Raises kind m) (rest : ∀ a, Raises kind (f a)) :
    Raises kind (m >>= f) := by
  intro s x s'' run
  obtain ⟨result, s', before⟩ : ∃ result s', m s = (result, s') := ⟨_, _, rfl⟩
  cases result with
  | error y =>
    cases (step_error before).symm.trans run
    exact first s x s'' before
  | ok a => exact rest a s' x s'' ((step_ok before).symm.trans run)

theorem raises_throw {x : BlockError} (holds : kind x) :
    Raises kind (throw x : ExceptT BlockError (StateM σ) α) := by
  intro s y s' run
  cases run
  exact holds

theorem raises_get : Raises kind (get : ExceptT BlockError (StateM σ) σ) := by
  intro s x s' run
  cases run

theorem raises_sequence :
    Sequential kind fun α (m : ExceptT BlockError (StateM σ) α) => Raises kind m :=
  ⟨raises_pure, raises_then, raises_throw⟩

end

section

variable {α : Type}

theorem raises_build (b : Numbering (Except NetlistError) α) :
    Raises BlockError.Plain (Executing.build b) := by
  intro s x s' run
  unfold Executing.build at run
  split at run
  · cases run
  · cases run
    trivial

theorem raises_ask (r : Except NetlistError α) : Raises BlockError.Plain (Executing.ask r) := by
  intro s x s' run
  cases r with
  | ok a => cases run
  | error e =>
    cases run
    trivial

theorem raises_steps {kind : BlockError → Prop} (plain : ∀ x, x.Plain → kind x) :
    Stepwise kind fun _ m => Raises kind m where
  toSequential := raises_sequence
  asks r := raises_weaken (raises_ask r) plain
  builds b := raises_weaken (raises_build b) plain

/-- What consists of such steps alone. -/
theorem plain_steps : Stepwise BlockError.Plain fun _ m => Raises BlockError.Plain m :=
  raises_steps fun _ => id

theorem raises_watch (selector : String) (conflict : Expr) :
    Raises BlockError.Plain (Executing.watch selector conflict) := by
  intro s x s' run
  cases run

theorem raises_question (f : Netlist → Except NetlistError α) :
    Raises BlockError.Plain (Compiling.ask f) := by
  intro s x s' run
  cases answer : f s.netlist with
  | ok a => cases (ask_ok answer).symm.trans run
  | error e =>
    cases (ask_error answer).symm.trans run
    trivial

/-- What an execution fails with, it fails with on its own state. -/
theorem execute_error {r : Executing α} {s s' : Session} {x : BlockError}
    (run : Compiling.execute r s = (.error x, s')) :
    ∃ t, r ⟨s.netlist.nextNode, s.log, #[]⟩ = (.error x, t) := by
  unfold Compiling.execute at run
  split at run
  · cases run
  · rename_i y t failed
    obtain rfl : y = x := Except.error.inj (Prod.mk.inj run).1
    exact ⟨t, failed⟩

theorem raises_edit (e : Edit α) : Raises BlockError.Plain (Compiling.edit e) := by
  intro s x s' run
  obtain ⟨result, g, done⟩ : ∃ result g, e s.netlist = (result, g) := ⟨_, _, rfl⟩
  simp only [Compiling.edit, done] at run
  cases result with
  | ok a => cases run
  | error y =>
    cases run
    trivial

end

namespace Block

theorem ensureFree_plain (leaf : LeafId) : Raises BlockError.Plain (ensureFree leaf) := by
  refine raises_then (raises_question _) fun taken => ?_
  split
  · exact raises_then (raises_question _) fun name => raises_throw trivial
  · exact raises_pure _

/-- What is reported of an error does not change it. -/
theorem compile_result (settings : BlockSettings) (statements : List Stmt) (s : Session) :
    (compile settings statements s).1 = (compileQuietly settings statements s).1 := by
  unfold compile
  split
  · rename_i run
    rw [run]
  · rename_i run
    rw [run]
    split <;> rfl

end Block

/-- Any error that is not plain comes from the check phase. -/
theorem quietly_error {settings : BlockSettings} {statements : List Stmt} {s s' : Session}
    {x : BlockError} (other : ¬x.Plain)
    (run : Block.compileQuietly settings statements s = (.error x, s')) :
    ∃ outputs t, Block.outputs s.netlist statements = .ok outputs ∧
      Block.plan ⟨s.netlist, settings⟩ statements outputs ⟨s.netlist.nextNode, s.log, #[]⟩ =
        (.error x, t) := by
  obtain ⟨outputs, t, asked, run⟩ := error_inv (raises_not (raises_question _) other s) run
  cases found : Block.outputs s.netlist statements with
  | error e => cases (ask_error found).symm.trans asked
  | ok outputs' =>
    cases (ask_ok found).symm.trans asked
    obtain ⟨_, t, freed, run⟩ :=
      error_inv (raises_not (raises_sequence.each outputs fun leaf _ => Block.ensureFree_plain leaf)
        other s) run
    rcases ensureAll_cases outputs s with ⟨done, -⟩ | ⟨e, failed, -⟩
    · cases done.symm.trans freed
      obtain ⟨_, _, got, run⟩ := error_inv (raises_not raises_get other s) run
      cases got
      by_contra none
      have passes : ∀ s', Compiling.execute (Block.plan ⟨s.netlist, settings⟩ statements outputs) s ≠
          (.error x, s') := by
        intro s' executed
        obtain ⟨t, failed⟩ := execute_error executed
        exact none ⟨outputs, t, rfl, failed⟩
      obtain ⟨plan, t, -, run⟩ := error_inv passes run
      obtain ⟨_, _, -, run⟩ := error_inv (raises_not (raises_edit _) other t) run
      cases run
    · cases failed.symm.trans freed

theorem compile_error {settings : BlockSettings} {statements : List Stmt} {s : Session}
    {x : BlockError} (other : ¬x.Plain)
    (rejected : (Block.compile settings statements s).1 = .error x) :
    ∃ outputs t, Block.outputs s.netlist statements = .ok outputs ∧
      Block.plan ⟨s.netlist, settings⟩ statements outputs ⟨s.netlist.nextNode, s.log, #[]⟩ =
        (.error x, t) := by
  rw [Block.compile_result] at rejected
  obtain ⟨result, s', run⟩ : ∃ result s',
      Block.compileQuietly settings statements s = (result, s') := ⟨_, _, rfl⟩
  rw [run] at rejected
  obtain rfl : result = .error x := rejected
  exact quietly_error other run

end CombLogic
