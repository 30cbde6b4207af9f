import CombLogic.Proofs.Block.Resolve
import CombLogic.Proofs.Block.Run
import CombLogic.Proofs.Outcome

/- A binding against a store. The expression of a leaf counts only once it is assigned on all paths;
   then its value is the stored one. -/
namespace CombLogic

open Expr

/-- What an expression has for a value, if all it reads is assigned. -/
def Leads (env : Env) (e : Expr) (v : Value) : Prop := e.Assigned → e.value env = .ok v

/-- Every entry of a binding leads to the stored value of its leaf. -/
def Holds (env : Env) (b : Binding) (σ : Store) : Prop :=
  ∀ leaf e, b.get? leaf = some e → Leads env e (σ leaf)

section

variable {env : Env} {b : Binding} {σ : Store} {g : Netlist}

theorem leads_alike {a e : Expr} {v : Value} (alike : a.shape = e.shape) (leads : Leads env e v) :
    Leads env a v := by
  intro assigned
  rw [value_alike alike]
  exact leads (assigned_alike alike.symm assigned)

theorem assigned_operand {e a : Expr} (assigned : e.Assigned) (operand : a ∈ e.children) :
    a.Assigned :=
  (all_iff.mp assigned).2 a operand

theorem assigned_parent {e : Expr} (parent : e.isAtom = false) :
    e.Assigned ↔ ∀ a ∈ e.children, a.Assigned := by
  refine all_iff.trans (and_iff_right ?_)
  cases e <;> simp_all [isAtom, unassigned?]

theorem assigned_unary {n : Nat} {op : UnaryOp} {a : Expr} :
    (Expr.unary n op a).Assigned ↔ a.Assigned :=
  (assigned_parent rfl).trans (by simp [children])

theorem assigned_binary {n : Nat} {op : BinaryOp} {a b : Expr} :
    (Expr.binary n op a b).Assigned ↔ a.Assigned ∧ b.Assigned :=
  (assigned_parent rfl).trans (by simp [children])

theorem assigned_mux {n : Nat} {c t f : Expr} :
    (Expr.mux n c t f).Assigned ↔ c.Assigned ∧ t.Assigned ∧ f.Assigned :=
  (assigned_parent rfl).trans (by simp [children])

theorem assigned_concat {n : Nat} {parts : List Expr} :
    (Expr.concat n parts).Assigned ↔ ∀ a ∈ parts, a.Assigned :=
  (assigned_parent rfl).trans (by simp [children])

theorem of_toOption {ε α : Type} {r : Except ε α} {a : α} (found : r.toOption = some a) :
    r = .ok a := by
  cases r with
  | error => cases found
  | ok => exact congrArg _ (Option.some.inj found)

theorem ok_get {ε α : Type} {r : Except ε α} (done : r.toOption.isSome) :
    r = .ok (r.toOption.get done) :=
  of_toOption (Option.some_get done).symm

/-- More answers can only lead to more values. -/
theorem valueOn_mono {answer answer' : Ref → Except NetlistError Value} (e : Expr)
    (more : ∀ node target, e.Contains (.read node target) →
      ∀ v, answer target = .ok v → answer' target = .ok v) :
    ∀ v, e.valueOn env answer = .ok v → e.valueOn env answer' = .ok v := by
  induction e using operand_induction with
  | step e ih =>
    intro v found
    have operand : ∀ a ∈ e.children, ∀ v, a.valueOn env answer = .ok v →
        a.valueOn env answer' = .ok v :=
      fun a member => ih a member fun node target inside => more node target (.within member inside)
    refine outcome_valueOn ?_
    cases valueOn_outcome found with
    | signal held => exact .signal held
    | literal => exact .literal
    | read answered => exact .read (more _ _ (.root _) v answered)
    | unary here => exact .unary (operand _ (by simp [children]) _ here)
    | binary left right done =>
      exact .binary (operand _ (by simp [children]) _ left)
        (operand _ (by simp [children]) _ right) done
    | whenTrue condition taken =>
      exact .whenTrue (operand _ (by simp [children]) _ condition)
        (operand _ (by simp [children]) _ taken)
    | whenFalse condition taken =>
      exact .whenFalse (operand _ (by simp [children]) _ condition)
        (operand _ (by simp [children]) _ taken)
    | undecided condition unknown first =>
      exact .undecided (operand _ (by simp [children]) _ condition) unknown
        (operand _ (by simp [children]) _ first)
    | concat each =>
      have listed := (List.forall₂_and_left _ _).mpr ⟨fun a member => member, each⟩
      exact .concat (listed.imp fun a w both => operand a both.1 w both.2)
    | slice here done => exact .slice (operand _ (by simp [children]) _ here) done
    | extend here done => exact .extend (operand _ (by simp [children]) _ here) done
    | wildMatch left right done =>
      exact .wildMatch (operand _ (by simp [children]) _ left)
        (operand _ (by simp [children]) _ right) done
    | exactMatch left right =>
      exact .exactMatch (operand _ (by simp [children]) _ left)
        (operand _ (by simp [children]) _ right)

/-- The scene in which a block with some binding runs. -/
def sceneOf (g : Netlist) (env : Env) (b : Binding) : Scene := ⟨g, env, b.keys⟩

theorem entry_value (holds : Holds env b σ) {leaf : LeafId} (assigned : (b.entry leaf).Assigned) :
    (b.entry leaf).value env = (sceneOf g env b).current σ leaf := by
  unfold Binding.entry at assigned ⊢
  cases entry : b.get? leaf with
  | some e =>
    have listed : leaf ∈ b.keys := OrderedMap.mem_keys_of_get? entry
    simp only [entry, Option.getD_some] at assigned
    simp only [Scene.current, sceneOf, listed, ↓reduceIte, Option.getD_some]
    exact holds leaf e entry assigned
  | none =>
    have unlisted : leaf ∉ b.keys := (OrderedMap.get?_eq_none _ _).mp entry
    simp only [Scene.current, sceneOf, unlisted, ↓reduceIte]
    rfl

theorem entries_value (holds : Holds env b σ) {leaves : List LeafId}
    (assigned : ∀ leaf ∈ leaves, (b.entry leaf).Assigned) (vs : List Value) :
    List.Forall₂ (fun e v => e.value env = .ok v) (leaves.map b.entry) vs ↔
      List.Forall₂ (fun leaf v => (sceneOf g env b).current σ leaf = .ok v) leaves vs := by
  rw [List.forall₂_map_left_iff]
  induction leaves generalizing vs with
  | nil => simp
  | cons leaf rest ih =>
    have here := entry_value (g := g) holds (assigned leaf (by simp))
    simp only [List.forall₂_cons_left_iff, here, ih fun other later => assigned other (by simp [later])]

theorem read_bundle {id : BundleId} {leaves : List LeafId}
    (known : g.leavesOf (.bundle id) = .ok leaves) {v : Value} :
    (sceneOf g env b).read σ (.bundle id) = .ok v ↔ ∃ vs,
      List.Forall₂ (fun leaf w => (sceneOf g env b).current σ leaf = .ok w) leaves vs ∧
        v = .concatLowFirst vs := by
  have scene : (sceneOf g env b).netlist.leavesOf (.bundle id) = .ok leaves := known
  constructor
  · intro found
    obtain ⟨leaves', within, found⟩ := bind_ok found
    obtain rfl := Except.ok.inj (scene.symm.trans within)
    obtain ⟨vs, each, done⟩ := bind_ok found
    exact ⟨vs, mapM_ok each, (Except.ok.inj done).symm⟩
  · rintro ⟨vs, each, rfl⟩
    simp only [Scene.read, scene, bind, Except.bind, ok_mapM each]
    rfl

/-- What stands for a read has the value that the run reads, and no value where the run reads none. -/
theorem held_value (holds : Holds env b σ) {target : Ref} (assigned : (g.held b target).Assigned)
    {v : Value} : (g.held b target).value env = .ok v ↔
      (sceneOf g env b).read σ target = .ok v := by
  cases target with
  | leaf leaf =>
    have same := entry_value (g := g) holds assigned
    simp only [Netlist.held, Scene.read, same]
  | bundle id =>
    cases known : g.leavesOf (.bundle id) with
    | error x =>
      constructor
      · intro found
        simp only [Netlist.held, known] at found
        obtain ⟨name, -, failed⟩ := bind_ok found
        cases failed
      · intro found
        simp [Scene.read, sceneOf, known, bind, Except.bind] at found
    | ok leaves =>
      simp only [Netlist.held, known] at assigned ⊢
      have entries := entries_value (g := g) holds fun leaf member =>
        assigned_operand assigned (by simpa [children] using ⟨leaf, member, rfl⟩)
      rw [value_concat, read_bundle known]
      constructor
      · rintro ⟨vs, each, rfl⟩
        exact ⟨vs.reverse, (entries _).mp (by simpa using List.rel_reverse each), rfl⟩
      · rintro ⟨vs, each, rfl⟩
        refine ⟨vs.reverse, List.rel_reverse ((entries vs).mpr each), ?_⟩
        simp [Value.concat]

/-- A resolved expression has the value that the expression before has in the run. -/
theorem resolved_value (holds : Holds env b σ) {r e t : Expr}
    (resolved : r.shape = e.subst (g.held b)) (alike : e.shape = t.shape) (assigned : r.Assigned)
    {v : Value} : r.value env = .ok v ↔ (sceneOf g env b).value σ t = some v := by
  have answers := ((subst_assigned e).mp (resolved ▸ assigned_alike (shape_shape r) assigned)).2
  have plain : r.value env = e.valueOn env fun target => (g.held b target).value env := by
    rw [← value_subst, ← resolved, value_alike (shape_shape r)]
  have asked : (sceneOf g env b).value σ t = (e.valueOn env ((sceneOf g env b).read σ)).toOption := by
    rw [Scene.value, ← valueOn_shape, ← alike, valueOn_shape]
    rfl
  rw [plain, asked]
  constructor
  · intro found
    rw [valueOn_mono e (fun node target inside w => (held_value holds (answers node target inside)).mp)
      v found]
    rfl
  · intro found
    exact valueOn_mono e (fun node target inside w =>
      (held_value holds (answers node target inside)).mpr) v (of_toOption found)

end

end CombLogic
