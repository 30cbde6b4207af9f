import Mathlib.Data.Finset.Union
import CombLogic.Proofs.Block.Execute
import CombLogic.Proofs.Shared

/- The usual flow analysis of a block, on its text alone: which leaves are assigned on every path to a
   place, and whether the outputs that are read there are among them. -/
namespace CombLogic

open Expr

/-- The leaves of a target; none for a target that does not exist. -/
def Netlist.leafSet (g : Netlist) (target : Ref) : Finset LeafId :=
  ((g.leavesOf target).toOption.getD []).toFinset

/-- The target that a node reads. -/
def Expr.target? : Expr → Option Ref
  | .read _ target => some target
  | _ => none

namespace Stmt

section

variable (g : Netlist)

mutual

/-- The leaves that are assigned on every path up to and through a statement. -/
def assigns : Stmt → Finset LeafId → Finset LeafId
  | .assign target _, assigned => assigned ∪ g.leafSet target
  | .ifElse _ thenBody elseBody, assigned =>
    bodyAssigns thenBody assigned ∩ bodyAssigns elseBody assigned
  | .case _ _ items default, assigned => itemsAssign items assigned (bodyAssigns default assigned)

def bodyAssigns : List Stmt → Finset LeafId → Finset LeafId
  | [], assigned => assigned
  | s :: rest, assigned => bodyAssigns rest (assigns s assigned)

/-- The leaves that are assigned behind all items of a case and behind what is taken otherwise. An
    empty default assigns nothing. -/
def itemsAssign : List CaseItem → Finset LeafId → Finset LeafId → Finset LeafId
  | [], _, otherwise => otherwise
  | .mk _ body :: rest, assigned, otherwise =>
    bodyAssigns body assigned ∩ itemsAssign rest assigned otherwise

end

variable (outputs : Finset LeafId)

/-- All outputs that an expression reads are assigned. A bundle is read with all its leaves. -/
def ReadsAssigned (assigned : Finset LeafId) (e : Expr) : Prop :=
  e.All fun n => ∀ target ∈ n.target?, ∀ leaf ∈ g.leafSet target, leaf ∈ outputs → leaf ∈ assigned

mutual

/-- On every path, all outputs that a statement reads are assigned where it reads them. -/
def Backed : Stmt → Finset LeafId → Prop
  | .assign _ value, assigned => ReadsAssigned g outputs assigned value
  | .ifElse condition thenBody elseBody, assigned =>
    ReadsAssigned g outputs assigned condition ∧
      BodyBacked thenBody assigned ∧ BodyBacked elseBody assigned
  | .case _ selector items default, assigned =>
    ReadsAssigned g outputs assigned selector ∧
      ItemsBacked items assigned ∧ BodyBacked default assigned

def BodyBacked : List Stmt → Finset LeafId → Prop
  | [], _ => True
  | s :: rest, assigned => Backed s assigned ∧ BodyBacked rest (assigns g s assigned)

def ItemsBacked : List CaseItem → Finset LeafId → Prop
  | [], _ => True
  | .mk patterns body :: rest, assigned =>
    (∀ pattern ∈ patterns, ReadsAssigned g outputs assigned pattern) ∧
      BodyBacked body assigned ∧ ItemsBacked rest assigned

end

instance (assigned : Finset LeafId) (e : Expr) : Decidable (ReadsAssigned g outputs assigned e) :=
  inferInstanceAs (Decidable (e.All _))

mutual

def decideBacked : (s : Stmt) → (assigned : Finset LeafId) → Decidable (Backed g outputs s assigned)
  | .assign _ value, assigned =>
    inferInstanceAs (Decidable (ReadsAssigned g outputs assigned value))
  | .ifElse condition thenBody elseBody, assigned =>
    have := decideBodyBacked thenBody assigned
    have := decideBodyBacked elseBody assigned
    inferInstanceAs (Decidable (ReadsAssigned g outputs assigned condition ∧ _ ∧ _))
  | .case _ selector items default, assigned =>
    have := decideItemsBacked items assigned
    have := decideBodyBacked default assigned
    inferInstanceAs (Decidable (ReadsAssigned g outputs assigned selector ∧ _ ∧ _))

def decideBodyBacked : (body : List Stmt) → (assigned : Finset LeafId) →
    Decidable (BodyBacked g outputs body assigned)
  | [], _ => inferInstanceAs (Decidable True)
  | s :: rest, assigned =>
    have := decideBacked s assigned
    have := decideBodyBacked rest (assigns g s assigned)
    inferInstanceAs (Decidable (_ ∧ _))

def decideItemsBacked : (items : List CaseItem) → (assigned : Finset LeafId) →
    Decidable (ItemsBacked g outputs items assigned)
  | [], _ => inferInstanceAs (Decidable True)
  | .mk patterns body :: rest, assigned =>
    have := decideBodyBacked body assigned
    have := decideItemsBacked rest assigned
    inferInstanceAs (Decidable ((∀ pattern ∈ patterns, _) ∧ _ ∧ _))

end

instance (body : List Stmt) (assigned : Finset LeafId) :
    Decidable (BodyBacked g outputs body assigned) :=
  decideBodyBacked g outputs body assigned

end

end Stmt

/-- The leaves that a block assigns anywhere. -/
def Block.outputSet (g : Netlist) (statements : List Stmt) : Finset LeafId :=
  (Stmt.bodyTargets statements).toFinset.biUnion g.leafSet

/-- On every path, outputs are assigned before they are read, and all of them in the end. -/
structure Block.DefinitelyAssigned (g : Netlist) (statements : List Stmt) : Prop where
  backed : Stmt.BodyBacked g (outputSet g statements) statements ∅
  all : outputSet g statements ⊆ Stmt.bodyAssigns g statements ∅

instance (g : Netlist) (statements : List Stmt) :
    Decidable (Block.DefinitelyAssigned g statements) :=
  decidable_of_iff (_ ∧ _) ⟨fun both => ⟨both.1, both.2⟩, fun flow => ⟨flow.backed, flow.all⟩⟩

end CombLogic
