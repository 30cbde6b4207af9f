import Mathlib.Logic.Function.Basic
import CombLogic.Block.Statement
import CombLogic.Netlist.Connect
import CombLogic.Proofs.Evaluation
import CombLogic.Proofs.Sizing.Plain

/- What a block means: its statements run one after the other on a store of leaf values. A read takes
   the stored value of a leaf that the block assigns and the settled value of any other. A run ends
   without an answer where an expression has no value, or where a condition that is asked, or the
   joint match of an item that is tried, is not a known bit. -/
namespace CombLogic

open Expr

abbrev Store := LeafId → Value

/-- What a run needs to know: widths and leaves of targets, settled values, and which leaves the
    block assigns. -/
structure Scene where
  netlist : Netlist
  settled : Env
  assigned : List LeafId

namespace Scene

variable (c : Scene)

def current (σ : Store) (leaf : LeafId) : Except NetlistError Value :=
  if leaf ∈ c.assigned then .ok (σ leaf) else c.settled.value leaf

/-- What a target holds. -/
def read (σ : Store) : Ref → Except NetlistError Value
  | .leaf leaf => c.current σ leaf
  | .bundle id => do
    return .concatLowFirst (← (← c.netlist.leavesOf (.bundle id)).mapM (c.current σ))

def value (σ : Store) (e : Expr) : Option Value := (e.valueOn c.settled (c.read σ)).toOption

/-- A known bit. -/
def bit? (v : Value) : Option Bool :=
  match v.bits with
  | [.one] => some true
  | [.zero] => some false
  | _ => none

/-- The bits of a value from `low` on, as many as a leaf takes. -/
def part (v : Value) (low width : Nat) : Option Value :=
  if width = 0 then some (.zeros 0) else (v.slice (low + width - 1) low).toOption

/-- Stores consecutive parts of a value, one for each leaf, from bit `low` on. -/
def storeParts (v : Value) : Nat → List (LeafId × Nat) → Store → Option Store
  | _, [], σ => some σ
  | low, (leaf, width) :: rest, σ => do
    storeParts v (low + width) rest (Function.update σ leaf (← part v low width))

def assign (target : Ref) (e : Expr) (σ : Store) : Option Store := do
  let width ← c.netlist.declared target
  let (sized, actual) ← e.sized c.netlist.declared (some width)
  if actual ≠ width then none
  else do
    let v ← c.value σ sized
    match target with
    | .leaf leaf => return Function.update σ leaf v
    | .bundle _ => storeParts v 0 (← (c.netlist.leafWidths target).toOption) σ

def condition (e : Expr) (σ : Store) : Option Bool := do
  let (sized, width) ← e.sized c.netlist.declared (some 1)
  if width ≠ 1 then none
  else bit? (← c.value σ sized)

/-- Whether a sized selector matches a pattern. -/
def matches? (wildcard : Bool) (selector pattern : Expr) (σ : Store) : Option Value := do
  let (sized, _) ← (Expr.caseMatch 0 selector pattern wildcard).sized c.netlist.declared none
  c.value σ sized

/-- The joint match of several patterns. -/
def anyOf : List Value → Option Value
  | [] => some (.ofBool false)
  | v :: rest => rest.foldlM (fun v w => (v.or w).toOption) v

def taken (wildcard : Bool) (selector : Expr) (patterns : List Expr) (σ : Store) : Option Bool := do
  bit? (← anyOf (← patterns.mapM fun pattern => c.matches? wildcard selector pattern σ))

mutual

def run : Stmt → Store → Option Store
  | .assign target e, σ => c.assign target e σ
  | .ifElse e thenBody elseBody, σ => do
    if ← c.condition e σ then runAll thenBody σ else runAll elseBody σ
  | .case kind selector items default, σ => do
    let (sized, _) ← selector.sized c.netlist.declared none
    runItems kind.wildcard sized items (fun σ => runAll default σ) σ

def runAll : List Stmt → Store → Option Store
  | [], σ => some σ
  | s :: rest, σ => do runAll rest (← run s σ)

/-- The body of the first item that matches, or the default. -/
def runItems (wildcard : Bool) (selector : Expr) :
    List CaseItem → (Store → Option Store) → Store → Option Store
  | [], default, σ => default σ
  | .mk patterns body :: rest, default, σ => do
    if ← c.taken wildcard selector patterns σ then runAll body σ
    else runItems wildcard selector rest default σ

end

end Scene

end CombLogic
