import CombLogic.Netlist.Bundle

/- Widths of expressions. Every node has a width of its own except integers and what is made of
   nothing else; those take the width of their context: the other operand, the other branch, or
   the target. Sizing replaces each integer by a literal of its width and keeps every node below
   which nothing changed. Results that take a search or make a node are kept by node number, so a
   shared node is sized once. -/
namespace CombLogic

namespace Value

/-- Number of bits of a natural number written without leading zeros. -/
def bitLength (n : Nat) : Nat := if n = 0 then 0 else Nat.log2 n + 1

/-- The least width that holds an integer, one bit for the sign if it is negative. -/
def leastWidth : Int → Nat
  | .ofNat n => max 1 (bitLength n)
  | .negSucc n => bitLength n + 1

end Value

namespace Expr

/-- The least width that holds every integer of an expression without a width of its own. -/
def leastWidth : Expr → Nat
  | integer _ value => Value.leastWidth value
  | unary _ op a => if op.isReduction then 1 else leastWidth a
  | binary _ op a b =>
    if op.isShift then leastWidth a
    else if op.isComparison then 1
    else max (leastWidth a) (leastWidth b)
  | mux _ _ t f => max (leastWidth t) (leastWidth f)
  | _ => 1

/-- The error for an operand that needs a width and finds none. -/
def noWidthError (e : Expr) : NetlistError := .unsizedLiteral ((e.find? integer?).getD 0)

end Expr

structure SizeMemo where
  own : Std.TreeMap Nat (Option Nat)
  sized : Std.TreeMap Nat (List (Nat × Expr × Nat))

abbrev Sizing := StateT SizeMemo (Numbering (Except NetlistError))

namespace Sizing

/-- A width found before is not looked for again. -/
@[inline] def rememberOwn (node : Nat) (find : Sizing (Option Nat)) : Sizing (Option Nat) := do
  match (← get).own[node]? with
  | some width => return width
  | none =>
    let width ← find
    modify fun memo => { memo with own := memo.own.insert node width }
    return width

def lookupSized (memo : SizeMemo) (node width : Nat) : Option (Expr × Nat) :=
  (memo.sized.getD node []).lookup width

/-- A node sized before for a width is not sized again for it. -/
@[inline] def rememberSized (node width : Nat) (find : Sizing (Expr × Nat)) :
    Sizing (Expr × Nat) := do
  match lookupSized (← get) node width with
  | some done => return done
  | none =>
    let done ← find
    modify fun memo =>
      { memo with sized := memo.sized.insert node ((width, done) :: memo.sized.getD node []) }
    return done

def joinWidths : Option Nat → Option Nat → Option Nat
  | some a, some b => some (max a b)
  | some a, none => some a
  | none, b => b

def fail {α : Type} (error : NetlistError) : Sizing α := throw error

def ask {α : Type} (r : Except NetlistError α) : Sizing α := liftM r

mutual

/-- The width that an expression has by itself, if it has one. -/
def ownWidth (g : Netlist) : Expr → Sizing (Option Nat)
  | .signal _ leaf | .unassigned _ leaf => return some (← ask (g.leaf leaf)).width
  | .read n target => rememberOwn n do return some (← ask (g.widthOf target))
  | .literal n value => rememberOwn n do return some value.width
  | .integer .. => return none
  | .unary n op a => rememberOwn n do
    if op.isReduction then return some 1 else ownWidth g a
  | .binary n op a b => rememberOwn n do
    if op.isComparison then return some 1
    else if op.isShift then ownWidth g a
    else return joinWidths (← ownWidth g a) (← ownWidth g b)
  | .mux n _ t f => rememberOwn n do return joinWidths (← ownWidth g t) (← ownWidth g f)
  | .concat n parts => rememberOwn n do return some (← ownWidths g parts)
  | .slice _ _ high low => return some (high - low + 1)
  | .extend _ _ width _ => return some width
  | .caseMatch .. => return some 1

def ownWidths (g : Netlist) : List Expr → Sizing Nat
  | [] => return 0
  | e :: rest => do
    match ← ownWidth g e with
    | some width => return width + (← ownWidths g rest)
    | none => fail e.noWidthError

end

/-- The width of an operand that cannot take one from its context. -/
def neededWidth (g : Netlist) (e : Expr) : Sizing Nat := do
  match ← ownWidth g e with
  | some width => return width
  | none => fail e.noWidthError

/-- The widths of two operands that share one: an operand without a width takes the other's; if
    neither has one, both take the context, or what both fit in where the context has no bits. -/
def pairWidths (a b : Expr) (context : Nat) : Option Nat → Option Nat → Nat × Nat
  | some m, some n => (m, n)
  | some m, none => (m, m)
  | none, some n => (n, n)
  | none, none =>
    let width := if context = 0 then max a.leastWidth b.leastWidth else context
    (width, width)

def build {α : Type} (b : Numbering (Except NetlistError) α) : Sizing α := liftM b

/-- Keeps a node if sizing left all its operands as they were. -/
def keep (e : Expr) (children : List Expr) : Sizing Expr := build (e.rebuild children)

def widthsDiffer (operation : String) (left right : Nat) : NetlistError :=
  .value (.widthMismatch operation left right)

mutual

/-- Sizes an expression for a width, which counts where the expression has none by itself. Gives
    the sized expression and the width that it has. -/
def fit (g : Netlist) : Expr → Nat → Sizing (Expr × Nat)
  | e@(.signal ..), width => return (e, width)
  | e@(.unassigned ..), width => return (e, width)
  | e@(.read ..), width => return (e, width)
  | e@(.literal ..), width => return (e, width)
  | .integer n value, width => rememberSized n width do
    return (← Sizing.build (Build.literal (.ofInt width value)), width)
  | e@(.unary n op a), width => rememberSized n width do
    if op.isReduction then
      let (a, _) ← fit g a (← neededWidth g a)
      return (← keep e [a], 1)
    else
      let (a, w) ← fit g a width
      return (← keep e [a], w)
  | e@(.binary n op a b), width => rememberSized n width do
    if op.isShift then
      let (a, w) ← fit g a width
      let amountWidth := (← ownWidth g b).getD b.leastWidth
      let (b, _) ← fit g b amountWidth
      return (← keep e [a, b], w)
    else
      let context := if op.isComparison then 0 else width
      let widths := pairWidths a b context (← ownWidth g a) (← ownWidth g b)
      let (a, aw) ← fit g a widths.1
      let (b, bw) ← fit g b widths.2
      if aw ≠ bw ∧ aw ≠ 1 ∧ bw ≠ 1 then fail (widthsDiffer op.name aw bw)
      return (← keep e [a, b], if op.isComparison then 1 else max aw bw)
  | e@(.mux n c t f), width => rememberSized n width do
    let conditionWidth := (← ownWidth g c).getD 1
    let (c, cw) ← fit g c conditionWidth
    if cw ≠ 1 then fail (.conditionWidth cw)
    let widths := pairWidths t f width (← ownWidth g t) (← ownWidth g f)
    let (t, tw) ← fit g t widths.1
    let (f, fw) ← fit g f widths.2
    if tw ≠ fw then fail (widthsDiffer "mux" tw fw)
    return (← keep e [c, t, f], tw)
  | e@(.concat n parts), width => rememberSized n width do
    let (parts, total) ← fitParts g parts
    return (← keep e parts, total)
  | e@(.slice n a high low), width => rememberSized n width do
    let operandWidth ← neededWidth g a
    if high < low ∨ operandWidth ≤ high then
      fail (.value (.invalidSlice high low operandWidth))
    let (a, _) ← fit g a operandWidth
    return (← keep e [a], high - low + 1)
  | e@(.extend n a target _), width => rememberSized n width do
    let operandWidth := (← ownWidth g a).getD target
    if target < operandWidth then fail (.value (.invalidExtension operandWidth target))
    let (a, _) ← fit g a operandWidth
    return (← keep e [a], target)
  | e@(.caseMatch n s p _), width => rememberSized n width do
    let widths := pairWidths s p 0 (← ownWidth g s) (← ownWidth g p)
    let (s, sw) ← fit g s widths.1
    let (p, pw) ← fit g p widths.2
    if sw ≠ pw then fail (widthsDiffer "case" sw pw)
    return (← keep e [s, p], 1)

def fitParts (g : Netlist) : List Expr → Sizing (List Expr × Nat)
  | [] => return ([], 0)
  | e :: rest => do
    let (e, width) ← fit g e (← neededWidth g e)
    let (rest, total) ← fitParts g rest
    return (e :: rest, width + total)

end

/-- Sizes an expression for a context, or for the least fitting width if there is none. -/
def size (g : Netlist) (e : Expr) (context : Option Nat) : Sizing (Expr × Nat) := do
  match ← ownWidth g e with
  | some width => fit g e width
  | none => fit g e (context.getD e.leastWidth)

end Sizing

namespace Netlist

/-- Every call sizes anew: nothing found in one call is kept for the next. -/
def sizeFor (g : Netlist) (e : Expr) (context : Option Nat) :
    Numbering (Except NetlistError) (Expr × Nat) :=
  Prod.fst <$> (Sizing.size g e context).run ⟨{}, {}⟩

def sizedWidth (g : Netlist) (e : Expr) : Numbering (Except NetlistError) Nat :=
  Prod.snd <$> g.sizeFor e none

end Netlist

end CombLogic
