import CombLogic.Block.Error
import CombLogic.Block.Statement
import CombLogic.Settings.Basic

/- Checks on cases with constant patterns: items of a unique case that overlap, and items of a
   priority case that can never be taken because earlier ones cover them. A pattern that is not
   constant is absent from its item. -/
namespace CombLogic.Coverage

/-- The constant patterns of the items of a case. -/
structure Shape where
  selector : String
  kind : CaseKind
  items : List (List (Option Value))

def bitsOverlap (a b : Bit) : Bool := a == .z || b == .z || (a.isKnown && a == b)

def bitCovers (earlier later : Bit) : Bool := earlier == .z || (earlier.isKnown && earlier == later)

/-- Whether two patterns can match one selector value. -/
def valuesOverlap (wildcard : Bool) (a b : Value) : Bool :=
  if wildcard then a.width == b.width && (List.zipWith bitsOverlap a.bits b.bits).all id
  else a == b

/-- Whether a pattern matches everything that a later one matches. -/
def valueCovers (wildcard : Bool) (earlier later : Value) : Bool :=
  if wildcard then
    earlier.width == later.width && (List.zipWith bitCovers earlier.bits later.bits).all id
  else earlier == later

/-- Whether some two constant patterns of two items overlap. -/
def itemsOverlap (wildcard : Bool) (a b : List (Option Value)) : Bool :=
  a.any fun p => p.any fun p => b.any fun q => q.any (valuesOverlap wildcard p)

/-- Pairs of items that overlap, by their positions: each item with the later ones in turn. -/
def overlapsFrom (wildcard : Bool) : List (List (Option Value) × Nat) → List (Nat × Nat)
  | [] => []
  | (item, place) :: rest =>
    ((rest.filter fun other => itemsOverlap wildcard item other.1).map fun other =>
      (place, other.2)) ++ overlapsFrom wildcard rest

def overlaps (shape : Shape) : List (Nat × Nat) :=
  overlapsFrom shape.kind.wildcard shape.items.zipIdx

def overlapWarning (shape : Shape) (p : Nat × Nat) : Diagnostic :=
  let (first, second) := p
  .make (.warning 201) "unique case items overlap"
    [⟨shape.selector, s!"items {first} and {second} can both match", .primary⟩]
    ["the first matching item is taken; overlaps are also reported at run time"] []

/-- The first of the earlier items that covers a pattern. -/
def coveredBy (wildcard : Bool) (earlier : List (List (Option Value))) (later : Value) :
    Option Nat :=
  earlier.findIdx? fun item => item.any fun p => p.any (valueCovers wildcard · later)

/-- For an item that is not empty and has only constant patterns, each of them covered by an earlier
    item: the least number of those. -/
def shadowedBy (wildcard : Bool) (earlier : List (List (Option Value)))
    (item : List (Option Value)) : Option Nat := do
  let patterns ← item.mapM id
  let covering ← patterns.mapM (coveredBy wildcard earlier)
  covering.min?

def unreachable (shape : Shape) : List (Nat × Nat) :=
  (List.range shape.items.length).filterMap fun index =>
    (shadowedBy shape.kind.wildcard (shape.items.take index) (shape.items.getD index [])).map
      fun first => (index, first)

def unreachableWarning (shape : Shape) (p : Nat × Nat) : Diagnostic :=
  let (index, first) := p
  .make (.warning 202) "case item is unreachable"
    [⟨shape.selector, s!"item {index} is shadowed by item {first}", .primary⟩] []
    ["remove the item or move it before the items that cover it"]

/-- The warnings for a case, or the error where overlapping is denied. -/
def check (settings : BlockSettings) (shape : Shape) : Except BlockError (List Diagnostic) :=
  if shape.kind.unique then
    match settings.overlapRule, overlaps shape with
    | .allow, _ => .ok []
    | .deny, (first, second) :: _ => .error (.overlap shape.selector first second)
    | _, found => .ok (found.map (overlapWarning shape))
  else if settings.reportUnreachable then
    .ok ((unreachable shape).map (unreachableWarning shape))
  else .ok []

end CombLogic.Coverage
