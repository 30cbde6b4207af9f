import CombLogic.Netlist.Basic

/- Expressions and leaves written out on one line. A shared node of an expression stands at each of its
   places. -/
namespace CombLogic

def LeafId.text (id : LeafId) : String := s!"SignalId({id})"

def BundleId.text (id : BundleId) : String := s!"CompositeId({id})"

def Ref.text : Ref → String
  | leaf id => "Signal(" ++ LeafId.text id ++ ")"
  | bundle id => "Composite(" ++ BundleId.text id ++ ")"

/-- A name with named parts in braces. -/
def recordText (name : String) (fields : List (String × String)) : String :=
  name ++ " \x7b " ++ ", ".intercalate (fields.map fun f => f.1 ++ ": " ++ f.2) ++ " \x7d"

namespace Expr

mutual

def text : Expr → String
  | signal _ leaf => "Signal(" ++ LeafId.text leaf ++ ")"
  | literal _ value => "Literal(" ++ value.sizedText ++ ")"
  | integer _ value => s!"Int({value})"
  | read _ target => "Scoped(" ++ target.text ++ ")"
  | unassigned _ leaf => "Uninit(" ++ LeafId.text leaf ++ ")"
  | unary _ op a => recordText "Unary" [("op", op.title), ("operand", text a)]
  | binary _ op a b => recordText "Binary" [("op", op.title), ("lhs", text a), ("rhs", text b)]
  | mux _ c t f =>
    recordText "Mux" [("condition", text c), ("when_true", text t), ("when_false", text f)]
  | concat _ parts => "Concat([" ++ ", ".intercalate (texts parts) ++ "])"
  | slice _ a high low =>
    recordText "Slice" [("expr", text a), ("high", toString high), ("low", toString low)]
  | extend _ a width signed =>
    recordText "Extend" [("expr", text a), ("width", toString width), ("signed", toString signed)]
  | caseMatch _ s p wildcard =>
    recordText "CaseMatch"
      [("subject", text s), ("pattern", text p), ("wildcard", toString wildcard)]

def texts : List Expr → List String
  | [] => []
  | e :: rest => text e :: texts rest

end

end Expr

def Drive.text : Drive → String
  | undriven => "Undriven"
  | root => "Root"
  | driven e => "Driven(" ++ e.text ++ ")"

/-- A list in braces. -/
def setText (items : List String) : String := "\x7b" ++ ", ".intercalate items ++ "\x7d"

def Leaf.text (leaf : Leaf) : String :=
  recordText "SignalNode"
    [("name", s!"Ident({leaf.name})"), ("width", toString leaf.width),
      ("value", leaf.value.sizedText), ("mode", leaf.drive.text),
      ("dependents", setText (leaf.readers.toList.map LeafId.text)),
      ("subscribers", toString leaf.subscribers.size)]

end CombLogic
