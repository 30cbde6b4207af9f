import CombLogic.Diagnostic.Basic
import CombLogic.Json.Value
import CombLogic.Expr.Basic
import CombLogic.Value.Packed

/- The JSON form of the library's values: an alternative without data is its name, a structure is an
   object with its fields, and an alternative with data is an object with its name. -/
namespace CombLogic

namespace JsonValue

def fields (members : List (String × JsonValue)) : JsonValue :=
  .object (members.map fun m => (some m.1, m.2))

def ofNat (n : Nat) : JsonValue := .integer n

end JsonValue

open JsonValue

def Bit.title : Bit → String
  | zero => "Zero"
  | one => "One"
  | x => "X"
  | z => "Z"

def Bit.all : List Bit := [zero, one, x, z]

def Category.title : Category → String
  | error => "Error"
  | warning => "Warning"

def LabelRank.title : LabelRank → String
  | primary => "Primary"
  | secondary => "Secondary"

def Ref.toJson : Ref → JsonValue
  | leaf id => fields [("Signal", .ofNat id)]
  | bundle id => fields [("Composite", .ofNat id)]

def Code.toJson (c : Code) : JsonValue :=
  fields [("category", .string c.category.title), ("number", .ofNat c.number)]

def Label.toJson (l : Label) : JsonValue :=
  fields [("signal", .string l.signal), ("message", .string l.message),
    ("style", .string l.style.title)]

def Diagnostic.toJson (d : Diagnostic) : JsonValue :=
  fields [("severity", .string d.severity.text), ("code", d.code.toJson),
    ("message", .string d.message), ("labels", .array (d.labels.map Label.toJson)),
    ("notes", .array (d.notes.map .string)), ("help", .array (d.help.map .string))]

end CombLogic
