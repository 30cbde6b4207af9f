import CombLogic.Json.Encode

/- Reading the library's values from their JSON form. A structure may also be written as a list of
   its fields in order, members with other names are passed over, and the name of a field may not
   come twice. -/
namespace CombLogic

namespace JsonValue

def nat? (limit : Nat) : JsonValue → Option Nat
  | integer (.ofNat n) => if n < limit then some n else none
  | _ => none

def index? : JsonValue → Option Nat := nat? 0x100000000

def string? : JsonValue → Option String
  | string s => some s
  | _ => none

def list? {α : Type} (decode : JsonValue → Option α) : JsonValue → Option (List α)
  | array items => items.mapM decode
  | _ => none

/-- An alternative without data: its name, or its name with nothing attached. -/
def choice? {α : Type} (title : α → String) (all : List α) : JsonValue → Option α
  | string s => all.find? (title · == s)
  | object [(some s, null)] => all.find? (title · == s)
  | _ => none

/-- The fields of a structure, in the order of their names. -/
def fields? (names : List String) : JsonValue → Option (List JsonValue)
  | array items => if items.length = names.length then some items else none
  | object members => do
    let members ← members.mapM fun m => m.1.map fun name => (name, m.2)
    names.mapM fun name =>
      match members.filter (·.1 == name) with
      | [member] => some member.2
      | _ => none
  | _ => none

end JsonValue

open JsonValue

def Bit.ofJson? : JsonValue → Option Bit := choice? title all

def UnaryOp.ofJson? : JsonValue → Option UnaryOp := choice? title all

def BinaryOp.ofJson? : JsonValue → Option BinaryOp := choice? title all

def Category.ofJson? : JsonValue → Option Category := choice? title [.error, .warning]

def Severity.ofJson? : JsonValue → Option Severity := choice? text [.warning, .error]

def LabelRank.ofJson? : JsonValue → Option LabelRank := choice? title [.primary, .secondary]

def Ref.ofJson? : JsonValue → Option Ref
  | .object [(some "Signal", id)] => id.index?.map leaf
  | .object [(some "Composite", id)] => id.index?.map bundle
  | _ => none

def Packed.ofJson? (j : JsonValue) : Option Packed := do
  match ← j.fields? ["width", "data"] with
  | [width, words] =>
    let words := (← words.list? (nat? 0x10000000000000000)).map (BitVec.ofNat 64)
    return ⟨← width.index?, words.toArray⟩
  | _ => none

def Code.ofJson? (j : JsonValue) : Option Code := do
  match ← j.fields? ["category", "number"] with
  | [category, number] => return ⟨← Category.ofJson? category, ← number.nat? 0x10000⟩
  | _ => none

def Label.ofJson? (j : JsonValue) : Option Label := do
  match ← j.fields? ["signal", "message", "style"] with
  | [signal, message, style] =>
    return ⟨← signal.string?, ← message.string?, ← LabelRank.ofJson? style⟩
  | _ => none

def Diagnostic.ofJson? (j : JsonValue) : Option Diagnostic := do
  match ← j.fields? ["severity", "code", "message", "labels", "notes", "help"] with
  | [severity, code, message, labels, notes, help] =>
    return ⟨← Severity.ofJson? severity, ← Code.ofJson? code, ← message.string?,
      ← labels.list? Label.ofJson?, ← notes.list? string?, ← help.list? string?⟩
  | _ => none

end CombLogic
