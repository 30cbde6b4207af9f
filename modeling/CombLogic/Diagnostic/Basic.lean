/- Findings about a block: a code, the signals concerned and what to do about it, with the text in
   which they are shown. A log collects them over several compilations; what is taken out of it still
   counts. -/
namespace CombLogic

inductive Category where
  | error
  | warning
deriving DecidableEq, Repr

inductive Severity where
  | warning
  | error
deriving DecidableEq, Repr

def Severity.text : Severity → String
  | warning => "warning"
  | error => "error"

def Category.severity : Category → Severity
  | error => .error
  | warning => .warning

structure Code where
  category : Category
  number : Nat
deriving DecidableEq, Repr

namespace Code

def error (number : Nat) : Code := ⟨.error, number⟩

def warning (number : Nat) : Code := ⟨.warning, number⟩

/-- A letter and at least three digits. -/
def text (c : Code) : String :=
  let digits := toString c.number
  let letter := match c.category with
    | .error => "E"
    | .warning => "W"
  letter ++ String.ofList (List.replicate (3 - digits.length) '0') ++ digits

end Code

inductive LabelRank where
  | primary
  | secondary
deriving DecidableEq, Repr

def LabelRank.arrow : LabelRank → String
  | primary => "-->"
  | secondary => "---"

structure Label where
  signal : String
  message : String
  style : LabelRank
deriving DecidableEq, Repr

structure Diagnostic where
  severity : Severity
  code : Code
  message : String
  labels : List Label
  notes : List String
  help : List String
deriving DecidableEq, Repr

namespace Diagnostic

/-- The severity follows the code. -/
def make (code : Code) (message : String) (labels : List Label) (notes help : List String) :
    Diagnostic :=
  ⟨code.category.severity, code, message, labels, notes, help⟩

def labelLine (l : Label) : String := "  " ++ l.style.arrow ++ s!" {l.signal}: {l.message}\n"

/-- A headline, then a line for each label, note and piece of help. -/
def render (d : Diagnostic) : String :=
  d.severity.text ++ "[" ++ d.code.text ++ "]: " ++ d.message ++ "\n"
    ++ String.join (d.labels.map labelLine)
    ++ String.join (d.notes.map fun note => s!"   = note: {note}\n")
    ++ String.join (d.help.map fun help => s!"   = help: {help}\n")

end Diagnostic

structure DiagnosticLog where
  held : Array Diagnostic
  warnings : Nat
  errors : Nat
deriving DecidableEq, Repr

namespace DiagnosticLog

def empty : DiagnosticLog := ⟨#[], 0, 0⟩

def add (s : DiagnosticLog) (d : Diagnostic) : DiagnosticLog :=
  let s := { s with held := s.held.push d }
  match d.severity with
  | .warning => { s with warnings := s.warnings + 1 }
  | .error => { s with errors := s.errors + 1 }

def count (s : DiagnosticLog) : Severity → Nat
  | .warning => s.warnings
  | .error => s.errors

def anyErrors (s : DiagnosticLog) : Bool := 0 < s.errors

def drain (s : DiagnosticLog) : List Diagnostic × DiagnosticLog :=
  (s.held.toList, { s with held := #[] })

end DiagnosticLog

end CombLogic
