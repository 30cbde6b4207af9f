/- Settings of block compilation and of settlement passes. -/
namespace CombLogic

/-- What happens when constant items of a unique case overlap. -/
inductive OverlapRule where
  | allow
  | warn
  | deny
deriving DecidableEq, Repr

def OverlapRule.text : OverlapRule → String
  | allow => "allow"
  | warn => "warn"
  | deny => "deny"

def OverlapRule.ofText? (s : String) : Option OverlapRule :=
  [allow, warn, deny].find? (·.text == s)

structure BlockSettings where
  overlapRule : OverlapRule := .warn
  /-- Whether items of a priority case that can never be taken are reported. -/
  reportUnreachable : Bool := true
deriving DecidableEq, Repr

structure PassSettings where
  /-- The most leaves that one pass may affect. -/
  maxPassNodes : Nat := 1000000
deriving DecidableEq, Repr

structure Settings where
  block : BlockSettings := {}
  pass : PassSettings := {}
deriving DecidableEq, Repr

inductive SettingsError where
  /-- The file is missing or no text. -/
  | unreadable
  /-- The text is not well formed or has other tables, keys or values than the settings have. -/
  | malformed
  | outOfRange (key : String) (least value : Nat)
deriving DecidableEq, Repr

def SettingsError.message : SettingsError → String
  | unreadable => "cannot read the settings"
  | malformed => "invalid settings"
  | outOfRange key least value => s!"{key} must be at least {least}, got {value}"

end CombLogic
