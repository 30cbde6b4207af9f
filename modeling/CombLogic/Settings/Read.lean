import CombLogic.Settings.Basic
import CombLogic.Toml.Read

/- Settings from the text of a file. Everything has a default, and nothing else may be written. -/
namespace CombLogic

namespace Toml.Item

/-- The fields of a structure in the order of their names: a table with no other keys, or a list. -/
def fields? (names : List String) : Item → Option (List (Option Item))
  | .table _ entries =>
    if entries.all fun entry => names.contains entry.1 then
      some (names.map fun name => entries.lookup name)
    else none
  | .list items => some ((List.range names.length).map (items[·]?))
  | .tables elements =>
    let first := elements.reverse
    some ((List.range names.length).map fun i => first[i]?.map (.table .header))
  | .scalar _ => none

/-- A field that is not written has its default. -/
def fieldOr {α : Type} (default : α) (decode : Item → Option α) : Option Item → Option α
  | none => some default
  | some item => decode item

def boolean? : Item → Option Bool
  | .scalar (.boolean b) => some b
  | _ => none

def natural? : Item → Option Nat
  | .scalar (.integer (.ofNat n)) => some n
  | _ => none

end Toml.Item

open Toml

/-- The name of a policy, alone or as the one key of a table with nothing under it. -/
def OverlapRule.ofItem? : Item → Option OverlapRule
  | .scalar (.string s) => ofText? s
  | .table _ [(s, .table _ [])] => ofText? s
  | .table _ [(s, .list [])] => ofText? s
  | _ => none

namespace BlockSettings

def ofItem? (item : Item) : Option BlockSettings := do
  match ← Item.fields? ["unique_overlap", "lint_unreachable_items"] item with
  | [policy, lint] =>
    return ⟨← Item.fieldOr .warn OverlapRule.ofItem? policy,
      ← Item.fieldOr true Item.boolean? lint⟩
  | _ => none

end BlockSettings

namespace PassSettings

def ofItem? (item : Item) : Option PassSettings := do
  match ← Item.fields? ["max_pass_nodes"] item with
  | [limit] => return ⟨← Item.fieldOr 1000000 Item.natural? limit⟩
  | _ => none

end PassSettings

namespace Settings

def ofItem? (item : Item) : Option Settings := do
  match ← Item.fields? ["ssa", "propagation"] item with
  | [block, pass] =>
    return ⟨← Item.fieldOr {} BlockSettings.ofItem? block,
      ← Item.fieldOr {} PassSettings.ofItem? pass⟩
  | _ => none

/-- A pass that may not touch any leaf would be of no use. -/
def validate (s : Settings) : Except SettingsError Settings :=
  if s.pass.maxPassNodes = 0 then .error (.outOfRange "propagation.max_pass_nodes" 1 0) else .ok s

def ofText (text : String) : Except SettingsError Settings :=
  match (read? text).bind fun entries => ofItem? (.table .header entries) with
  | some settings => settings.validate
  | none => .error .malformed

/-- The settings in the contents of a file, if there is one. -/
def ofFile : Option ByteArray → Except SettingsError Settings
  | none => .error .unreadable
  | some bytes =>
    match String.fromUTF8? bytes with
    | some text => ofText text
    | none => .error .unreadable

end Settings

end CombLogic
