import CombLogic.Scan

/- JSON values, as far as the library has a use for them: of the numbers the integers, and of the
   strings those that hold characters only. -/
namespace CombLogic

inductive JsonValue where
  | null
  | boolean (b : Bool)
  | integer (n : Int)
  /-- A number written with a fraction or an exponent, or as negative zero. -/
  | otherNumber
  | string (s : String)
  /-- A string with half of a surrogate pair in it. -/
  | brokenString
  | array (items : List JsonValue)
  /-- Members in the order of the text; a broken string as a name is absent. -/
  | object (members : List (Option String × JsonValue))

namespace JsonValue

open Scan

def isSpace (c : Char) : Bool := c == ' ' || c == '\n' || c == '\t' || c == '\r'

def space : Scan Unit := discard <| takeWhile isSpace

def hexUnit : Scan Nat := return numberOf 16 (← times (satisfy (isDigitOf 16)) 4)

def isHighHalf (n : Nat) : Bool := 0xD800 ≤ n && n < 0xDC00

def isLowHalf (n : Nat) : Bool := 0xDC00 ≤ n && n < 0xE000

/-- The second half of a surrogate pair. -/
def lowHalf : Scan Nat := do
  word ['\\', 'u']
  let n ← hexUnit
  if isLowHalf n then return n else failure

/-- An escaped character after the backslash, absent if it is half of a surrogate pair. -/
def escaped : Scan (Option Char) := do
  match ← satisfy fun _ => true with
  | '"' => return some '"'
  | '\\' => return some '\\'
  | '/' => return some '/'
  | 'b' => return some '\x08'
  | 'f' => return some '\x0c'
  | 'n' => return some '\n'
  | 'r' => return some '\r'
  | 't' => return some '\t'
  | 'u' =>
    let n ← hexUnit
    if isHighHalf n then
      return (← opt lowHalf).map fun m => Char.ofNat (0x10000 + (n - 0xD800) * 0x400 + (m - 0xDC00))
    else if isLowHalf n then return none
    else return some (Char.ofNat n)
  | _ => failure

def stringChar : Scan (Option Char) := do
  match ← satisfy fun c => c != '"' && 0x20 ≤ c.toNat with
  | '\\' => escaped
  | c => return some c

/-- A string in quotes, absent if it is broken. -/
def quoted : Scan (Option String) := do
  char '"'
  let chars ← many stringChar
  char '"'
  return (chars.mapM id).map String.ofList

def fraction : Scan Unit := do
  char '.'
  discard <| takeWhile1 isDecimal

def exponent : Scan Unit := do
  discard <| satisfy fun c => c == 'e' || c == 'E'
  discard <| opt (satisfy fun c => c == '+' || c == '-')
  discard <| takeWhile1 isDecimal

/-- No digit follows a leading zero. -/
def digits : Scan (List Char) := do
  match ← satisfy isDecimal with
  | '0' => return ['0']
  | c => return c :: (← takeWhile isDecimal)

def number : Scan JsonValue := do
  let minus := (← opt (char '-')).isSome
  let n := numberOf 10 (← digits)
  let fraction ← opt fraction
  let exponent ← opt exponent
  if fraction.isSome || exponent.isSome || (minus && n == 0) then return .otherNumber
  else return .integer (if minus then -n else n)

/-- Items in brackets with commas between them. -/
def listed {α : Type} (opening closing : Char) (item : Scan α) : Scan (List α) := do
  char opening
  space
  let items ← separated item do
    char ','
    space
  char closing
  return items

/-- A value and the space after it. Each level of nesting takes one of the fuel. -/
def scan : Nat → Scan JsonValue
  | 0 => failure
  | fuel + 1 => do
    let value ← match ← peek with
      | some '"' => return match ← quoted with
        | some s => .string s
        | none => .brokenString
      | some '[' => JsonValue.array <$> listed '[' ']' do
        let value ← scan fuel
        space
        return value
      | some '\x7b' => JsonValue.object <$> listed '\x7b' '\x7d' do
        let name ← quoted
        space
        char ':'
        space
        let value ← scan fuel
        space
        return (name, value)
      | some 'n' => do
        word ['n', 'u', 'l', 'l']
        pure .null
      | some 't' => do
        word ['t', 'r', 'u', 'e']
        pure (.boolean true)
      | some 'f' => do
        word ['f', 'a', 'l', 's', 'e']
        pure (.boolean false)
      | _ => number
    return value

/-- The value that a text writes, with space around it. -/
def read? (text : String) : Option JsonValue :=
  Scan.run? (do
    space
    let value ← scan (text.length + 1)
    space
    return value) text

end JsonValue

end CombLogic
