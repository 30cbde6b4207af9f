import CombLogic.Scan
import CombLogic.Toml.Value

/- Reading the text of a settings file. -/
namespace CombLogic.Toml

open Scan

/-- Characters that text may hold as they are: all but the control characters other than the tab. -/
def isText (c : Char) : Bool := c == '\t' || (0x20 ≤ c.toNat && c.toNat != 0x7f)

def isBlank (c : Char) : Bool := c == ' ' || c == '\t'

def blanks : Scan Unit := discard <| takeWhile isBlank

def newline : Scan Unit := char '\n' <|> word ['\r', '\n']

def comment : Scan Unit := do
  char '#'
  discard <| takeWhile isText

/-- What may follow a statement on its line. -/
def lineEnd : Scan Unit := do
  blanks
  discard <| opt comment
  newline <|> finish

/-- Blanks, comments and line ends, as they may stand in a list. -/
def gap : Scan Unit := discard <| many ((discard <| takeWhile1 isBlank) <|> newline <|> comment)

/-- A character by its number, if that is one. -/
def charOf (n : Nat) : Scan Char :=
  if n < 0xD800 ∨ (0xE000 ≤ n ∧ n < 0x110000) then return Char.ofNat n else failure

def escaped : Scan Char := do
  match ← satisfy fun _ => true with
  | 'b' => return '\x08'
  | 'f' => return '\x0c'
  | 'n' => return '\n'
  | 'r' => return '\r'
  | 't' => return '\t'
  | '"' => return '"'
  | '\\' => return '\\'
  | 'u' => charOf (numberOf 16 (← times (satisfy (isDigitOf 16)) 4))
  | 'U' => charOf (numberOf 16 (← times (satisfy (isDigitOf 16)) 8))
  | _ => failure

def basicChar : Scan Char := do
  match ← satisfy fun c => isText c && c != '"' with
  | '\\' => escaped
  | c => return c

def basicString : Scan String := do
  char '"'
  let chars ← many basicChar
  char '"'
  return String.ofList chars

def literalString : Scan String := do
  char '\''
  let chars ← takeWhile fun c => isText c && c != '\''
  char '\''
  return String.ofList chars

/-- A backslash at the end of a line joins it with the next one that is not blank. -/
def lineJoin : Scan (List Char) := do
  char '\\'
  blanks
  newline
  discard <| many ((discard <| takeWhile1 isBlank) <|> newline)
  return []

/-- One or two quotes with none after them stand for themselves. -/
def loneQuotes (quote : Char) : Scan (List Char) := do
  let quotes ← takeWhile1 (· == quote)
  if quotes.length < 3 then return quotes else failure

/-- Three quotes end a long string; one or two more before them belong to it. -/
def closing (quote : Char) : Scan (List Char) := do
  let quotes ← takeWhile1 (· == quote)
  if 3 ≤ quotes.length ∧ quotes.length ≤ 5 then return quotes.drop 3 else failure

def longString (quote : Char) (piece : Scan (List Char)) : Scan String := do
  word [quote, quote, quote]
  discard <| opt newline
  let pieces ← many ((do newline; return ['\n']) <|> piece <|> loneQuotes quote)
  let last ← closing quote
  return String.ofList (pieces.flatten ++ last)

def longBasicString : Scan String := longString '"' (lineJoin <|> (do return [← basicChar]))

def longLiteralString : Scan String :=
  longString '\'' do return [← satisfy fun c => isText c && c != '\'']

def string : Scan String :=
  longBasicString <|> basicString <|> longLiteralString <|> literalString

def isKeyChar (c : Char) : Bool := c.isAlphanum || c == '-' || c == '_'

def simpleKey : Scan String := do
  blanks
  let key ← basicString <|> literalString <|> String.ofList <$> takeWhile1 isKeyChar
  blanks
  return key

/-- The deepest nesting of values, and the most parts of a dotted key. -/
def maxDepth : Nat := 79

/-- A dotted key: the path before its last part, and that part. -/
def key : Scan (List String × String) := do
  let parts ← separated1 simpleKey (char '.')
  if parts.length ≤ maxDepth then return (parts.dropLast, parts.getLastD "") else failure

/-- Digits, between which single underscores may stand. -/
def digits (base : Nat) : Scan (List Char) := do
  let first ← satisfy (isDigitOf base)
  let rest ← many do
    discard <| opt (char '_')
    satisfy (isDigitOf base)
  return first :: rest

/-- A decimal integer, with no digit after a leading zero. -/
def decimal : Scan (Bool × List Char) := do
  let sign ← opt (satisfy fun c => c == '+' || c == '-')
  match ← peek with
  | some '0' =>
    char '0'
    return (sign == some '-', ['0'])
  | _ => return (sign == some '-', ← digits 10)

def based (mark : Char) (base : Nat) : Scan Int := do
  word ['0', mark]
  return numberOf base (← digits base)

/-- Integers have 64 bits with the sign. -/
def integer : Scan Int := do
  let n ← based 'x' 16 <|> based 'o' 8 <|> based 'b' 2 <|> (do
    let (negative, digits) ← decimal
    let n := (numberOf 10 digits : Int)
    return if negative then -n else n)
  if -0x8000000000000000 ≤ n ∧ n < 0x8000000000000000 then return n else failure

/-- The least number that is rounded to infinity in the format of floats. -/
def floatLimit : Nat := Nat.pow 2 1024 - Nat.pow 2 970

/-- Whether a decimal number, an integer times a power of ten, is below the limit of floats. -/
def isFinite (digits : List Char) (exponent : Int) : Bool :=
  let significant := digits.dropWhile (· == '0')
  let magnitude := significant.length + exponent
  if significant.isEmpty ∨ magnitude ≤ 300 then true
  else if 310 ≤ magnitude then false
  else if 0 ≤ exponent then numberOf 10 significant * Nat.pow 10 exponent.toNat < floatLimit
  else numberOf 10 significant < floatLimit * Nat.pow 10 (-exponent).toNat

def fraction : Scan (List Char) := do
  char '.'
  digits 10

def exponent : Scan Int := do
  discard <| satisfy fun c => c == 'e' || c == 'E'
  let sign ← opt (satisfy fun c => c == '+' || c == '-')
  let n := (numberOf 10 (← digits 10) : Int)
  return if sign == some '-' then -n else n

/-- A float; a positive one may not be too large for its format. -/
def float : Scan Unit := do
  let (negative, whole) ← decimal
  let part ← opt fraction
  let power ← opt exponent
  if part.isNone && power.isNone then failure
  let part := part.getD []
  if negative || isFinite (whole ++ part) (power.getD 0 - part.length) then return else failure

def specialFloat : Scan Unit := do
  discard <| opt (satisfy fun c => c == '+' || c == '-')
  word ['i', 'n', 'f'] <|> word ['n', 'a', 'n']

/-- A number of a fixed count of digits within bounds. -/
def bounded (count low high : Nat) : Scan Nat := do
  let n := numberOf 10 (← times (satisfy isDecimal) count)
  if low ≤ n ∧ n ≤ high then return n else failure

def daysIn (year month : Nat) : Nat :=
  if month = 2 then
    if year % 4 = 0 ∧ (year % 100 ≠ 0 ∨ year % 400 = 0) then 29 else 28
  else if month = 4 ∨ month = 6 ∨ month = 9 ∨ month = 11 then 30
  else 31

def date : Scan Unit := do
  let year ← bounded 4 0 9999
  char '-'
  let month ← bounded 2 1 12
  char '-'
  discard <| bounded 2 1 (daysIn year month)

def time : Scan Unit := do
  discard <| bounded 2 0 23
  char ':'
  discard <| bounded 2 0 59
  char ':'
  discard <| bounded 2 0 60
  discard <| opt do
    char '.'
    discard <| takeWhile1 isDecimal

def offset : Scan Unit :=
  (discard <| satisfy fun c => c == 'Z' || c == 'z') <|> (do
    discard <| satisfy fun c => c == '+' || c == '-'
    discard <| bounded 2 0 23
    char ':'
    discard <| bounded 2 0 59)

def dateTime : Scan Unit :=
  (do
    date
    discard <| opt do
      discard <| satisfy fun c => c == 'T' || c == 't' || c == ' '
      time
      discard <| opt offset) <|> time

def scalar : Scan Scalar := do
  match ← peek with
  | some '"' | some '\'' => .string <$> string
  | some 't' =>
    word ['t', 'r', 'u', 'e']
    return .boolean true
  | some 'f' =>
    word ['f', 'a', 'l', 's', 'e']
    return .boolean false
  | _ =>
    (do dateTime; return .other) <|> (do float; return .other) <|>
      (do specialFloat; return .other) <|> .integer <$> integer

/-- A list of values, after the last of which a comma may stand. -/
def list (value : Scan Item) : Scan Item := do
  char '['
  let items ← separated (do
    gap
    let item ← value
    gap
    return item) (char ',')
  if !items.isEmpty then discard <| opt (char ',')
  gap
  char ']'
  return .list items

def keyValue (value : Scan Item) : Scan (List String × String × Item) := do
  let (path, name) ← key
  char '='
  blanks
  return (path, name, ← value)

/-- A table in braces, on one line. -/
def inlineTable (value : Scan Item) : Scan Item := do
  char '\x7b'
  let body ← separated (do
    let line ← keyValue value
    blanks
    return line) (char ',')
  blanks
  char '\x7d'
  match fill [] body with
  | some entries => return .table .inline entries
  | none => failure

/-- A value in which lists and tables in braces are nested up to a depth. -/
def value : Nat → Scan Item
  | 0 => .scalar <$> scalar
  | depth + 1 => do
    match ← peek with
    | some '[' => list (value depth)
    | some '\x7b' => inlineTable (value depth)
    | _ => .scalar <$> scalar

inductive Line where
  | blank
  | keyValue (line : List String × String × Item)
  | header (path : List String) (key : String) (repeated : Bool)

def header : Scan Line :=
  (do
    word ['[', '[']
    let (path, name) ← key
    word [']', ']']
    return .header path name true) <|> (do
    char '['
    let (path, name) ← key
    char ']'
    return .header path name false)

def line : Scan Line := do
  blanks
  match ← peek with
  | none => failure
  | some '#' | some '\n' | some '\r' =>
    lineEnd
    return .blank
  | some '[' =>
    let line ← header
    lineEnd
    return line
  | some _ =>
    let line ← keyValue (value maxDepth)
    lineEnd
    return .keyValue line

/-- The lines before the first header, and the sections in the order of the text. -/
def sections : List Line → Body × List Section
  | [] => ([], [])
  | .blank :: rest => sections rest
  | .keyValue line :: rest =>
    let (top, later) := sections rest
    (line :: top, later)
  | .header path key repeated :: rest =>
    let (body, later) := sections rest
    ([], ⟨path, key, repeated, body⟩ :: later)

def lines : Scan (List Line) := do
  discard <| opt (char '\ufeff')
  let lines ← many line
  blanks
  return lines

/-- The table that a text writes, if it is well formed. -/
def read? (text : String) : Option Entries := do
  let (top, later) := sections (← run? lines text)
  document top later

end CombLogic.Toml
