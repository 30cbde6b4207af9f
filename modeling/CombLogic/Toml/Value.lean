/- The contents of a settings file: tables of keys, built up from headers and dotted keys. A table
   is opened by one header at most; what a dotted key has made takes values by dotted keys only,
   and a table in braces is closed. -/
namespace CombLogic.Toml

inductive Scalar where
  | string (s : String)
  | integer (n : Int)
  | boolean (b : Bool)
  /-- A float, date or time. -/
  | other
deriving DecidableEq, Repr

inductive Origin where
  /-- A header names the table; the table of the whole file counts as one, too. -/
  | header
  /-- A header names a table inside it. -/
  | implied
  | dotted
  | inline
deriving DecidableEq, Repr

inductive Item where
  | scalar (s : Scalar)
  | list (items : List Item)
  /-- Keys with values, the latest one first. -/
  | table (origin : Origin) (entries : List (String × Item))
  /-- Tables with one header, in double brackets, for each, the latest one first. -/
  | tables (elements : List (List (String × Item)))
deriving Repr

abbrev Entries := List (String × Item)

/-- Puts an item in the place of the one under its key. -/
def put (key : String) (item : Item) : Entries → Entries
  | [] => []
  | entry :: rest => if entry.1 = key then (key, item) :: rest else entry :: put key item rest

/-- Changes the table at the end of a path and makes the tables on the way that are missing. -/
def within (dotted : Bool) (change : Origin → Entries → Option Entries) :
    List String → Origin → Entries → Option Entries
  | [], origin, entries => change origin entries
  | key :: path, _, entries => do
    match entries.lookup key with
    | none =>
      let origin := if dotted then .dotted else .implied
      return (key, .table origin (← within dotted change path origin [])) :: entries
    | some (.table origin inner) =>
      if origin = .inline ∨ (dotted ∧ origin = .header) then none
      else return put key (.table origin (← within dotted change path origin inner)) entries
    | some (.tables (last :: earlier)) =>
      return put key (.tables ((← within dotted change path .header last) :: earlier)) entries
    | some _ => none

/-- Adds a value under a dotted key. -/
def insert (entries : Entries) (path : List String) (key : String) (item : Item) : Option Entries :=
  within true (fun origin inner =>
    if (origin = .dotted) = (path = []) then none
    else if (inner.lookup key).isSome then none
    else some ((key, item) :: inner)) path .header entries

/-- Keys with values, as they stand below a header or in braces. -/
abbrev Body := List (List String × String × Item)

def fill (entries : Entries) (body : Body) : Option Entries :=
  body.foldlM (fun entries line => insert entries line.1 line.2.1 line.2.2) entries

/-- A header and what stands below it. -/
structure Section where
  path : List String
  key : String
  /-- The header has double brackets. -/
  repeated : Bool
  body : Body

def addSection (root : Entries) (s : Section) : Option Entries :=
  within false (fun _ entries => do
    match s.repeated, entries.lookup s.key with
    | false, none => return (s.key, .table .header (← fill [] s.body)) :: entries
    | false, some (.table .implied inner) =>
      return put s.key (.table .header (← fill inner s.body)) entries
    | true, none => return (s.key, .tables [← fill [] s.body]) :: entries
    | true, some (.tables elements) =>
      return put s.key (.tables ((← fill [] s.body) :: elements)) entries
    | _, _ => none) s.path .header root

def document (top : Body) (sections : List Section) : Option Entries := do
  sections.foldlM addSection (← fill [] top)

end CombLogic.Toml
