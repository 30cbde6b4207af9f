import Std.Data.TreeMap

/- Growing stores. Entries are numbered from zero in the order in which they were added and are never
   removed. Names are kept once each; a table leads from a name back to its number. -/
namespace CombLogic

structure Numbered (α : Type) where
  entries : Array α
deriving Repr

namespace Numbered

variable {α : Type}

def empty : Numbered α := ⟨#[]⟩

def size (a : Numbered α) : Nat := a.entries.size

def isEmpty (a : Numbered α) : Bool := a.entries.isEmpty

def get? (a : Numbered α) (id : Nat) : Option α := a.entries[id]?

def ids (a : Numbered α) : List Nat := List.range a.size

/-- The number of the new entry is the size before. -/
def add (a : Numbered α) (entry : α) : Nat × Numbered α := (a.size, ⟨a.entries.push entry⟩)

/-- Changes one entry; a number without an entry changes nothing. -/
def modify (a : Numbered α) (id : Nat) (f : α → α) : Numbered α := ⟨a.entries.modify id f⟩

def set? (a : Numbered α) (id : Nat) (entry : α) : Option (Numbered α) :=
  if h : id < a.size then some ⟨a.entries.set id entry h⟩ else none

end Numbered

structure Names where
  texts : Array String
  numbers : Std.TreeMap String Nat
  /-- The table holds exactly the names listed, each under its place. -/
  numbers_iff : ∀ {name : String} {number : Nat},
    numbers[name]? = some number ↔ texts[number]? = some name

namespace Names

def empty : Names := ⟨#[], {}, by simp⟩

def size (t : Names) : Nat := t.texts.size

def text? (t : Names) (number : Nat) : Option String := t.texts[number]?

/-- Lists a name that is not there. -/
def add (t : Names) (name : String) (new : t.numbers[name]? = none) : Names :=
  let number := t.size
  ⟨t.texts.push name, t.numbers.insert name number, by
    intro other place
    simp only [Std.TreeMap.getElem?_insert, Array.getElem?_push, Std.LawfulEqCmp.compare_eq_iff_eq]
    by_cases same : name = other <;> by_cases last : place = t.texts.size
    · simp [same, last, number, size]
    · simp [← same, ← t.numbers_iff, new, last, Ne.symm last, number, size]
    · simp [same, last, t.numbers_iff]
    · simp [same, last, t.numbers_iff]⟩

/-- The number of a name, which is added if it is new. -/
def intern (t : Names) (name : String) : Nat × Names :=
  match new : t.numbers[name]? with
  | some number => (number, t)
  | none => (t.size, t.add name new)

def describe (t : Names) : String := "Interner \x7b len: " ++ toString t.size ++ " \x7d"

end Names

end CombLogic
