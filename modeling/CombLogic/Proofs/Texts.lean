import CombLogic.Proofs.Collections
import CombLogic.Proofs.Packing

/- Pattern text. A text is read if and only if it has no characters but those of bits and underscores,
   and what was read is printed as the same text without underscores and in small letters. Every
   stored value is read back from its text, as the same words. -/
namespace CombLogic

namespace Bit

variable {b : Bit} {c : Char}

@[simp] theorem ofChar?_toChar (b : Bit) : ofChar? b.toChar = some b := by
  cases b <;> rfl

theorem toChar_ne_underscore (b : Bit) : b.toChar ≠ '_' := by
  cases b <;> decide

/-- A bit is printed as the small form of whatever it was read from. -/
theorem toChar_of_ofChar? (read : ofChar? c = some b) : b.toChar = c.toLower := by
  unfold ofChar? at read
  split at read <;> cases read <;> rfl

theorem ofChar?_isSome : (ofChar? c).isSome ↔ c ∈ ['0', '1', 'x', 'X', 'z', 'Z'] := by
  constructor
  · intro read
    unfold ofChar? at read
    split at read <;> simp at read ⊢
  · intro listed
    simp only [List.mem_cons, List.not_mem_nil, or_false] at listed
    obtain rfl | rfl | rfl | rfl | rfl | rfl := listed <;> rfl

end Bit

theorem mapM_isSome {α β : Type} {f : α → Option β} {as : List α} :
    (as.mapM f).isSome ↔ ∀ a ∈ as, (f a).isSome := by
  induction as with
  | nil => simp
  | cons a rest ih =>
    rw [List.mapM_cons, List.forall_mem_cons, ← ih]
    cases f a <;> cases rest.mapM f <;> simp

namespace Value

/-- The characters of a pattern: six that stand for bits, and the separator. -/
def patternAlphabet : List Char := ['0', '1', 'x', 'X', 'z', 'Z', '_']

/-- The characters of a text that stand for bits, the highest first. -/
def digits (s : String) : List Char := s.toList.filter (· != '_')

variable {s : String} {v : Value}

theorem mem_digits {c : Char} : c ∈ digits s ↔ c ∈ s.toList ∧ c ≠ '_' := by
  simp [digits]

theorem ofPattern_ok : ofPattern s = .ok v ↔
    List.Forall₂ (fun c b => Bit.ofChar? c = some b) (digits s).reverse v.bits := by
  have chars : patternChars s.toList = (digits s).reverse.mapM Bit.ofChar? := rfl
  obtain ⟨bits⟩ := v
  rw [← mapM_some, ← chars, ofPattern]
  cases patternChars s.toList <;> simp

theorem ofPattern_error {e : ValueError} (failed : ofPattern s = .error e) :
    e = .invalidPattern s := by
  unfold ofPattern at failed
  split at failed
  · cases failed
  · exact (Except.error.inj failed).symm

/-- Every character has to be one of the alphabet; a text without any bits is the empty value. -/
theorem ofPattern_ok_iff : (∃ v, ofPattern s = .ok v) ↔ ∀ c ∈ s.toList, c ∈ patternAlphabet := by
  have read : (∃ v, ofPattern s = .ok v) ↔ (patternChars s.toList).isSome := by
    unfold ofPattern
    cases patternChars s.toList <;> simp
  rw [read, patternChars, mapM_isSome]
  refine ⟨fun each c member => ?_, fun each c member => ?_⟩
  · by_cases separator : c = '_'
    · simp [patternAlphabet, separator]
    · have bit := Bit.ofChar?_isSome.mp (each c (by simp [member, separator]))
      exact List.mem_append_left ['_'] bit
  · obtain ⟨member, bit⟩ := mem_digits.mp (List.mem_reverse.mp member)
    have listed := each c member
    exact Bit.ofChar?_isSome.mpr ((List.mem_append.mp listed).resolve_right (by simpa using bit))

theorem width_ofPattern (read : ofPattern s = .ok v) : v.width = (digits s).length := by
  rw [width, ← (ofPattern_ok.mp read).length_eq, List.length_reverse]

theorem chars_ofPattern (read : ofPattern s = .ok v) : v.chars = (digits s).map Char.toLower := by
  have small := (ofPattern_ok.mp read).imp fun _ _ => Bit.toChar_of_ofChar?
  have same : (digits s).reverse.map Char.toLower = v.bits.map Bit.toChar := by
    rw [← List.forall₂_eq_eq_eq, List.forall₂_map_left_iff, List.forall₂_map_right_iff]
    exact small.imp fun _ _ => Eq.symm
  rw [chars, List.map_reverse, ← same, List.map_reverse, List.reverse_reverse]

theorem digits_text (v : Value) : digits v.text = v.chars := by
  rw [digits, text, String.toList_ofList, List.filter_eq_self]
  intro c printed
  obtain ⟨b, -, rfl⟩ := List.mem_map.mp printed
  exact bne_iff_ne.mpr b.toChar_ne_underscore

/-- What is printed is read back. -/
theorem ofPattern_text (v : Value) : ofPattern v.text = .ok v := by
  rw [ofPattern_ok, digits_text, chars, ← List.map_reverse, List.reverse_reverse,
    List.forall₂_map_left_iff, List.forall₂_same]
  exact fun b _ => b.ofChar?_toChar

end Value

namespace Packed

/-- Reads a text and stores its bits, one after the other. -/
def ofPattern (s : String) : Except ValueError Packed := (Value.ofPattern s).map ofValue

/-- Loads the bits one after the other, from the highest place down. -/
def text (p : Packed) : String :=
  String.ofList ((List.range p.width).reverse.map fun i => (p.get i).toChar)

variable {s : String} {p : Packed}

theorem text_ofValue (v : Value) : (ofValue v).text = v.text := by
  have loaded : (List.range (ofValue v).width).map (ofValue v).get = v.bits :=
    congrArg Value.bits (contents_ofValue v)
  rw [text, ← Function.comp_def Bit.toChar, ← List.map_map, List.map_reverse, loaded]
  rfl

theorem ofPattern_ok (read : ofPattern s = .ok p) :
    ∃ v, Value.ofPattern s = .ok v ∧ p = ofValue v := by
  unfold ofPattern at read
  cases made : Value.ofPattern s with
  | error e => rw [made] at read; cases read
  | ok v =>
    rw [made] at read
    exact ⟨v, rfl, (Except.ok.inj read).symm⟩

theorem ofPattern_error {e : ValueError} (failed : ofPattern s = .error e) :
    e = .invalidPattern s := by
  unfold ofPattern at failed
  cases made : Value.ofPattern s with
  | error e' =>
    rw [made] at failed
    exact (Except.error.inj failed) ▸ Value.ofPattern_error made
  | ok v => rw [made] at failed; cases failed

/-- Which texts are read, what is read from them and how it is printed, what the error says, and that
    reading undoes printing on everything that constructors and operations make. -/
theorem pattern_inverse :
    (∀ s, (∃ p, ofPattern s = .ok p) ↔ ∀ c ∈ s.toList, c ∈ Value.patternAlphabet) ∧
    (∀ s p, ofPattern s = .ok p →
      p.width = (s.toList.filter (· != '_')).length ∧
      p.text = String.ofList ((s.toList.filter (· != '_')).map Char.toLower)) ∧
    (∀ s e, ofPattern s = .error e → e = .invalidPattern s) ∧
    (∀ p : Packed, p.Produced → ofPattern p.text = .ok p) := by
  refine ⟨fun s => ?_, fun s p read => ?_, fun s e failed => ofPattern_error failed, ?_⟩
  · rw [← Value.ofPattern_ok_iff]
    constructor
    · rintro ⟨p, read⟩
      obtain ⟨v, made, -⟩ := ofPattern_ok read
      exact ⟨v, made⟩
    · rintro ⟨v, made⟩
      exact ⟨ofValue v, by rw [ofPattern, made]; rfl⟩
  · obtain ⟨v, made, rfl⟩ := ofPattern_ok read
    rw [width_ofValue, text_ofValue, Value.text, Value.chars_ofPattern made,
      Value.width_ofPattern made]
    exact ⟨rfl, rfl⟩
  · intro p produced
    obtain ⟨v, rfl⟩ := produced.of_value
    rw [text_ofValue, ofPattern, Value.ofPattern_text]
    rfl

/-- A text of 34 bits in two words, with a capital letter next to the word boundary. -/
theorem capital_small :
    ∃ p, ofPattern "zX_10100110_00000000_11111111_xxxx1101" = .ok p ∧ p.width = 34 ∧
      p.text = "zx101001100000000011111111xxxx1101" ∧ ofPattern p.text = .ok p := by
  obtain ⟨accepted, printed, -, inverse⟩ := pattern_inverse
  obtain ⟨p, read⟩ :=
    (accepted "zX_10100110_00000000_11111111_xxxx1101").mpr (by simp [Value.patternAlphabet])
  obtain ⟨width, text⟩ := printed _ p read
  have produced : p.Produced := ⟨.pattern _, read⟩
  exact ⟨p, read, width.trans (by decide +kernel), text.trans (by decide +kernel),
    inverse p produced⟩

end Packed

end CombLogic
