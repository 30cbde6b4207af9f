import CombLogic.Proofs.Packed.Cells

/- Stores one after the other. Every stored value starts with zeros and takes stores below its width,
   so it is canonical, and each of its bits is the one that was stored there last. -/
namespace CombLogic.Packed

variable {p : Packed} {i : Nat}

def storeAll (p : Packed) (stores : List (Nat × Bit)) : Packed :=
  stores.foldl (fun p store => p.set store.1 store.2) p

/-- The bit that was stored last in a place, if there was one. -/
def lastStored (stores : List (Nat × Bit)) (i : Nat) : Option Bit :=
  (stores.reverse.find? (·.1 == i)).map Prod.snd

theorem lastStored_cons (store : Nat × Bit) (rest : List (Nat × Bit)) (i : Nat) :
    lastStored (store :: rest) i =
      (lastStored rest i).or (if store.1 = i then some store.2 else none) := by
  rw [lastStored, List.reverse_cons, List.find?_append, Option.map_or, lastStored]
  congr 1
  by_cases here : store.1 = i <;> simp [here]

@[simp] theorem width_storeAll (p : Packed) (stores : List (Nat × Bit)) :
    (p.storeAll stores).width = p.width := by
  induction stores generalizing p with
  | nil => rfl
  | cons store rest ih => exact ih (p.set store.1 store.2)

theorem canonical_storeAll (canonical : p.Canonical) (stores : List (Nat × Bit))
    (inside : ∀ store ∈ stores, store.1 < p.width) : (p.storeAll stores).Canonical := by
  induction stores generalizing p with
  | nil => exact canonical
  | cons store rest ih =>
    exact ih (canonical_set canonical (inside store (by simp)) store.2)
      fun other later => inside other (by simp [later])

/-- A place holds what was stored there last, and what it held before if nothing was. -/
theorem get?_storeAll (canonical : p.Canonical) (stores : List (Nat × Bit))
    (inside : ∀ store ∈ stores, store.1 < p.width) (i : Nat) :
    (p.storeAll stores).get? i = (lastStored stores i).or (p.get? i) := by
  induction stores generalizing p with
  | nil => rfl
  | cons store rest ih =>
    have here := inside store (by simp)
    have after : (p.set store.1 store.2).Canonical := canonical_set canonical here store.2
    have later := ih after fun other member => inside other (by simp [member])
    rw [lastStored_cons, Option.or_assoc]
    refine later.trans (congrArg _ ?_)
    by_cases same : store.1 = i
    · subst same
      rw [get?_set_self (canonical.stored here), if_pos rfl, Option.some_or]
    · rw [get?_set_other (Ne.symm same), if_neg same, Option.none_or]

section Zeros

/- One store of `f place` at each of some places of an otherwise zero value. -/

variable {width : Nat} {places : List Nat} (f : Nat → Bit)

theorem lastStored_places (places : List Nat) (i : Nat) :
    lastStored (places.map fun place => (place, f place)) i =
      if i ∈ places then some (f i) else none := by
  induction places with
  | nil => rfl
  | cons place rest ih =>
    rw [List.map_cons, lastStored_cons, ih]
    by_cases later : i ∈ rest
    · simp [later]
    · by_cases here : place = i
      · subst here
        simp [later]
      · simp [later, here, Ne.symm here]

def storedAt (width : Nat) (places : List Nat) (f : Nat → Bit) : Packed :=
  (zeros width).storeAll (places.map fun place => (place, f place))

@[simp] theorem width_storedAt : (storedAt width places f).width = width :=
  width_storeAll _ _

theorem canonical_storedAt (inside : ∀ place ∈ places, place < width) :
    (storedAt width places f).Canonical :=
  canonical_storeAll (canonical_zeros width) _ (by simpa using inside)

theorem get?_storedAt (inside : ∀ place ∈ places, place < width) (bound : i < width) :
    (storedAt width places f).get? i = some (if i ∈ places then f i else .zero) := by
  have canonical := canonical_zeros width
  have stored : i / 32 < wordsFor width := canonical.size ▸ canonical.stored (i := i) bound
  rw [storedAt, get?_storeAll canonical _ (by simpa using inside), lastStored_places,
    get?_zeros stored]
  split <;> rfl

end Zeros

section Values

/- The stored form of a value: its bits stored from the lowest place up. -/

variable {v : Value}

theorem setFrom_eq (p : Packed) (i : Nat) (bits : List Bit) :
    p.setFrom i bits = p.storeAll ((bits.zipIdx i).map Prod.swap) := by
  induction bits generalizing p i with
  | nil => rfl
  | cons b rest ih => exact ih (p.set i b) (i + 1)

theorem lastStored_zipIdx (bits : List Bit) (first i : Nat) :
    lastStored ((bits.zipIdx first).map Prod.swap) i =
      if first ≤ i then bits[i - first]? else none := by
  induction bits generalizing first with
  | nil => simp [lastStored]
  | cons b rest ih =>
    rw [List.zipIdx_cons, List.map_cons, lastStored_cons, ih]
    rcases Nat.lt_trichotomy first i with below | rfl | above
    · obtain ⟨k, rfl⟩ : ∃ k, i = first + 1 + k := ⟨i - (first + 1), by omega⟩
      have skip : first + 1 + k - first = k + 1 := by omega
      simp [skip, show first ≠ first + 1 + k by omega, show first ≤ first + 1 + k by omega]
    · simp [show ¬first + 1 ≤ first by omega]
    · simp [show ¬first + 1 ≤ i by omega, show ¬first ≤ i by omega, show first ≠ i by omega]

theorem places_zipIdx (v : Value) :
    ∀ store ∈ (v.bits.zipIdx 0).map Prod.swap, store.1 < (zeros v.width).width := by
  intro store member
  obtain ⟨⟨b, i⟩, here, rfl⟩ := List.mem_map.mp member
  simpa [Value.width] using List.snd_lt_of_mem_zipIdx here

@[simp] theorem width_ofValue (v : Value) : (ofValue v).width = v.width := by
  rw [ofValue, setFrom_eq, width_storeAll]
  rfl

theorem canonical_ofValue (v : Value) : (ofValue v).Canonical := by
  rw [ofValue, setFrom_eq]
  exact canonical_storeAll (canonical_zeros _) _ (places_zipIdx v)

theorem get?_ofValue (inside : i < v.width) : (ofValue v).get? i = v.bits[i]? := by
  have present : v.bits[i]? = some v.bits[i] := List.getElem?_eq_getElem inside
  rw [ofValue, setFrom_eq, get?_storeAll (canonical_zeros _) _ (places_zipIdx v),
    lastStored_zipIdx, if_pos (Nat.zero_le i), Nat.sub_zero, present, Option.some_or]

/-- A canonical store with the bits of a value is its stored form. -/
theorem eq_ofValue (canonical : p.Canonical) (width : p.width = v.width)
    (bits : ∀ i < v.width, p.get? i = v.bits[i]?) : p = ofValue v := by
  refine canonical_ext canonical (canonical_ofValue v) (width.trans (width_ofValue v).symm) ?_
  intro i inside
  rw [width] at inside
  rw [get?_ofValue inside, bits i inside]

end Values

end CombLogic.Packed
