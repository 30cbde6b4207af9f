import Mathlib.Data.List.Basic
import Mathlib.Data.List.Forall2
import CombLogic.Ascending
import CombLogic.Numbered
import CombLogic.Ordered

/- What the collections hold after each of their operations. -/
namespace CombLogic

theorem forall₂_right {α β : Type} {R : α → β → Prop} {as : List α} {bs : List β}
    (each : List.Forall₂ R as bs) : ∀ b ∈ bs, ∃ a ∈ as, R a b := by
  induction each with
  | nil => simp
  | cons here _ ih =>
    simp only [List.mem_cons, forall_eq_or_imp, exists_eq_or_imp]
    exact ⟨.inl here, fun b later => .inr (ih b later)⟩

theorem forall₂_left {α β : Type} {R : α → β → Prop} {as : List α} {bs : List β}
    (each : List.Forall₂ R as bs) (a : α) (member : a ∈ as) : ∃ b ∈ bs, R a b :=
  forall₂_right each.flip a member

theorem forall₂_eq {α : Type} {R : α → α → Prop} {as bs : List α} (each : List.Forall₂ R as bs)
    (same : ∀ a b, a ∈ as → R a b → a = b) : as = bs := by
  induction each with
  | nil => rfl
  | cons here _ ih =>
    rw [same _ _ (by simp) here, ih fun a b later => same a b (by simp [later])]

theorem map_of_forall₂ {α β γ : Type} {R : α → β → Prop} {f : β → γ} {h : α → γ} {as : List α}
    {bs : List β} (each : List.Forall₂ R as bs) (same : ∀ a b, R a b → f b = h a) :
    bs.map f = as.map h := by
  induction each with
  | nil => rfl
  | cons here _ ih => simp [same _ _ here, ih]

/-- Two lists that stand beside the same one. -/
theorem forall₂_join {α β γ : Type} {r : α → β → Prop} {r' : α → γ → Prop} {as : List α}
    {bs : List β} {cs : List γ} (left : List.Forall₂ r as bs) (right : List.Forall₂ r' as cs) :
    List.Forall₂ (fun b c => ∃ a ∈ as, r a b ∧ r' a c) bs cs := by
  induction left generalizing cs with
  | nil =>
    cases right
    exact .nil
  | cons here _ ih =>
    cases right with
    | cons there later =>
      refine .cons ⟨_, by simp, here, there⟩ ((ih later).imp fun b c ⟨a, member, both⟩ => ?_)
      exact ⟨a, List.mem_cons_of_mem _ member, both⟩

theorem mapM_some {α β : Type} {f : α → Option β} {as : List α} {bs : List β} :
    as.mapM f = some bs ↔ List.Forall₂ (fun a b => f a = some b) as bs := by
  induction as generalizing bs with
  | nil => simp [eq_comm]
  | cons a rest ih =>
    rw [List.mapM_cons]
    constructor
    · intro done
      obtain ⟨b, here, done⟩ := Option.bind_eq_some_iff.mp done
      obtain ⟨bs', later, done⟩ := Option.bind_eq_some_iff.mp done
      cases done
      exact .cons here (ih.mp later)
    · intro each
      cases each with
      | cons here later => rw [here, ih.mpr later]; rfl

section EraseDups

variable {α : Type} [BEq α] [LawfulBEq α] {as bs : List α}

theorem eraseDups_self (nodup : as.Nodup) : as.eraseDups = as := by
  induction as with
  | nil => rfl
  | cons a rest ih =>
    obtain ⟨once, nodup⟩ := List.nodup_cons.mp nodup
    have others : rest.filter (fun b => !b == a) = rest := by
      refine List.filter_eq_self.mpr fun b member => ?_
      simpa using fun same : b = a => once (same ▸ member)
    rw [List.eraseDups_cons, others, ih nodup]

theorem eraseDups_append_of_subset (nodup : as.Nodup) (inside : bs ⊆ as) :
    (as ++ bs).eraseDups = as := by
  have none : bs.removeAll as = [] := by
    simpa [List.removeAll] using fun b (member : b ∈ bs) => inside member
  rw [List.eraseDups_append, none, eraseDups_self nodup]
  simp

theorem nodup_eraseDups (as : List α) : as.eraseDups.Nodup := by
  induction size : as.length using Nat.strongRecOn generalizing as with
  | ind k ih =>
    cases as with
    | nil => simp
    | cons a rest =>
      have shorter := List.length_filter_le (fun b => !b == a) rest
      rw [List.eraseDups_cons]
      refine List.nodup_cons.mpr ⟨by simp, ih _ ?_ _ rfl⟩
      rw [List.length_cons] at size
      omega

theorem eraseDups_eraseDups_append (as bs : List α) :
    (as.eraseDups ++ bs).eraseDups = (as ++ bs).eraseDups := by
  have same : bs.removeAll as.eraseDups = bs.removeAll as := by
    simp [List.removeAll]
  rw [List.eraseDups_append, List.eraseDups_append, same, eraseDups_self (nodup_eraseDups as)]

end EraseDups

namespace OrderedMap

variable {α : Type} (m : OrderedMap α) (key other : Nat) (value : α)

@[simp] theorem get?_empty : (empty : OrderedMap α).get? key = none := by simp [empty, get?]

@[simp] theorem keys_empty : (empty : OrderedMap α).keys = [] := rfl

theorem get?_insert : (m.insert key value).get? other =
    if key = other then some value else m.get? other := by
  unfold insert get?
  split <;> simp only [Std.TreeMap.getElem?_insert, Std.LawfulEqCmp.compare_eq_iff_eq]

theorem contains_iff : m.contains key = true ↔ key ∈ m.keys := by
  rw [contains, Std.TreeMap.contains_iff_mem, keys, ← Array.mem_def, m.mem_order]

theorem get?_isSome : (m.get? key).isSome = true ↔ key ∈ m.keys := by
  rw [← contains_iff, get?, contains, Std.TreeMap.isSome_getElem?_eq_contains]

variable {m key value} in
theorem mem_keys_of_get? (found : m.get? key = some value) : key ∈ m.keys :=
  (m.get?_isSome key).mp (by simp [found])

variable {m key} in
theorem get?_of_mem_keys (listed : key ∈ m.keys) : ∃ value, m.get? key = some value :=
  Option.isSome_iff_exists.mp ((m.get?_isSome key).mpr listed)

theorem get?_eq_none : m.get? key = none ↔ key ∉ m.keys := by
  rw [← get?_isSome, Option.not_isSome_iff_eq_none]

theorem keys_insert : (m.insert key value).keys =
    if key ∈ m.keys then m.keys else m.keys ++ [key] := by
  have held : key ∈ m.values ↔ key ∈ m.keys := by rw [← m.mem_order, keys, Array.mem_def]
  unfold insert
  split <;> simp_all [keys]

theorem mem_entries : (key, value) ∈ m.entries ↔ m.get? key = some value := by
  simp only [entries, List.mem_filterMap, Option.map_eq_some_iff, Prod.mk.injEq]
  constructor
  · rintro ⟨k, -, v, found, rfl, rfl⟩
    exact found
  · intro found
    exact ⟨key, mem_keys_of_get? found, value, found, rfl, rfl⟩

theorem nodup_keys : m.keys.Nodup := m.nodup_order

end OrderedMap

namespace OrderedSet

theorem keys_add (s : OrderedSet) (id : Nat) :
    (s.add id).keys = if id ∈ s.keys then s.keys else s.keys ++ [id] := by
  unfold add
  split
  · rename_i here
    rw [if_pos ((s.contains_iff id).mp here)]
  · exact s.keys_insert id ()

theorem mem_add (s : OrderedSet) (id other : Nat) :
    other ∈ (s.add id).keys ↔ other ∈ s.keys ∨ other = id := by
  rw [keys_add]
  split
  · constructor
    · exact .inl
    · rintro (here | rfl) <;> assumption
  · simp

theorem mem_addAll (s : OrderedSet) (ids : List Nat) (other : Nat) :
    other ∈ (s.addAll ids).keys ↔ other ∈ s.keys ∨ other ∈ ids := by
  induction ids generalizing s with
  | nil => simp [addAll]
  | cons id rest ih =>
    have step := ih (s.add id)
    simp only [addAll, List.foldl_cons] at step ⊢
    rw [step, mem_add, List.mem_cons, or_assoc]

/-- A list of numbers without those that came before. -/
theorem keys_addAll (s : OrderedSet) (ids : List Nat) :
    (s.addAll ids).keys = s.keys ++ (ids.removeAll s.keys).eraseDups := by
  induction ids generalizing s with
  | nil => simp [addAll]
  | cons id rest ih =>
    have step := ih (s.add id)
    simp only [addAll, List.foldl_cons] at step ⊢
    rw [step, keys_add]
    by_cases here : id ∈ s.keys
    · simp [here, List.removeAll]
    · simp only [here, ↓reduceIte, List.removeAll, List.filter_cons, List.elem_eq_mem,
        decide_false, Bool.not_false, List.eraseDups_cons, List.append_assoc, List.filter_filter]
      simp [Bool.and_comm, beq_eq_decide]

theorem keys_ofList (ids : List Nat) : (ofList ids).keys = ids.eraseDups := by
  rw [ofList, keys_addAll]
  simp [empty, List.removeAll]

end OrderedSet

namespace IdSet

theorem mem_add (s : IdSet) (id other : Nat) : other ∈ s.add id ↔ other ∈ s ∨ other = id := by
  unfold add
  split
  · rename_i here
    have here : id ∈ s := Std.TreeSet.contains_iff_mem.mp here
    constructor
    · exact .inl
    · rintro (known | rfl) <;> assumption
  · rw [Std.TreeSet.mem_insert, Std.LawfulEqCmp.compare_eq_iff_eq, or_comm, eq_comm]

theorem mem_addAll (s : IdSet) (ids : List Nat) (other : Nat) :
    other ∈ s.addAll ids ↔ other ∈ s ∨ other ∈ ids := by
  induction ids generalizing s with
  | nil => simp [addAll]
  | cons id rest ih =>
    have step := ih (s.add id)
    rw [addAll] at step ⊢
    rw [List.foldl_cons, step, mem_add, List.mem_cons, or_assoc]

theorem mem_toList_ofList (ids : List Nat) (id : Nat) : id ∈ (ofList ids).toList ↔ id ∈ ids := by
  rw [Std.TreeSet.mem_toList, ofList, mem_addAll]
  simp

end IdSet

namespace Ascending

@[simp] theorem toList_empty : empty.toList = [] := rfl

theorem mem_insert (s : Ascending) (id other : Nat) :
    other ∈ (s.insert id).toList ↔ other ∈ s.toList ∨ other = id := by
  unfold insert toList
  split
  · simp [push]
  · split
    · rename_i here
      have listed : id ∈ s.ids.toList := by
        obtain ⟨before, same⟩ := Array.back?_eq_some_iff.1 here
        simp [same]
      constructor
      · exact .inl
      · rintro (known | rfl) <;> assumption
    · simp only [place, Array.toList_append, Array.toList_push, Array.toList_filter,
        List.mem_append, List.mem_filter, List.mem_singleton, decide_eq_true_eq]
      constructor
      · rintro ((⟨known, -⟩ | same) | ⟨known, -⟩)
        · exact .inl known
        · exact .inr same
        · exact .inl known
      · rintro (known | same)
        · rcases Nat.lt_trichotomy other id with low | rfl | high
          · exact .inl (.inl ⟨known, low⟩)
          · exact .inl (.inr rfl)
          · exact .inr ⟨known, high⟩
        · exact .inl (.inr same)

end Ascending

namespace Numbered

variable {α : Type} (a : Numbered α) (id other : Nat)

@[simp] theorem get?_none_empty : (empty : Numbered α).get? id = none := by simp [empty, get?]

theorem get?_add (entry : α) :
    (a.add entry).2.get? other = if other = a.size then some entry else a.get? other := by
  exact Array.getElem?_push

theorem get?_modify (f : α → α) :
    (a.modify id f).get? other = if id = other then (a.get? other).map f else a.get? other := by
  simp [modify, get?, Array.getElem?_modify]

@[simp] theorem size_modify (f : α → α) : (a.modify id f).size = a.size := by simp [modify, size]

@[simp] theorem size_add (entry : α) : (a.add entry).2.size = a.size + 1 := by simp [add, size]

theorem get?_isSome : (a.get? id).isSome = true ↔ id < a.size := by
  simp [get?, size]

theorem lt_size {entry : α} (found : a.get? id = some entry) : id < a.size :=
  (a.get?_isSome id).mp (by simp [found])

theorem get?_outside (outside : ¬id < a.size) : a.get? id = none := by
  simpa [get?, size] using outside

end Numbered

namespace Names

theorem text?_intern (t : Names) (name : String) :
    (t.intern name).2.text? (t.intern name).1 = some name := by
  unfold intern
  split
  · rename_i number listed
    exact t.numbers_iff.mp listed
  · simp [add, text?, size]

/-- A number keeps its name. -/
theorem text?_later (t : Names) (name : String) {number : Nat} {text : String}
    (listed : t.text? number = some text) : (t.intern name).2.text? number = some text := by
  unfold intern
  split
  · exact listed
  · have before : number ≠ t.texts.size := by
      rintro rfl
      simp [text?] at listed
    simpa [add, text?, Array.getElem?_push, before] using listed

end Names

end CombLogic
