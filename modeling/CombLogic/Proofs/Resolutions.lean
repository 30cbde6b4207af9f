import Mathlib.Logic.Relation
import CombLogic.Proofs.Block.Total
import CombLogic.Proofs.Calls

/- Resolutions one after the other, with one memo. Whatever was resolved so far, all nodes of all
   expressions go through one map: what is read goes to what is bound, a node that reads nothing goes to
   itself, and no two nodes go to one node that was built for them. -/
namespace CombLogic

open Expr

/-- A memo, the next number, and the expressions resolved so far, each with its result. -/
structure Resolver where
  memo : ResolveMemo
  next : Nat
  done : List (Expr × Expr)

namespace Resolver

def start (next : Nat) : Resolver := ⟨{}, next, []⟩

/-- The expressions that are there: what is bound, what was resolved, and the results. -/
def around (b : Binding) (s : Resolver) : List Expr :=
  b.entries.map Prod.snd ++ (s.done.map Prod.fst ++ s.done.map Prod.snd)

def resolve (g : Netlist) (b : Binding) (s : Resolver) (e : Expr) : Except NetlistError Resolver :=
  (e.resolve g b s.memo s.next).map fun r => ⟨r.1.2, r.2, (e, r.1.1) :: s.done⟩

inductive Step (g : Netlist) (b : Binding) : Resolver → Resolver → Prop
  /-- Other nodes are numbered. -/
  | number {s : Resolver} {next : Nat} (later : s.next ≤ next) : Step g b s { s with next := next }
  | resolve {s s' : Resolver} {e : Expr} (numbered : WellNumbered (e :: s.around b) s.next)
    (run : s.resolve g b e = .ok s') : Step g b s s'

/-- States of a resolver, from its making over expressions that are well numbered. -/
def Reached (g : Netlist) (b : Binding) (s : Resolver) : Prop :=
  ∃ next, WellNumbered ((start next).around b) next ∧
    Relation.ReflTransGen (Step g b) (start next) s

/-- One substitution through a map over nodes, for all expressions that were resolved. -/
structure Substituted (g : Netlist) (b : Binding) (s : Resolver) (image : Expr → Expr) : Prop where
  /-- Where an expression has a node, its result has the image of the node. -/
  places : ∀ p ∈ s.done, ∀ path a, p.1.at? path = some a → p.2.at? path = some (image a)
  becomes : ∀ p ∈ s.done, ∀ a, p.1.Contains a → Becomes g b image a (image a)
  unread : ∀ p ∈ s.done, ∀ a, p.1.Contains a →
    (∀ node target, ¬a.Contains (.read node target)) → image a = a
  /-- Nodes for which nodes are built have images apart, in whichever expressions they occur. -/
  apart : ∀ p ∈ s.done, ∀ q ∈ s.done, ∀ a c, p.1.Contains a → q.1.Contains c →
    Made b image a → Made b image c → image a = image c → a = c
  /-- The result is the substitution of what is bound, where no entry is substituted again. -/
  form : ∀ p ∈ s.done, p.2.shape = p.1.subst (g.held b)
  reads : ∀ p ∈ s.done, ∀ node target, p.2.Contains (.read node target) →
    p.1.Brings g b (.read node target)
  /-- All of it is one well-numbered graph, in which resolution can go on. -/
  numbered : WellNumbered (s.around b) s.next
  total : ∀ e, WellNumbered (e :: s.around b) s.next →
    ((∃ s', s.resolve g b e = .ok s') ↔ e.Readable g)

/-- The memo is right for the nodes of all expressions that were resolved. -/
structure Kept (g : Netlist) (b : Binding) (s : Resolver) : Prop where
  numbered : WellNumbered (s.around b) s.next
  memoized : ∃ K, Memoized g b (nodesBelow (s.done.map Prod.fst)) K s.memo
  found : ∀ p ∈ s.done, s.memo.find? p.1 = some p.2

section

variable {g : Netlist} {b : Binding} {s s' : Resolver} {e r : Expr} {p : Expr × Expr}

theorem mem_around {f : Expr} : f ∈ s.around b ↔
    (∃ leaf, b.get? leaf = some f) ∨ ∃ p ∈ s.done, p.1 = f ∨ p.2 = f := by
  simp only [around, List.mem_append, List.mem_map, Prod.exists, OrderedMap.mem_entries]
  grind

/-- What is resolved and was resolved is a well-shared part of what is there. -/
theorem inputs_sharing (es : List Expr) {next : Nat} (numbered : WellNumbered (es ++ s.around b) next) :
    Sharing (nodesBelow (es ++ s.done.map Prod.fst)) next ∧
      nodesBelow (es ++ s.done.map Prod.fst) ⊆ nodesBelow (es ++ s.around b) := by
  have sharing := wellNumbered_sharing numbered
  have members : ∀ f ∈ es ++ s.done.map Prod.fst, f ∈ nodesBelow (es ++ s.around b) := by
    intro f listed
    refine nodesBelow_self ?_
    rcases List.mem_append.mp listed with listed | listed
    · exact List.mem_append_left _ listed
    · obtain ⟨p, given, rfl⟩ := List.mem_map.mp listed
      exact List.mem_append_right _ (mem_around.mpr (.inr ⟨p, given, .inl rfl⟩))
  exact ⟨wellNumbered_sharing (sharing_wellNumbered sharing members), nodesBelow_sub sharing members⟩

theorem kept_known (kept : Kept g b s) (listed : p ∈ s.done) {a : Expr} (inside : p.1.Contains a) :
    a ∈ nodesBelow (s.done.map Prod.fst) ∧ s.memo.find? a = some (s.memo.image a) := by
  obtain ⟨K, memoized⟩ := kept.memoized
  have sharing := (inputs_sharing [] kept.numbered).1
  have member : p.1 ∈ nodesBelow (s.done.map Prod.fst) := nodesBelow_self (List.mem_map_of_mem listed)
  have known := known_below memoized sharing inside member
    (Option.isSome_of_eq_some (kept.found p listed))
  obtain ⟨r, found⟩ := Option.isSome_iff_exists.mp known
  exact ⟨sharing.contained member inside, image_found found ▸ found⟩

theorem kept_imaged (kept : Kept g b s) (listed : p ∈ s.done) :
    p.1.Imaged g b s.memo.image ∧ s.memo.image p.1 = p.2 := by
  obtain ⟨K, memoized⟩ := kept.memoized
  obtain ⟨member, -⟩ := kept_known kept listed (.root p.1)
  have found := kept.found p listed
  exact ⟨imaged_known memoized (inputs_sharing [] kept.numbered).1 member
    (Option.isSome_of_eq_some found), image_found found⟩

/-- What the memo holds for a node below an expression is below the result. -/
theorem kept_inside (kept : Kept g b s) {a : Expr} (below : a ∈ nodesBelow (s.done.map Prod.fst))
    (found : s.memo.find? a = some r) : ∃ p ∈ s.done, p.2.Contains r := by
  obtain ⟨e, listed, inside⟩ := below
  obtain ⟨p, given, rfl⟩ := List.mem_map.mp listed
  obtain ⟨imaged, same⟩ := kept_imaged kept given
  exact ⟨p, given, same ▸ image_found found ▸ imaged_contains imaged inside⟩

theorem kept_start {next : Nat} (numbered : WellNumbered ((start next).around b) next) :
    Kept g b (start next) :=
  ⟨numbered, ⟨∅, memoized_empty⟩, by simp [start]⟩

theorem kept_number {next : Nat} (kept : Kept g b s) (later : s.next ≤ next) :
    Kept g b { s with next := next } := by
  have sharing := (wellNumbered_sharing kept.numbered).later later
  exact ⟨sharing_wellNumbered sharing fun _ => nodesBelow_self, kept.memoized, kept.found⟩

theorem kept_resolve (kept : Kept g b s) (numbered : WellNumbered (e :: s.around b) s.next)
    (run : s.resolve g b e = .ok s') : Kept g b s' := by
  obtain ⟨⟨⟨r, memo⟩, next⟩, ran, rfl⟩ := map_ok run
  obtain ⟨inputs, sub⟩ := inputs_sharing [e] numbered
  have there : ∀ f ∈ e :: s.around b, f ∈ nodesBelow (e :: s.around b) := fun _ => nodesBelow_self
  -- the memo, moved to what is there now
  obtain ⟨K, memoized⟩ := kept.memoized
  have memoized : Memoized g b (nodesBelow ([e] ++ s.done.map Prod.fst)) (nodesBelow (e :: s.around b))
      s.memo := by
    refine memoized_move memoized ?_ inputs fun a below f found => ?_
    · rintro a ⟨f, listed, inside⟩
      exact ⟨f, List.mem_cons_of_mem _ listed, inside⟩
    · obtain ⟨p, listed, inside⟩ := kept_inside kept below found
      exact ⟨p.2, List.mem_cons_of_mem _ (mem_around.mpr (.inr ⟨p, listed, .inr rfl⟩)), inside⟩
  have within : b.Within (nodesBelow (e :: s.around b)) := fun leaf f bound =>
    there f (List.mem_cons_of_mem _ (mem_around.mpr (.inl ⟨leaf, bound⟩)))
  obtain ⟨L, grown, shared, memoized', grows, found, inside⟩ := resolve_found inputs e
    (nodesBelow_self List.mem_cons_self) _ (Nat.lt_succ_self _) _ s.memo sub within memoized
    _ subset_rfl s.next (r, memo) next (wellNumbered_sharing numbered) ran
  refine ⟨sharing_wellNumbered shared fun f listed => ?_, ⟨L, memoized'⟩, ?_⟩
  · rcases mem_around.mp listed with ⟨leaf, bound⟩ | ⟨p, listed, same⟩
    · exact grown (within leaf f bound)
    · rcases List.mem_cons.mp listed with rfl | listed
      · rcases same with rfl | rfl
        · exact grown (there _ List.mem_cons_self)
        · exact inside
      · exact grown (there f (List.mem_cons_of_mem _ (mem_around.mpr (.inr ⟨p, listed, same⟩))))
  · intro p listed
    rcases List.mem_cons.mp listed with rfl | listed
    · exact found
    · exact grows_find grows (kept.found p listed)

theorem kept_step (kept : Kept g b s) (step : Step g b s s') : Kept g b s' := by
  cases step with
  | number later => exact kept_number kept later
  | resolve numbered run => exact kept_resolve kept numbered run

theorem reached_kept (reached : Reached g b s) : Kept g b s := by
  obtain ⟨next, numbered, steps⟩ := reached
  induction steps with
  | refl => exact kept_start numbered
  | tail _ step ih => exact kept_step ih step

/-- In every state resolution answers for exactly what can be read. -/
theorem kept_total (kept : Kept g b s) (numbered : WellNumbered (e :: s.around b) s.next) :
    (∃ s', s.resolve g b e = .ok s') ↔ e.Readable g := by
  constructor
  · rintro ⟨s', run⟩
    obtain ⟨⟨⟨r, memo⟩, next⟩, -, rfl⟩ := map_ok run
    exact imaged_readable (kept_imaged (kept_resolve kept numbered run) List.mem_cons_self).1
  · intro readable
    obtain ⟨r, run⟩ := resolve_completes (b := b) e readable s.memo s.next
    exact ⟨_, by rw [resolve, run]; rfl⟩

theorem kept_apart (kept : Kept g b s) {q : Expr × Expr} (first : p ∈ s.done) (second : q ∈ s.done)
    {a c : Expr} (left : p.1.Contains a) (right : q.1.Contains c) (made : Made b s.memo.image a)
    (made' : Made b s.memo.image c) (same : s.memo.image a = s.memo.image c) : a = c := by
  obtain ⟨K, memoized⟩ := kept.memoized
  obtain ⟨inside, found⟩ := kept_known kept first left
  obtain ⟨inside', found'⟩ := kept_known kept second right
  exact memoized.apart a inside c inside' made made' _ found (same ▸ found')

end

end Resolver

open Resolver

/-- Whatever is resolved with one memo, in any order: one map over nodes substitutes what is bound for
    what is read, once, and keeps shared what is shared. -/
theorem resolution_substitutes {g : Netlist} {b : Binding} {s : Resolver} (reached : Reached g b s) :
    ∃ image, Substituted g b s image := by
  have kept := reached_kept reached
  refine ⟨s.memo.image, ?_⟩
  exact {
    places := fun p listed path a there => by
      obtain ⟨imaged, same⟩ := kept_imaged kept listed
      exact same ▸ imaged_at imaged there
    becomes := fun p listed => (kept_imaged kept listed).1
    unread := fun p listed a inside =>
      imaged_unread fun n within => (kept_imaged kept listed).1 n (contains_trans inside within)
    apart := fun p first q second a c => kept_apart kept first second
    form := fun p listed => by
      obtain ⟨imaged, same⟩ := kept_imaged kept listed
      exact same ▸ imaged_shape imaged
    reads := fun p listed node target inside => by
      obtain ⟨imaged, same⟩ := kept_imaged kept listed
      exact imaged_reads imaged (same ▸ inside)
    numbered := kept.numbered
    total := fun e => kept_total kept }

/-- A sum that two expressions share, of a leaf and of the bundle that the leaf is in. The entry of the
    leaf comes in as it is, read and all; the sum is built once; and what reads nothing stays. -/
theorem shared_sum_substituted : ∃ (g : Netlist) (b : Binding) (s : Resolver) (image : Expr → Expr),
    Reached g b s ∧ Substituted g b s image ∧
      ∃ entry sum kept : Expr, b.get? 0 = some entry ∧ entry.Contains (.read 0 (.leaf 1)) ∧
        image sum = .binary 12 .add entry (.concat 11 [.signal 10 1, entry]) ∧
        image kept = kept ∧ s.done.map Prod.snd =
          [.mux 15 (.signal 14 1) (image sum) kept, .concat 13 [image sum, image sum, kept]] := by
  let g := ((World.empty 10).after [.leaf "a" (.zeros 1), .leaf "b" (.zeros 1),
    .bundle "s" [.leaf 0, .leaf 1]]).netlist
  let entry : Expr := .unary 1 .not (.read 0 (.leaf 1))
  let b : Binding := OrderedMap.empty.insert 0 entry
  let sum : Expr := .binary 4 .add (.read 2 (.leaf 0)) (.read 3 (.bundle 0))
  let kept : Expr := .unary 6 .not (.signal 5 1)
  let wide : Expr := .concat 7 [sum, sum, kept]
  let choice : Expr := .mux 9 (.read 8 (.leaf 1)) sum kept
  let first := ((start 10).resolve g b wide).toOption.get (by decide +kernel)
  let s := (first.resolve g b choice).toOption.get (by decide +kernel)
  have fresh : WellNumbered ((start 10).around b) 10 := by decide +kernel
  have numbered : WellNumbered (wide :: (start 10).around b) (start 10).next := by decide +kernel
  have numbered' : WellNumbered (choice :: first.around b) first.next := by decide +kernel
  have reached : Reached g b s :=
    ⟨10, fresh, .tail (.single (.resolve numbered (ok_get _))) (.resolve numbered' (ok_get _))⟩
  obtain ⟨image, substituted⟩ := resolution_substitutes reached
  let built : Expr := .binary 12 .add entry (.concat 11 [.signal 10 1, entry])
  have results : s.done = [(choice, .mux 15 (.signal 14 1) built kept),
    (wide, .concat 13 [built, built, kept])] := by decide +kernel
  have place := substituted.places (wide, .concat 13 [built, built, kept]) (by simp [results])
  have there : built = image sum := Option.some.inj (place [0] sum rfl)
  have stays : kept = image kept := Option.some.inj (place [2] kept rfl)
  refine ⟨g, b, s, image, reached, substituted, entry, sum, kept, by decide +kernel, ?_, there.symm,
    stays.symm, ?_⟩
  · exact .within (by simp [entry, children]) (.root _)
  · rw [results, ← there]
    rfl

end CombLogic
