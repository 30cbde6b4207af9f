import CombLogic.Proofs.Block.Images

/- The memo of a resolution. It is right at any time: what it holds for a node is what becomes of the
   node where its operands become what the memo holds for them, and it holds a node that was built for
   one node only. So a memo that is used for several expressions is one map over the nodes of all of
   them. -/
namespace CombLogic

open Expr

/-- The forms that resolution passes by. -/
def Expr.stays : Expr → Bool
  | .signal .. | .literal .. | .integer .. | .unassigned .. => true
  | _ => false

/-- What is known to become of a node. -/
def ResolveMemo.find? (memo : ResolveMemo) (e : Expr) : Option Expr :=
  if e.stays then some e else memo[e.node]?

def ResolveMemo.image (memo : ResolveMemo) (e : Expr) : Expr := (memo.find? e).getD e

/-- A memo that is right for nodes of one set and holds nodes of another. -/
structure Memoized (g : Netlist) (b : Binding) (D K : Set Expr) (memo : ResolveMemo) : Prop where
  each : ∀ node r, memo[node]? = some r → ∃ e ∈ D, e.node = node ∧ e.stays = false ∧ r ∈ K ∧
    (∀ a ∈ e.children, (memo.find? a).isSome) ∧ Becomes g b memo.image e r
  apart : ∀ a ∈ D, ∀ c ∈ D, Made b memo.image a → Made b memo.image c →
    ∀ r, memo.find? a = some r → memo.find? c = some r → a = c

/-- The later of two memos holds more, but no more for nodes of some weight and above it. -/
structure Grows (D : Set Expr) (bound : Nat) (memo memo' : ResolveMemo) : Prop where
  keeps : ∀ (node : Nat) (r : Expr), memo[node]? = some r → memo'[node]? = some r
  light : ∀ (node : Nat) (r : Expr), memo'[node]? = some r → memo[node]? = none →
    ∃ a ∈ D, a.node = node ∧ a.weight < bound

/-- An answer for one more node. Where a node was built, it is none of the answers before. -/
structure Answers (g : Netlist) (b : Binding) (e : Expr) (K : Set Expr) (memo : ResolveMemo)
    (r : Expr) : Prop where
  inside : r ∈ K
  operands : ∀ a ∈ e.children, (memo.find? a).isSome
  becomes : Becomes g b memo.image e r
  fresh : Made b memo.image e → ∀ node : Nat, memo[node]? ≠ some r

/-- What was found for a node, as a memo has it. -/
def Found (K : Set Expr) (memo : ResolveMemo) (e r : Expr) : Prop := memo.find? e = some r ∧ r ∈ K

section Memos

variable {g : Netlist} {b : Binding} {D K L : Set Expr} {next bound : Nat}
  {memo memo' : ResolveMemo} {e r : Expr}

theorem stays_children (stays : e.stays = true) : e.children = [] := by
  cases e <;> simp_all [Expr.stays, children]

theorem stays_unread (stays : e.stays = true) (node : Nat) (target : Ref) :
    e ≠ .read node target := by
  rintro rfl
  simp [Expr.stays] at stays

theorem find_stays (stays : e.stays = true) : memo.find? e = some e := if_pos stays

theorem find_moves (moves : e.stays = false) : memo.find? e = memo[e.node]? :=
  if_neg (by simp [moves])

theorem image_found (found : memo.find? e = some r) : memo.image e = r := by
  rw [ResolveMemo.image, found, Option.getD_some]

theorem made_moves {image : Expr → Expr} (made : Made b image e) : e.stays = false := by
  cases made with
  | read => rfl
  | parent operand =>
    by_contra stays
    rw [stays_children (by simpa using stays)] at operand
    simp at operand

theorem memoized_empty : Memoized g b D K {} where
  each node r found := by simp at found
  apart a _ c _ made _ r found := by simp [find_moves (made_moves made)] at found

theorem memoized_mono (memoized : Memoized g b D K memo) (sub : K ⊆ L) :
    Memoized g b D L memo where
  each node r kept := by
    obtain ⟨e, member, number, moves, inside, rest⟩ := memoized.each node r kept
    exact ⟨e, member, number, moves, sub inside, rest⟩
  apart := memoized.apart

/-- What is in no memo yet is no answer. -/
theorem memoized_new (memoized : Memoized g b D K memo) (fresh : r ∉ K) (node : Nat) :
    memo[node]? ≠ some r := by
  intro kept
  obtain ⟨-, -, -, -, inside, -⟩ := memoized.each node r kept
  exact fresh inside

theorem grows_refl : Grows D bound memo memo where
  keeps _ _ kept := kept
  light node r kept unknown := by simp [kept] at unknown

theorem grows_trans {memo'' : ResolveMemo} (first : Grows D bound memo memo')
    (second : Grows D bound memo' memo'') : Grows D bound memo memo'' where
  keeps node r kept := second.keeps node r (first.keeps node r kept)
  light node r kept unknown := by
    cases before : memo'[node]? with
    | none => exact second.light node r kept before
    | some s => exact first.light node s before unknown

theorem grows_insert (grows : Grows D e.weight memo memo') (member : e ∈ D) (heavy : e.weight < bound)
    (free : memo'[e.node]? = none) : Grows D bound memo (memo'.insert e.node r) where
  keeps node s kept := by
    have still := grows.keeps node s kept
    rw [Std.TreeMap.getElem?_insert, if_neg, still]
    rw [Std.LawfulEqCmp.compare_eq_iff_eq]
    rintro rfl
    simp [free] at still
  light node s kept unknown := by
    rw [Std.TreeMap.getElem?_insert] at kept
    split at kept
    · next number => exact ⟨e, member, Std.LawfulEqCmp.compare_eq_iff_eq.mp number, heavy⟩
    · obtain ⟨a, below, number, light⟩ := grows.light node s kept unknown
      exact ⟨a, below, number, light.trans heavy⟩

/-- The numbers that are new are none of heavier nodes. -/
theorem grows_free (grows : Grows D e.weight memo memo') (sharing : Sharing D next) (member : e ∈ D)
    (free : memo[e.node]? = none) : memo'[e.node]? = none := by
  by_contra taken
  obtain ⟨r, taken⟩ := Option.ne_none_iff_exists'.mp taken
  obtain ⟨a, below, number, light⟩ := grows.light e.node r taken free
  obtain rfl := sharing.one_node a below e member number
  exact Nat.lt_irrefl _ light

theorem grows_find (grows : Grows D bound memo memo') (found : memo.find? e = some r) :
    memo'.find? e = some r := by
  cases stays : e.stays with
  | true => rwa [find_stays stays] at found ⊢
  | false =>
    rw [find_moves stays] at found ⊢
    exact grows.keeps _ _ found

theorem found_mono (sub : K ⊆ L) (grows : Grows D bound memo memo') (found : Found K memo e r) :
    Found L memo' e r :=
  ⟨grows_find grows found.1, sub found.2⟩

theorem foundAll_mono {es rs : List Expr} (sub : K ⊆ L) (grows : Grows D bound memo memo')
    (found : List.Forall₂ (Found K memo) es rs) : List.Forall₂ (Found L memo') es rs :=
  found.imp fun _ _ => found_mono sub grows

/-- The node that a memo holds something for is known with all that is below it. -/
theorem memoized_known (memoized : Memoized g b D K memo) (sharing : Sharing D next) (member : e ∈ D)
    (found : memo.find? e = some r) :
    (∀ a ∈ e.children, (memo.find? a).isSome) ∧ Becomes g b memo.image e r := by
  cases stays : e.stays with
  | true =>
    rw [find_stays stays] at found
    cases found
    have operands := stays_children stays
    exact ⟨by simp [operands], .same (stays_unread stays) (by simp [operands])⟩
  | false =>
    rw [find_moves stays] at found
    obtain ⟨e', member', number, -, -, rest⟩ := memoized.each _ _ found
    exact sharing.one_node e' member' e member number ▸ rest

/-- A memo stays right for more nodes, wherever its answers lie. -/
theorem memoized_move {D' : Set Expr} (memoized : Memoized g b D K memo) (sub : D ⊆ D')
    (sharing : Sharing D' next) (inside : ∀ a ∈ D, ∀ r, memo.find? a = some r → r ∈ L) :
    Memoized g b D' L memo := by
  have old : ∀ a ∈ D', Made b memo.image a → ∀ r, memo.find? a = some r → a ∈ D := by
    intro a left made r found
    rw [find_moves (made_moves made)] at found
    obtain ⟨e, member, number, -⟩ := memoized.each _ _ found
    exact sharing.one_node e (sub member) a left number ▸ member
  refine ⟨fun node r kept => ?_, fun a left c right made made' r found found' => ?_⟩
  · obtain ⟨e, member, rfl, moves, -, rest⟩ := memoized.each node r kept
    exact ⟨e, sub member, rfl, moves, inside e member r (find_moves moves ▸ kept), rest⟩
  · exact memoized.apart a (old a left made r found) c (old c right made' r found') made made' r found
      found'

theorem known_below (memoized : Memoized g b D K memo) (sharing : Sharing D next) {a : Expr}
    (inside : e.Contains a) : e ∈ D → (memo.find? e).isSome → (memo.find? a).isSome := by
  induction inside with
  | root => exact fun _ known => known
  | within operand _ ih =>
    intro member known
    obtain ⟨r, found⟩ := Option.isSome_iff_exists.mp known
    exact ih (sharing.operands _ member _ operand)
      ((memoized_known memoized sharing member found).1 _ operand)

theorem imaged_known (memoized : Memoized g b D K memo) (sharing : Sharing D next) (member : e ∈ D)
    (known : (memo.find? e).isSome) : e.Imaged g b memo.image := by
  intro a inside
  obtain ⟨r, found⟩ := Option.isSome_iff_exists.mp (known_below memoized sharing inside member known)
  have becomes := (memoized_known memoized sharing (sharing.contained member inside) found).2
  exact image_found found ▸ becomes

section Insert

variable (moves : e.stays = false) (free : memo[e.node]? = none)

include moves in
theorem find_insert_self : ResolveMemo.find? (memo.insert e.node r) e = some r := by
  rw [find_moves moves, Std.TreeMap.getElem?_insert_self]

theorem find_insert_other {a : Expr} (differ : a.node ≠ e.node) :
    ResolveMemo.find? (memo.insert e.node r) a = memo.find? a := by
  cases stays : a.stays with
  | true => rw [find_stays stays, find_stays stays]
  | false =>
    rw [find_moves stays, find_moves stays, Std.TreeMap.getElem?_insert, if_neg]
    rw [Std.LawfulEqCmp.compare_eq_iff_eq]
    exact differ.symm

include free in
theorem find_insert_known {a : Expr} (known : (memo.find? a).isSome) :
    ResolveMemo.find? (memo.insert e.node r) a = memo.find? a := by
  cases stays : a.stays with
  | true => rw [find_stays stays, find_stays stays]
  | false =>
    refine find_insert_other fun number => ?_
    rw [find_moves stays, number, free] at known
    simp at known

include free in
theorem image_insert_known {a : Expr} (known : (memo.find? a).isSome) :
    ResolveMemo.image (memo.insert e.node r) a = memo.image a :=
  congrArg (Option.getD · a) (find_insert_known free known)

include free in
/-- What was right for a node over known operands is right with the new answer. -/
theorem insert_right {a s : Expr} (operands : ∀ c ∈ a.children, (memo.find? c).isSome)
    (becomes : Becomes g b memo.image a s) :
    (∀ c ∈ a.children, (ResolveMemo.find? (memo.insert e.node r) c).isSome) ∧
      Becomes g b (ResolveMemo.image (memo.insert e.node r)) a s := by
  refine ⟨fun c operand => ?_, becomes_congr (fun c operand => ?_) becomes⟩
  · rw [find_insert_known free (operands c operand)]
    exact operands c operand
  · exact image_insert_known free (operands c operand)

include moves free in
/-- A node that was built with the new answer is the new one, or was built before. -/
theorem made_insert (memoized : Memoized g b D K memo) (sharing : Sharing D next) (member : e ∈ D)
    (operands : ∀ a ∈ e.children, (memo.find? a).isSome) {a s : Expr} (left : a ∈ D)
    (made : Made b (ResolveMemo.image (memo.insert e.node r)) a)
    (found : ResolveMemo.find? (memo.insert e.node r) a = some s) :
    (a = e ∧ s = r ∧ Made b memo.image e) ∨ (Made b memo.image a ∧ memo.find? a = some s) := by
  by_cases own : a = e
  · subst own
    rw [find_insert_self moves] at found
    refine .inl ⟨rfl, (Option.some.inj found).symm, made_congr (fun c operand => ?_) made⟩
    exact image_insert_known free (operands c operand)
  · rw [find_insert_other fun number => own (sharing.one_node a left e member number)] at found
    obtain ⟨known, -⟩ := memoized_known memoized sharing left found
    refine .inr ⟨made_congr (fun c operand => ?_) made, found⟩
    exact image_insert_known free (known c operand)

include moves free in
theorem memoized_insert (memoized : Memoized g b D K memo) (sharing : Sharing D next) (member : e ∈ D)
    (answer : Answers g b e K memo r) : Memoized g b D K (memo.insert e.node r) where
  each node s kept := by
    rw [Std.TreeMap.getElem?_insert] at kept
    split at kept
    · next number =>
      cases kept
      rw [Std.LawfulEqCmp.compare_eq_iff_eq] at number
      exact ⟨e, member, number, moves, answer.inside, insert_right free answer.operands answer.becomes⟩
    · obtain ⟨a, left, number, moves', inside, operands, becomes⟩ := memoized.each node s kept
      exact ⟨a, left, number, moves', inside, insert_right free operands becomes⟩
  apart a left c right made made' s found found' := by
    -- the new answer is none of those that were built before
    have others : ∀ d, Made b memo.image e → Made b memo.image d → memo.find? d ≠ some r := by
      intro d own made found
      exact answer.fresh own d.node (find_moves (made_moves made) ▸ found)
    rcases made_insert moves free memoized sharing member answer.operands left made found with
      ⟨own, same, first⟩ | ⟨made, found⟩
    · rcases made_insert moves free memoized sharing member answer.operands right made' found' with
        ⟨own', -, -⟩ | ⟨made', found'⟩
      · exact own.trans own'.symm
      · exact (others c first made' (same ▸ found')).elim
    · rcases made_insert moves free memoized sharing member answer.operands right made' found' with
        ⟨-, same, first⟩ | ⟨made', found'⟩
      · exact (others a first made (same ▸ found)).elim
      · exact memoized.apart a left c right made made' s found found'

end Insert

end Memos

end CombLogic
