import CombLogic.Proofs.Width.Balanced

/- Sizing where everything has a bit. Each part then takes exactly the width for which it is sized, so
   that the sized form has its width as its own and every later sizing hands it back; and the widths
   that evaluation finds are the same. -/
namespace CombLogic

open Expr Sizing

namespace Expr

/-- Every part that has a width of its own has at least one bit: the leaves and constants, what is put
    together from them, and what is extended. -/
def Proper (d : Ref → Option Nat) (e : Expr) : Prop := e.All fun n => n.natural d ≠ some (some 0)

/-- A width is the expression's own, and sizing for it leaves the expression as it is. -/
def Fixed (d : Ref → Option Nat) (e : Expr) (width : Nat) : Prop :=
  e.natural d = some (some width) ∧ e.fitted d width = some (e, width)

/-- Every part has a width of at least one bit and is left as it is by sizing. -/
def AllFixed (d : Ref → Option Nat) (e : Expr) : Prop :=
  e.All fun n => ∃ width, 0 < width ∧ n.Fixed d width

instance (d : Ref → Option Nat) (e : Expr) : Decidable (e.Proper d) :=
  inferInstanceAs (Decidable (e.All _))

end Expr

namespace Value

theorem leastWidth_pos (n : Int) : 0 < leastWidth n := by
  cases n <;> simp [leastWidth]

end Value

section

variable {d : Ref → Option Nat}

theorem leastWidth_pos (e : Expr) : 0 < e.leastWidth := by
  induction e using operand_induction with
  | step e ih =>
    cases e with
    | integer n value => exact Value.leastWidth_pos value
    | signal | literal | read | unassigned | concat | slice | extend | caseMatch =>
      simp [Expr.leastWidth]
    | unary n op a =>
      simp only [Expr.leastWidth]
      split
      · exact Nat.one_pos
      · exact ih a (by simp [children])
    | binary n op a b =>
      have left := ih a (by simp [children])
      simp only [Expr.leastWidth]
      split
      · exact left
      · split <;> omega
    | mux n c t f =>
      have left := ih t (by simp [children])
      simp only [Expr.leastWidth]
      omega

/-- A width that an operand has by itself is at least one bit. -/
def Positive (own : Option Nat) : Prop := ∀ m, own = some m → 0 < m

theorem proper_positive {e : Expr} {own : Option Nat} (proper : e.Proper d)
    (natural : e.natural d = some own) : Positive own := by
  rintro m rfl
  exact Nat.pos_of_ne_zero fun none => proper e (.root _) (none ▸ natural)

theorem getD_pos {own : Option Nat} {other : Nat} (positive : Positive own) (least : 0 < other) :
    0 < own.getD other := by
  cases own with
  | none => exact least
  | some m => exact positive m rfl

theorem pair_pos {a b : Expr} (context : Nat) {own own' : Option Nat} (positive : Positive own)
    (positive' : Positive own') : 0 < (pairWidths a b context own own').1 ∧
      0 < (pairWidths a b context own own').2 := by
  have least := leastWidth_pos a
  cases own with
  | none =>
    cases own' with
    | none =>
      simp only [pairWidths]
      split <;> omega
    | some n => exact ⟨positive' n rfl, positive' n rfl⟩
  | some m =>
    cases own' with
    | none => exact ⟨positive m rfl, positive m rfl⟩
    | some n => exact ⟨positive m rfl, positive' n rfl⟩

/-- A pair sized for a width takes it. -/
theorem pair_width {a b : Expr} {width : Nat} {own own' : Option Nat} (some : 0 < width)
    (suits : Suits (joinWidths own own') width) :
    max (pairWidths a b width own own').1 (pairWidths a b width own own').2 = width := by
  have bits : width ≠ 0 := by omega
  cases own with
  | none =>
    cases own' with
    | none => simp [pairWidths, bits]
    | some n => simpa [pairWidths] using suits n rfl
  | some m =>
    cases own' with
    | none => simpa [pairWidths] using suits m rfl
    | some n => simpa [pairWidths] using suits (max m n) rfl

/-- What sizing makes of an expression. -/
def Settles (d : Ref → Option Nat) (e : Expr) : Prop :=
  ∀ {t : Expr} {width tw : Nat} {own : Option Nat}, e.fitted d width = some (t, tw) →
    e.natural d = some own → Suits own width → 0 < width → e.Proper d →
      tw = width ∧ t.Fixed d width ∧ t.AllFixed d

theorem allFixed_node {e : Expr} {width : Nat} (bits : 0 < width) (fixed : e.Fixed d width)
    (below : ∀ a ∈ e.children, a.AllFixed d) : e.Fixed d width ∧ e.AllFixed d :=
  ⟨fixed, all_iff.mpr ⟨⟨width, bits, fixed⟩, below⟩⟩

theorem settles_parts {parts : List Expr} {fitted : List (Expr × Nat)} {total : Nat}
    (each : List.Forall₂ (OperandFits d) parts fitted) (settles : ∀ a ∈ parts, Settles d a)
    (proper : ∀ a ∈ parts, a.Proper d) (natural : naturals d parts = some total) :
    (fitted.map Prod.snd).sum = total ∧ naturals d (fitted.map Prod.fst) = some total ∧
      fittedParts d (fitted.map Prod.fst) = some (fitted.map Prod.fst, total) ∧
        ∀ a ∈ fitted.map Prod.fst, a.AllFixed d := by
  induction each generalizing total with
  | nil =>
    obtain rfl : 0 = total := by simpa [naturals] using natural
    simp [naturals, fittedParts]
  | @cons a r rest rs first _ ih =>
    obtain ⟨width, own, done⟩ := first
    simp only [naturals, own, Option.bind_eq_bind, Option.bind_some, Option.bind_eq_some_iff,
      Option.pure_def, Option.some.injEq] at natural
    obtain ⟨total', later, rfl⟩ := natural
    have bits := proper_positive (proper a (by simp)) own width rfl
    obtain ⟨t, tw⟩ := r
    obtain ⟨rfl, fixed, below⟩ := settles a (by simp) done own (by simp [Suits]) bits
      (proper a (by simp))
    obtain ⟨sum, names, again, fixeds⟩ := ih (fun b member => settles b (by simp [member]))
      (fun b member => proper b (by simp [member])) later
    have needed : t.needed d = some tw := needed_some.mpr fixed.1
    refine ⟨by simp [sum], ?_, ?_, ?_⟩
    · simp [naturals, fixed.1, names]
    · simp [fittedParts, needed, fixed.2, again]
    · simpa using ⟨below, by simpa using fixeds⟩

/-- Two operands that are sized for one another. -/
theorem pair_settles {a b r r' : Expr} {context aw bw : Nat} {own own' : Option Nat}
    (settles : Settles d a) (settles' : Settles d b) (proper : a.Proper d) (proper' : b.Proper d)
    (natural : a.natural d = some own) (natural' : b.natural d = some own')
    (done : a.fitted d (pairWidths a b context own own').1 = some (r, aw))
    (done' : b.fitted d (pairWidths a b context own own').2 = some (r', bw)) :
    (aw = (pairWidths a b context own own').1 ∧ r.Fixed d aw ∧ r.AllFixed d) ∧
      bw = (pairWidths a b context own own').2 ∧ r'.Fixed d bw ∧ r'.AllFixed d := by
  obtain ⟨suits, suits'⟩ := suits_pair a b context own own'
  obtain ⟨bits, bits'⟩ := pair_pos (a := a) (b := b) context (proper_positive proper natural)
    (proper_positive proper' natural')
  obtain ⟨same, settled⟩ := settles done natural suits bits proper
  obtain ⟨same', settled'⟩ := settles' done' natural' suits' bits' proper'
  exact ⟨⟨same, same.symm ▸ settled⟩, same', same'.symm ▸ settled'⟩

theorem fitted_settles (e : Expr) : Settles d e := by
  induction e using operand_induction with
  | step e ih =>
    intro t width tw own done natural suits bits proper
    have below : ∀ a ∈ e.children, a.Proper d := (all_iff.mp proper).2
    -- an operand that was sized for its own width, or for another one if it has none
    have operand : ∀ a ∈ e.children, ∀ {r w rw own}, a.fitted d w = some (r, rw) →
        a.natural d = some own → Suits own w → 0 < w → rw = w ∧ r.Fixed d w ∧ r.AllFixed d :=
      fun a member _ _ _ _ done natural suits bits =>
        ih a member done natural suits bits (below a member)
    cases fit_step done with
    | atom _ leaf sized =>
      refine ⟨rfl, allFixed_node bits ⟨?_, done⟩ (by simp [isAtom_iff leaf])⟩
      cases e with
      | signal | read | unassigned =>
        obtain ⟨m, -, same⟩ := Option.bind_eq_some_iff.mp natural
        obtain rfl := Option.some.inj same
        rw [natural, suits m rfl]
      | literal _ value =>
        obtain rfl : some value.width = own := by simpa [Expr.natural] using natural
        rw [natural, suits _ rfl]
      | integer => simp [integer?] at sized
      | _ => simp [isAtom] at leaf
    | integer n value =>
      exact ⟨rfl, allFixed_node bits ⟨by simp [Expr.natural], by simp [fitted]⟩ (by simp [children])⟩
    | @reduction _ _ _ _ a _ reduces here =>
      obtain ⟨w, found, fits⟩ := here
      obtain ⟨rfl, fixed, inner⟩ := operand a (by simp [children]) fits found (by simp [Suits])
        (proper_positive (below a (by simp [children])) found w rfl)
      obtain rfl : some 1 = own := by simpa [Expr.natural, reduces] using natural
      obtain rfl := suits 1 rfl
      refine ⟨rfl, allFixed_node bits ⟨by simp [Expr.natural, reduces], ?_⟩ (by simpa [children])⟩
      simp [fitted, reduces, needed_some.mpr fixed.1, fixed.2]
    | @unary _ _ _ _ a _ keeps here =>
      have same : a.natural d = some own := by simpa [Expr.natural, keeps] using natural
      obtain ⟨rfl, fixed, inner⟩ := operand a (by simp [children]) here same suits bits
      refine ⟨rfl, allFixed_node bits ⟨by simp [Expr.natural, keeps, fixed.1], ?_⟩
        (by simpa [children])⟩
      simp [fitted, keeps, fixed.2]
    | @shift _ _ _ bw op a _ b _ own' shifts left amount right =>
      have single : op.isComparison = false := by
        cases op <;> simp_all [BinaryOp.isShift, BinaryOp.isComparison]
      have same : a.natural d = some own := by simpa [Expr.natural, single, shifts] using natural
      obtain ⟨rfl, fixed, inner⟩ := operand a (by simp [children]) left same suits bits
      obtain ⟨rfl, fixed', inner'⟩ := operand b (by simp [children]) right amount (suits_getD _ _)
        (getD_pos (proper_positive (below b (by simp [children])) amount) (leastWidth_pos b))
      refine ⟨rfl, allFixed_node bits ⟨by simp [Expr.natural, single, shifts, fixed.1], ?_⟩ ?_⟩
      · simp [fitted, shifts, fixed.2, fixed'.1, fixed'.2]
      · simpa [children] using ⟨inner, inner'⟩
    | @pair _ _ aw bw op a _ b _ first second pairs found found' left right fits =>
      obtain ⟨⟨same, fixed, inner⟩, same', fixed', inner'⟩ := pair_settles (ih a (by simp [children]))
        (ih b (by simp [children])) (below a (by simp [children])) (below b (by simp [children])) found
        found' left right
      have wide : (if op.isComparison then 1 else max aw bw) = width := by
        cases compares : op.isComparison with
        | true =>
          obtain rfl : some 1 = own := by simpa [Expr.natural, compares] using natural
          exact suits 1 rfl
        | false =>
          obtain rfl : joinWidths first second = own := by
            simpa [Expr.natural, compares, pairs, found, found'] using natural
          rw [same, same', compares]
          exact pair_width bits suits
      refine ⟨wide, allFixed_node bits ⟨?_, ?_⟩ (by simpa [children] using ⟨inner, inner'⟩)⟩
      · rw [← wide]
        cases compares : op.isComparison <;>
          simp [Expr.natural, compares, pairs, fixed.1, fixed'.1, joinWidths]
      · have apart : ¬(aw ≠ bw ∧ aw ≠ 1 ∧ bw ≠ 1) := by omega
        simp [fitted, pairs, fixed.1, fixed'.1, pairWidths, fixed.2, fixed'.2, apart, wide]
    | @mux _ _ _ c _ t _ f _ bit first second condition found found' single left right =>
      obtain ⟨one, fixed₀, inner₀⟩ := operand c (by simp [children]) single condition (suits_getD _ _)
        (getD_pos (proper_positive (below c (by simp [children])) condition) Nat.one_pos)
      rw [← one] at fixed₀
      obtain ⟨⟨same, fixed, inner⟩, same', fixed', inner'⟩ := pair_settles (ih t (by simp [children]))
        (ih f (by simp [children])) (below t (by simp [children])) (below f (by simp [children])) found
        found' left right
      have wide : tw = width := by
        obtain rfl : joinWidths first second = own := by
          simpa [Expr.natural, found, found'] using natural
        have widest := pair_width (a := t) (b := f) bits suits
        omega
      rw [wide] at fixed fixed'
      refine ⟨wide, allFixed_node bits ⟨?_, ?_⟩ (by simpa [children] using ⟨inner₀, inner, inner'⟩)⟩
      · simp [Expr.natural, fixed.1, fixed'.1, joinWidths]
      · simp [fitted, fixed₀.1, fixed₀.2, fixed.1, fixed'.1, pairWidths, fixed.2, fixed'.2]
    | @concat _ _ parts fitted each =>
      obtain ⟨total, parted, same⟩ := Option.bind_eq_some_iff.mp natural
      obtain rfl := Option.some.inj same
      obtain rfl := suits total rfl
      obtain ⟨sum, names, again, fixeds⟩ := settles_parts each ih below parted
      refine ⟨sum, allFixed_node bits ⟨by simp [Expr.natural, names], ?_⟩ fixeds⟩
      simp [Expr.fitted, again]
    | @slice _ _ high low w aw a _ needed ordered inside here =>
      obtain ⟨rfl, fixed, inner⟩ := operand a (by simp [children]) here needed (by simp [Suits])
        (proper_positive (below a (by simp [children])) needed w rfl)
      obtain rfl : some (high - low + 1) = own := by simpa [Expr.natural] using natural
      obtain rfl := suits _ rfl
      have cut : ¬(high < low ∨ aw ≤ high) := by omega
      refine ⟨rfl, allFixed_node bits ⟨by simp [Expr.natural], ?_⟩ (by simpa [children])⟩
      simp only [fitted, needed_some.mpr fixed.1, Option.bind_eq_bind, Option.bind_some, if_neg cut,
        fixed.2, Option.pure_def]
    | @extend _ _ _ aw _ a _ w found wide here =>
      obtain rfl : some tw = own := by simpa [Expr.natural] using natural
      obtain rfl := suits tw rfl
      obtain ⟨rfl, fixed, inner⟩ := operand a (by simp [children]) here found (suits_getD _ _)
        (getD_pos (proper_positive (below a (by simp [children])) found) bits)
      refine ⟨rfl, allFixed_node bits ⟨by simp [Expr.natural], ?_⟩ (by simpa [children])⟩
      simp only [fitted, fixed.1, Option.bind_eq_bind, Option.bind_some, Option.getD_some,
        if_neg (Nat.not_lt.mpr wide), fixed.2, Option.pure_def]
    | @caseMatch _ _ sw s _ p _ _ first second found found' left right =>
      obtain ⟨⟨same, fixed, inner⟩, same', fixed', inner'⟩ := pair_settles (ih s (by simp [children]))
        (ih p (by simp [children])) (below s (by simp [children])) (below p (by simp [children])) found
        found' left right
      obtain rfl : some 1 = own := by simpa [Expr.natural] using natural
      obtain rfl := suits 1 rfl
      refine ⟨rfl, allFixed_node bits ⟨by simp [Expr.natural], ?_⟩
        (by simpa [children] using ⟨inner, inner'⟩)⟩
      simp [fitted, fixed.1, fixed'.1, pairWidths, fixed.2, fixed'.2]

theorem sized_settles {e t : Expr} {context : Option Nat} {width : Nat}
    (done : e.sized d context = some (t, width)) (bits : context ≠ some 0) (proper : e.Proper d) :
    t.Fixed d width ∧ t.AllFixed d := by
  simp only [sized, Option.bind_eq_bind, Option.bind_eq_some_iff] at done
  obtain ⟨own, natural, done⟩ := done
  cases own with
  | some m =>
    obtain ⟨rfl, settled⟩ := fitted_settles e done natural (by simp [Suits])
      (proper_positive proper natural m rfl) proper
    exact settled
  | none =>
    have least : 0 < context.getD e.leastWidth :=
      getD_pos (fun m given => Nat.pos_of_ne_zero fun none => bits (none ▸ given)) (leastWidth_pos e)
    obtain ⟨rfl, settled⟩ := fitted_settles e done natural (by simp [Suits]) least proper
    exact settled

/-- What is fixed stays fixed under other node numbers. -/
theorem fixed_alike {s t : Expr} {width : Nat} (alike : s.shape = t.shape) (free : s.Integerless)
    (fixed : t.Fixed d width) : s.Fixed d width := by
  obtain ⟨natural, again⟩ := fixed
  refine ⟨by rw [← natural_shape, alike, natural_shape, natural], ?_⟩
  have forms : (s.fitted d width).map formOf = (t.fitted d width).map formOf := by
    rw [← fitted_shape, alike, fitted_shape]
  rw [again] at forms
  obtain ⟨⟨r, w⟩, done, form⟩ := Option.map_eq_some_iff.mp forms
  obtain rfl : w = width := (Prod.mk.inj form).2
  rw [done, fitted_fixed s done free]

/-- An expression with a fixed width is sized to itself, whatever it is sized for. -/
theorem fixed_sized {s : Expr} {width : Nat} (fixed : s.Fixed d width) (context : Option Nat) :
    s.sized d context = some (s, width) := by
  simp [sized, fixed.1, fixed.2]

theorem fixed_width {e : Expr} {width : Nat} (fixed : e.Fixed d width) (resolved : e.Resolved) :
    e.widthBy .sizing d = some width :=
  (fitted_width e fixed.2 fixed.1 (by simp [Suits]) resolved).2

/-- Where every part is fixed with at least one bit, sizing and evaluation agree. -/
theorem allFixed_balanced {e : Expr} (fixed : e.AllFixed d) (resolved : e.Resolved) :
    e.Balanced d := by
  intro n inside
  have operand : ∀ a ∈ n.children, ∃ w, 0 < w ∧ a.Fixed d w ∧ a.widthBy .sizing d = some w := by
    intro a member
    have within := contains_trans inside (.within member (.root a))
    obtain ⟨w, bits, own⟩ := fixed a within
    exact ⟨w, bits, own, fixed_width own fun m below => resolved m (contains_trans within below)⟩
  cases n with
  | binary node op a b =>
    obtain ⟨w, bits, -, left⟩ := operand a (by simp [children])
    obtain ⟨w', bits', -, right⟩ := operand b (by simp [children])
    refine .inr (.inr fun m here n there => ?_)
    obtain rfl : w = m := Option.some.inj (left.symm.trans here)
    obtain rfl : w' = n := Option.some.inj (right.symm.trans there)
    omega
  | extend node a target signed =>
    obtain ⟨w, -, own, left⟩ := operand a (by simp [children])
    obtain ⟨w', -, whole⟩ := fixed _ inside
    intro m here
    obtain rfl : w = m := Option.some.inj (left.symm.trans here)
    cases fit_step whole.2 with
    | atom _ leaf => cases leaf
    | extend found wide =>
      obtain rfl := Option.some.inj (own.1.symm.trans found)
      exact wide
  | _ => trivial

end

end CombLogic
