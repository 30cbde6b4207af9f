import CombLogic.Proofs.Outcome
import CombLogic.Proofs.Unknown.Value
import CombLogic.Proofs.Width.Balanced

/- Expressions over unknown bits. Evaluation on values that leave bits unknown gives a value below the one
   that it gives once the bits are known, in expressions without exact matches in which everything
   has a bit. -/
namespace CombLogic

open Expr

namespace Expr

/-- A match that compares X and Z like any other bits. -/
def isExact : Expr → Bool
  | caseMatch _ _ _ wildcard => !wildcard
  | _ => false

def Wild (e : Expr) : Prop := e.All (·.isExact = false)

/-- No part of an expression is sized to no bits at all. -/
def Solid (d : Ref → Option Nat) (e : Expr) : Prop := e.All fun n => n.widthBy .sizing d ≠ some 0

instance (e : Expr) : Decidable e.Wild := inferInstanceAs (Decidable (e.All _))

instance (d : Ref → Option Nat) (e : Expr) : Decidable (e.Solid d) :=
  inferInstanceAs (Decidable (e.All _))

end Expr

/-- The values on which an expression is evaluated are below other ones. -/
def Env.Below (env env' : Env) (e : Expr) : Prop :=
  ∀ leaf, e.Reads leaf → ∀ v, env.value leaf = .ok v →
    ∃ v', env'.value leaf = .ok v' ∧ v.Below v'

namespace Value

theorem padWith_width {fill : Bit} {v r : Value} {width : Nat}
    (done : padWith fill v width = .ok r) : r.width = width := by
  by_cases narrow : width < v.width
  · rw [padWith_error fill narrow] at done
    cases done
  · obtain ⟨w, found, wide⟩ := padWith_ok fill (Nat.le_of_not_lt narrow)
    cases found.symm.trans done
    exact wide

end Value

section

variable {d : Ref → Option Nat} {env env' : Env}

/-- What an expression with a width evaluates to has that width if all its parts have bits. -/
theorem value_width (e : Expr) : ∀ {width : Nat}, e.widthBy .sizing d = some width → e.Solid d →
    env.Fits d e → ∀ {v : Value}, e.value env = .ok v → v.width = width := by
  induction e using operand_induction with
  | step e ih =>
    intro width sized solid fits v found
    have below := (all_iff.mp solid).2
    have operand : ∀ a ∈ e.children, ∀ {m}, a.widthBy .sizing d = some m → ∀ {w},
        a.value env = .ok w → w.width = m :=
      fun a member _ sized _ found =>
        ih a member sized (below a member) (fits_operand member fits) found
    cases widthBy_widths sized with
    | @signal node leaf _ declared =>
      cases valueOn_outcome found with
      | signal held =>
        obtain ⟨w, there, same⟩ := fits leaf ⟨node, .root _⟩
        obtain rfl := Except.ok.inj (held.symm.trans there)
        exact Option.some.inj (same.symm.trans declared)
    | literal =>
      cases valueOn_outcome found with
      | literal => rfl
    | unary here =>
      cases valueOn_outcome found with
      | unary there => rw [UnaryOp.width_apply, operand _ (by simp [children]) here there]
    | shift shifts left right =>
      cases valueOn_outcome found with
      | binary first second done =>
        obtain ⟨r, applied, wide⟩ := BinaryOp.shift_ok shifts _ _
        cases applied.symm.trans done
        exact wide.trans (operand _ (by simp [children]) left first)
    | @pair node op a b m n pairs left right fit =>
      have some : m ≠ 0 := fun none => below a (by simp [children]) a (.root _) (none ▸ left)
      have some' : n ≠ 0 := fun none => below b (by simp [children]) b (.root _) (none ▸ right)
      cases valueOn_outcome found with
      | binary first second done =>
        obtain rfl := operand a (by simp [children]) left first
        obtain rfl := operand b (by simp [children]) right second
        obtain ⟨r, applied, wide⟩ := BinaryOp.pair_ok pairs fit
        cases applied.symm.trans done
        rw [wide, WidthRule.sizing_joined, aligned_max fit (by omega)]
    | mux condition left right =>
      cases valueOn_outcome found with
      | whenTrue _ taken => exact operand _ (by simp [children]) left taken
      | whenFalse _ taken => exact operand _ (by simp [children]) right taken
      | undecided _ _ first =>
        rw [Value.width_unknown]
        exact operand _ (by simp [children]) left first
    | @concat node parts ws each =>
      cases valueOn_outcome found with
      | @concat _ _ vs values =>
        have same : List.Forall₂ (fun w v => w = v.width) ws vs := by
          refine (forall₂_join each values).imp ?_
          rintro w v ⟨a, member, here, there⟩
          exact (operand a (by simpa [children]) here there).symm
        rw [← List.forall₂_map_right_iff, List.forall₂_eq_eq_eq] at same
        rw [Value.width_concat, same]
    | slice here ordered inside =>
      cases valueOn_outcome found with
      | slice there done =>
        have same := operand _ (by simp [children]) here there
        obtain ⟨r, cut, wide⟩ := Value.slice_ok ordered (same ▸ inside)
        cases cut.symm.trans done
        exact wide
    | @extend node a target w signed here fit =>
      cases valueOn_outcome found with
      | extend there done =>
        cases signed with
        | true => exact Value.padWith_width done
        | false => exact Value.padWith_width done
    | caseMatch left right =>
      cases valueOn_outcome found with
      | wildMatch => rfl
      | exactMatch => rfl

theorem below_operand {e a : Expr} (operand : a ∈ e.children) (below : env.Below env' e) :
    env.Below env' a :=
  fun leaf read => below leaf (reads_operand operand read)

theorem fits_below {e : Expr} (fits : env.Fits d e) (below : env.Below env' e) :
    env'.Fits d e := by
  intro leaf read
  obtain ⟨v, held, declared⟩ := fits leaf read
  obtain ⟨v', held', same⟩ := below leaf read v held
  exact ⟨v', held', Value.width_below same ▸ declared⟩

/-- A known condition chooses the same operand on both sides. Under an unknown one all bits of the
    left value are unknown, whichever operand the right one comes from. -/
theorem value_below (e : Expr) : ∀ {width : Nat}, e.widthBy .sizing d = some width → e.Solid d →
    e.Wild → env.Fits d e → env.Below env' e →
    ∀ {v v' : Value}, e.value env = .ok v → e.value env' = .ok v' → v.Below v' := by
  induction e using operand_induction with
  | step e ih =>
    intro width sized solid wild fits below v v' found found'
    have operand : ∀ a ∈ e.children, ∀ {w w'}, a.value env = .ok w → a.value env' = .ok w' →
        w.Below w' := by
      intro a member
      obtain ⟨m, sized⟩ := Option.isSome_iff_exists.mp
        (widthBy_operand (Option.isSome_of_eq_some sized) member)
      exact ih a member sized ((all_iff.mp solid).2 a member) ((all_iff.mp wild).2 a member)
        (fits_operand member fits) (below_operand member below)
    have open_below : ∀ {n : Nat}, v = .unknown n → v.Below v' := by
      rintro n rfl
      have same := value_width e sized solid fits found
      rw [Value.width_unknown] at same
      exact same ▸ Value.unknown_below
        (value_width e sized solid (fits_below fits below) found')
    cases valueOn_outcome found with
    | @signal n leaf _ held =>
      cases valueOn_outcome found' with
      | signal held' =>
        obtain ⟨w, there, lower⟩ := below leaf ⟨n, .root _⟩ v held
        cases there.symm.trans held'
        exact lower
    | literal =>
      cases valueOn_outcome found' with
      | literal => exact Value.below_refl _
    | read answered => cases sized
    | unary here =>
      cases valueOn_outcome found' with
      | unary there => exact UnaryOp.apply_below _ (operand _ (by simp [children]) here there)
    | binary left right done =>
      cases valueOn_outcome found' with
      | binary left' right' done' =>
        exact BinaryOp.apply_below _ (operand _ (by simp [children]) left left')
          (operand _ (by simp [children]) right right') done done'
    | @whenTrue n c t f _ condition taken =>
      cases valueOn_outcome found' with
      | whenTrue _ taken' => exact operand t (by simp [children]) taken taken'
      | whenFalse condition' _ =>
        cases Value.known_below (operand c (by simp [children]) condition condition') rfl
      | undecided condition' unknown _ =>
        cases Value.known_below (operand c (by simp [children]) condition condition') rfl
        cases unknown
    | @whenFalse n c t f _ condition taken =>
      cases valueOn_outcome found' with
      | whenFalse _ taken' => exact operand f (by simp [children]) taken taken'
      | whenTrue condition' _ =>
        cases Value.known_below (operand c (by simp [children]) condition condition') rfl
      | undecided condition' unknown _ =>
        cases Value.known_below (operand c (by simp [children]) condition condition') rfl
        cases unknown
    | undecided => exact open_below rfl
    | @concat n parts vs each =>
      cases valueOn_outcome found' with
      | concat each' =>
        refine Value.concat_below ((forall₂_join each each').imp ?_)
        rintro w w' ⟨a, member, here, there⟩
        exact operand a (by simpa [children]) here there
    | slice here done =>
      cases valueOn_outcome found' with
      | slice there done' =>
        exact Value.slice_below (operand _ (by simp [children]) here there) done done'
    | @extend n a target signed w _ here done =>
      cases valueOn_outcome found' with
      | extend there done' =>
        have lower := operand a (by simp [children]) here there
        cases signed with
        | true => exact Value.padWith_below lower (Value.sign_below lower) done done'
        | false => exact Value.padWith_below lower (Bit.below_refl _) done done'
    | wildMatch left right done =>
      cases valueOn_outcome found' with
      | wildMatch left' right' done' =>
        exact Value.ofBit_below (Value.matchWild_below (operand _ (by simp [children]) left left')
          (operand _ (by simp [children]) right right') done done')
    | exactMatch =>
      have exact := wild _ (.root _)
      cases exact

end

end CombLogic
