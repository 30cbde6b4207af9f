import CombLogic.Proofs.Evaluation
import CombLogic.Proofs.Netlist.Lookup

/- How the value of an expression comes from the values of its operands. Of a choice only the operands
   that are evaluated have to have a value. -/
namespace CombLogic

open Expr

inductive Outcome (env : Env) (answer : Ref → Except NetlistError Value) : Expr → Value → Prop where
  | signal {n : Nat} {leaf : LeafId} {v : Value} (held : env.value leaf = .ok v) :
      Outcome env answer (.signal n leaf) v
  | literal {n : Nat} {v : Value} : Outcome env answer (.literal n v) v
  | read {n : Nat} {target : Ref} {v : Value} (answered : answer target = .ok v) :
      Outcome env answer (.read n target) v
  | unary {n : Nat} {op : UnaryOp} {a : Expr} {v : Value}
      (operand : a.valueOn env answer = .ok v) : Outcome env answer (.unary n op a) (op.apply v)
  | binary {n : Nat} {op : BinaryOp} {a b : Expr} {v w r : Value}
      (left : a.valueOn env answer = .ok v) (right : b.valueOn env answer = .ok w)
      (done : op.apply v w = .ok r) : Outcome env answer (.binary n op a b) r
  | whenTrue {n : Nat} {c t f : Expr} {v : Value}
      (condition : c.valueOn env answer = .ok (.ofBit .one))
      (taken : t.valueOn env answer = .ok v) : Outcome env answer (.mux n c t f) v
  | whenFalse {n : Nat} {c t f : Expr} {v : Value}
      (condition : c.valueOn env answer = .ok (.ofBit .zero))
      (taken : f.valueOn env answer = .ok v) : Outcome env answer (.mux n c t f) v
  | undecided {n : Nat} {c t f : Expr} {bit : Bit} {v : Value}
      (condition : c.valueOn env answer = .ok (.ofBit bit)) (unknown : bit.isKnown = false)
      (first : t.valueOn env answer = .ok v) : Outcome env answer (.mux n c t f) (.unknown v.width)
  | concat {n : Nat} {parts : List Expr} {vs : List Value}
      (each : List.Forall₂ (fun a v => a.valueOn env answer = .ok v) parts vs) :
      Outcome env answer (.concat n parts) (.concat vs)
  | slice {n : Nat} {a : Expr} {high low : Nat} {v r : Value}
      (operand : a.valueOn env answer = .ok v) (done : v.slice high low = .ok r) :
      Outcome env answer (.slice n a high low) r
  | extend {n : Nat} {a : Expr} {width : Nat} {signed : Bool} {v r : Value}
      (operand : a.valueOn env answer = .ok v)
      (done : (if signed then v.signExtend width else v.zeroExtend width) = .ok r) :
      Outcome env answer (.extend n a width signed) r
  | wildMatch {n : Nat} {s p : Expr} {v w : Value} {bit : Bit}
      (left : s.valueOn env answer = .ok v) (right : p.valueOn env answer = .ok w)
      (done : v.matchWild w = .ok bit) : Outcome env answer (.caseMatch n s p true) (.ofBit bit)
  | exactMatch {n : Nat} {s p : Expr} {v w : Value}
      (left : s.valueOn env answer = .ok v) (right : p.valueOn env answer = .ok w) :
      Outcome env answer (.caseMatch n s p false) (.ofBool (v == w))

section

variable {env : Env} {answer : Ref → Except NetlistError Value}

theorem mapError_ok {ε δ α : Type} {f : ε → δ} {r : Except ε α} {a : α} :
    r.mapError f = .ok a ↔ r = .ok a := by
  cases r <;> simp [Except.mapError]

theorem valuesOn_ok {es : List Expr} {vs : List Value} :
    valuesOn env answer es = .ok vs ↔
      List.Forall₂ (fun a v => a.valueOn env answer = .ok v) es vs := by
  induction es generalizing vs with
  | nil => cases vs <;> simp [valuesOn, pure, Except.pure]
  | cons e rest ih =>
    constructor
    · intro done
      obtain ⟨v, here, done⟩ := bind_ok done
      obtain ⟨ws, later, done⟩ := bind_ok done
      cases done
      exact .cons here (ih.mp later)
    · intro each
      cases each with
      | cons here later =>
        simp only [valuesOn, here, ih.mpr later]
        rfl

theorem valueOn_outcome {e : Expr} {v : Value} (found : e.valueOn env answer = .ok v) :
    Outcome env answer e v := by
  cases e with
  | signal => exact .signal found
  | literal =>
    cases found
    exact .literal
  | integer => cases found
  | read => exact .read found
  | unassigned n leaf =>
    obtain ⟨name, -, failed⟩ := bind_ok found
    cases failed
  | unary n op a =>
    obtain ⟨w, here, done⟩ := bind_ok found
    cases done
    exact .unary here
  | binary n op a b =>
    obtain ⟨w, left, found⟩ := bind_ok found
    obtain ⟨w', right, done⟩ := bind_ok found
    exact .binary left right (mapError_ok.mp done)
  | mux n c t f =>
    obtain ⟨⟨bits⟩, condition, found⟩ := bind_ok found
    match bits with
    | [.one] => exact .whenTrue condition found
    | [.zero] => exact .whenFalse condition found
    | [.x] | [.z] =>
      obtain ⟨w, first, done⟩ := bind_ok found
      cases done
      exact .undecided condition rfl first
    | [] => cases found
    | bit :: _ :: _ => cases bit <;> cases found
  | concat n parts =>
    obtain ⟨vs, each, done⟩ := bind_ok found
    cases done
    exact .concat (valuesOn_ok.mp each)
  | slice n a high low =>
    obtain ⟨w, here, done⟩ := bind_ok found
    exact .slice here (mapError_ok.mp done)
  | extend n a width signed =>
    obtain ⟨w, here, done⟩ := bind_ok found
    exact .extend here (mapError_ok.mp done)
  | caseMatch n s p wildcard =>
    obtain ⟨w, left, found⟩ := bind_ok found
    obtain ⟨w', right, done⟩ := bind_ok found
    cases wildcard with
    | true =>
      obtain ⟨bit, matched, done⟩ := bind_ok done
      cases done
      exact .wildMatch left right (mapError_ok.mp matched)
    | false =>
      cases done
      exact .exactMatch left right

theorem outcome_valueOn {e : Expr} {v : Value} (outcome : Outcome env answer e v) :
    e.valueOn env answer = .ok v := by
  cases outcome with
  | signal held => exact held
  | literal => rfl
  | read answered => exact answered
  | unary operand => simp only [valueOn, operand]; rfl
  | binary left right done => simp only [valueOn, left, right, bind, Except.bind, done]; rfl
  | whenTrue condition taken | whenFalse condition taken =>
    simp only [valueOn, condition]
    exact taken
  | @undecided _ _ _ _ bit v condition unknown first =>
    cases bit with
    | one | zero => cases unknown
    | x | z => simp only [valueOn, condition, bind, Except.bind, Value.ofBit, first]; rfl
  | concat each => simp only [valueOn, valuesOn_ok.mpr each]; rfl
  | slice operand done => simp only [valueOn, operand, bind, Except.bind, done]; rfl
  | @extend _ _ _ signed _ _ operand done =>
    cases signed <;> simp_all [valueOn, bind, Except.bind, Except.mapError]
  | wildMatch left right done =>
    simp [valueOn, left, right, done, bind, Except.bind, Except.mapError, pure, Except.pure]
  | exactMatch left right => simp only [valueOn, left, right]; rfl

theorem value_unary {n : Nat} {op : UnaryOp} {a : Expr} {r : Value} :
    (Expr.unary n op a).value env = .ok r ↔ ∃ v, a.value env = .ok v ∧ op.apply v = r := by
  constructor
  · intro found
    cases valueOn_outcome found with
    | unary operand => exact ⟨_, operand, rfl⟩
  · rintro ⟨v, operand, rfl⟩
    exact outcome_valueOn (.unary operand)

theorem value_binary {n : Nat} {op : BinaryOp} {a b : Expr} {r : Value} :
    (Expr.binary n op a b).value env = .ok r ↔
      ∃ v w, a.value env = .ok v ∧ b.value env = .ok w ∧ op.apply v w = .ok r := by
  constructor
  · intro found
    cases valueOn_outcome found with
    | binary left right done => exact ⟨_, _, left, right, done⟩
  · rintro ⟨v, w, left, right, done⟩
    exact outcome_valueOn (.binary left right done)

theorem value_concat {n : Nat} {parts : List Expr} {v : Value} :
    (Expr.concat n parts).value env = .ok v ↔
      ∃ vs, List.Forall₂ (fun a w => a.value env = .ok w) parts vs ∧ v = .concat vs := by
  constructor
  · intro found
    cases valueOn_outcome found with
    | concat each => exact ⟨_, each, rfl⟩
  · rintro ⟨vs, each, rfl⟩
    exact outcome_valueOn (.concat each)

end

end CombLogic
