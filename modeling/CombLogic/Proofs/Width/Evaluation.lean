import CombLogic.Proofs.Attempts
import CombLogic.Proofs.Width.Rule

/- Evaluation of an expression that has a width by the rule of evaluation succeeds, with a value of
   that width, as long as the values of the leaves have their widths. -/
namespace CombLogic

open Expr Evaluating

/-- A computation succeeds and keeps what is right about the memo. -/
def Finds {α : Type} (right : ValueMemo → Prop) (m : Evaluating α) (post : α → Prop) : Prop :=
  ∀ memo, right memo → ∃ a after, m memo = .ok (a, after) ∧ right after ∧ post a

section Finds

variable {α β : Type} {right : ValueMemo → Prop} {post : α → Prop} {final : β → Prop}

theorem finds_pure {a : α} (here : post a) : Finds right (pure a) post :=
  fun memo kept => ⟨a, memo, rfl, kept, here⟩

theorem finds_ask {p : Except NetlistError α} {a : α} (found : p = .ok a) (here : post a) :
    Finds right (ask p) post := by
  subst found
  exact fun memo kept => ⟨a, memo, rfl, kept, here⟩

theorem finds_value {p : Except ValueError α} {a : α} (found : p = .ok a) (here : post a) :
    Finds right (valueOf p) post :=
  finds_ask (by rw [found]; rfl) here

theorem finds_bind {m : Evaluating α} {f : α → Evaluating β} (first : Finds right m post)
    (rest : ∀ a, post a → Finds right (f a) final) : Finds right (m >>= f) final := by
  intro memo kept
  obtain ⟨a, after, run, kept', here⟩ := first memo kept
  obtain ⟨b, last, run', kept'', there⟩ := rest a here after kept'
  exact ⟨b, last, by simp [bind, StateT.bind, Except.bind, run, run'], kept'', there⟩

end Finds

/-- What is kept for a node has the width of the node. -/
def MemoWide (K : Set Expr) (d : Ref → Option Nat) (memo : ValueMemo) : Prop :=
  ∀ e ∈ K, ∀ v, memo[e.node]? = some v → e.widthBy .evaluation d = some v.width

/-- The leaves that an expression reads have values of their widths. -/
def Env.Fits (env : Env) (d : Ref → Option Nat) (e : Expr) : Prop :=
  ∀ leaf, e.Reads leaf → ∃ v, env.value leaf = .ok v ∧ d (.leaf leaf) = some v.width

section

variable {K : Set Expr} {next : Nat} {d : Ref → Option Nat} {env : Env}

theorem finds_remember (sharing : Sharing K next) {e : Expr} (member : e ∈ K) {width : Nat}
    (wide : e.widthBy .evaluation d = some width) {find : Evaluating Value}
    (found : Finds (MemoWide K d) find fun v => v.width = width) :
    Finds (MemoWide K d) (remember e.node find) fun v => v.width = width := by
  intro memo kept
  cases known : memo[e.node]? with
  | some v =>
    refine ⟨v, memo, ?_, kept, ?_⟩
    · simp [remember, known, bind, StateT.bind, Except.bind, get, getThe, MonadStateOf.get,
        StateT.get, pure, stateT_pure, Except.pure]
    · have same := (kept e member v known).symm.trans wide
      exact Option.some.inj same
  | none =>
    obtain ⟨v, after, run, kept', rfl⟩ := found memo kept
    refine ⟨v, after.insert e.node v, ?_, ?_, rfl⟩
    · simp_all [remember, bind, StateT.bind, Except.bind, get, getThe, MonadStateOf.get,
        StateT.get, pure, Except.pure, stateT_pure, modify, modifyGet, MonadStateOf.modifyGet,
        StateT.modifyGet]
    · intro a inside w held
      rw [Std.TreeMap.getElem?_insert] at held
      by_cases same : e.node = a.node
      · obtain rfl := sharing.one_node e member a inside same
        obtain rfl : v = w := by simpa using held
        exact wide
      · rw [if_neg (by simpa using same)] at held
        exact kept' a inside w held

theorem fits_operand {e a : Expr} (operand : a ∈ e.children) (fits : env.Fits d e) :
    env.Fits d a :=
  fun leaf read => fits leaf (reads_operand operand read)

theorem finds_all {es : List Expr} {ws : List Nat}
    (each : List.Forall₂ (fun a w => Finds (MemoWide K d) (a.evaluate env) fun v => v.width = w)
      es ws) :
    Finds (MemoWide K d) (evaluateAll env es) fun vs => (vs.map Value.width).sum = ws.sum := by
  induction each with
  | nil => exact finds_pure rfl
  | cons first _ ih =>
    simp only [evaluateAll]
    refine finds_bind first fun v here => finds_bind ih fun vs there => ?_
    exact finds_pure (by simp [here, there])

theorem evaluate_wide (sharing : Sharing K next) (e : Expr) : e ∈ K → env.Fits d e →
    ∀ width, e.widthBy .evaluation d = some width →
      Finds (MemoWide K d) (e.evaluate env) fun v => v.width = width := by
  induction e using operand_induction with
  | step e ih =>
    intro member fits width wide
    have operand : ∀ a ∈ e.children, ∀ w, a.widthBy .evaluation d = some w →
        Finds (MemoWide K d) (a.evaluate env) fun v => v.width = w :=
      fun a below => ih a below (sharing.operands e member a below) (fits_operand below fits)
    have remembered : ∀ find, Finds (MemoWide K d) find (fun v => v.width = width) →
        Finds (MemoWide K d) (remember e.node find) fun v => v.width = width :=
      fun find => finds_remember sharing member wide
    cases widthBy_widths wide with
    | @signal node leaf _ here =>
      obtain ⟨v, found, declared⟩ := fits leaf ⟨node, .root _⟩
      have same := declared.symm.trans here
      exact remembered _ (finds_ask found (Option.some.inj same))
    | literal => exact finds_pure rfl
    | @unary node op a w here =>
      refine remembered _ (finds_bind (operand a (by simp [children]) w here) fun v same => ?_)
      exact finds_pure (by rw [op.width_apply, same])
    | @shift node op a b m n shifts left right =>
      refine remembered _ (finds_bind (operand a (by simp [children]) width left) fun v same => ?_)
      refine finds_bind (operand b (by simp [children]) n right) fun w _ => ?_
      obtain ⟨r, found, here⟩ := BinaryOp.shift_ok shifts v w
      exact finds_value found (here.trans same)
    | @pair node op a b m n pairs left right aligned =>
      refine remembered _ (finds_bind (operand a (by simp [children]) m left) fun v same => ?_)
      refine finds_bind (operand b (by simp [children]) n right) fun w same' => ?_
      subst same same'
      obtain ⟨r, found, here⟩ := BinaryOp.pair_ok pairs aligned
      exact finds_value found here
    | @mux node c t f m condition left right =>
      have whenTrue := operand t (by simp [children]) width left
      have whenFalse := operand f (by simp [children]) width right
      refine remembered _ (finds_bind (operand c (by simp [children]) 1 condition) fun v single => ?_)
      obtain ⟨b, bits⟩ := Value.single_bit.mp single
      obtain rfl : v = ⟨[b]⟩ := by rw [← bits]
      cases b with
      | one => exact whenTrue
      | zero => exact whenFalse
      | x | z => exact finds_bind whenTrue fun w same => finds_pure (by simpa using same)
    | @concat node parts ws each =>
      have listed := (List.forall₂_and_left _ _).mpr ⟨fun a member => member, each⟩
      have parts := listed.imp fun a w both => operand a (by simpa [children] using both.1) w both.2
      refine remembered _ (finds_bind (finds_all parts) fun vs total => ?_)
      exact finds_pure (by rw [Value.width_concat, total])
    | @slice node a high low w here ordered inside =>
      refine remembered _ (finds_bind (operand a (by simp [children]) w here) fun v same => ?_)
      obtain ⟨cut, found, short⟩ := Value.slice_ok ordered (same ▸ inside)
      exact finds_value found short
    | @extend node a target w signed here wider =>
      have le : w ≤ width := of_decide_eq_true wider
      refine remembered _ (finds_bind (operand a (by simp [children]) w here) fun v same => ?_)
      subst same
      split
      · obtain ⟨padded, found, long⟩ := Value.padWith_ok v.sign le
        exact finds_value found long
      · obtain ⟨padded, found, long⟩ := Value.padWith_ok .zero le
        exact finds_value found long
    | @caseMatch node s p m wildcard left right =>
      refine remembered _ (finds_bind (operand s (by simp [children]) m left) fun v same => ?_)
      refine finds_bind (operand p (by simp [children]) m right) fun w same' => ?_
      split
      · have found : v.matchWild w = .ok (Value.matchWildBits v.bits w.bits) := by
          rw [Value.matchWild, if_pos (same.trans same'.symm)]
        have decided : Finds (MemoWide K d) (valueOf (v.matchWild w)) fun _ => True :=
          finds_value found trivial
        exact finds_bind decided fun bit _ => finds_pure (Value.width_ofBit bit)
      · exact finds_pure (Value.width_ofBool _)

/-- The same for evaluation without a memo. -/
theorem value_wide (sharing : Sharing K next) {e : Expr} (member : e ∈ K) (fits : env.Fits d e)
    {width : Nat} (wide : e.widthBy .evaluation d = some width) :
    ∃ v, e.value env = .ok v ∧ v.width = width := by
  have nothing : MemoWide K d {} := fun a _ v known => by simp at known
  obtain ⟨v, after, run, -, same⟩ := evaluate_wide sharing e member fits width wide {} nothing
  have right : MemoRight K env {} := fun a _ v known => by simp at known
  have computes := (evaluate_computes sharing e member : Computes (MemoRight K env) _ _) {} right
  cases plain : e.value env with
  | error x =>
    rw [plain] at computes
    cases computes.symm.trans run
  | ok v' =>
    rw [plain] at computes
    obtain ⟨after', run', -⟩ := computes
    cases run'.symm.trans run
    exact ⟨v, rfl, same⟩

end

end CombLogic
