import LazyDecl.Proofs.Eval.Discipline
import LazyDecl.Proofs.Eval.Reference
import LazyDecl.Proofs.Grammar.Precedence

/-!
What the evaluation of trees may come to (`Discipline.ofTrees`): no value is a reference,
and trees that respect precedence fail for no cause that is a fault, but for the operator
without a meaning. A sequence of theirs is a list or a table throughout, which is what the
evaluator checks again, and an infix operator of theirs that is handed to arithmetic is one
that arithmetic knows (`sound_ofTrees`).
-/

namespace LazyDecl

/-! ## Causes of failure -/

theorem UnaryOp.severity_apply {op : UnaryOp} {v : Value} {cause : EvalCause}
    (h : op.apply v = .error cause) :
    cause.severity = .error ∨ cause = .unsupportedComplement := by
  cases op <;> cases v <;> simp only [apply, Except.error.injEq, reduceCtorEq] at h <;>
    subst h <;> first | exact .inl rfl | exact .inr rfl

/-- The four operators that arithmetic knows. -/
def BinaryOp.IsArithmetic : BinaryOp → Prop
  | add | sub | mul | div => True
  | _ => False

theorem Operands.apply_ne_notArithmetic {op : BinaryOp} (h : op.IsArithmetic)
    (operands : Operands) : operands.apply op ≠ .error .notArithmetic := by
  cases op with
  | add | sub | mul => cases operands <;> nofun
  | div =>
    cases operands with
    | integers a b =>
      show (if b = 0 then _ else _) ≠ _
      split <;> nofun
    | decimals a b =>
      show (if b.isZero then _ else _) ≠ _
      split <;> nofun
  | _ => exact h.elim

namespace BinaryOp

variable {operator : String} {l r : Value} {cause : EvalCause}

theorem severity_operands (h : operands operator l r = .error cause) :
    cause.severity = .error := by
  unfold operands at h
  split at h <;> cases h
  rfl

theorem severity_arithmetic {op : BinaryOp} (h : arithmetic op operator l r = .error cause)
    (hop : op.IsArithmetic) : cause.severity = .error := by
  unfold arithmetic at h
  cases ho : operands operator l r with
  | error c =>
    rw [ho] at h
    cases h
    exact severity_operands ho
  | ok os =>
    rw [ho] at h
    dsimp only [bind, Except.bind] at h
    split at h
    · cases h
    · cases h
      rfl
    · next hfault => exact absurd hfault (os.apply_ne_notArithmetic hop)

theorem severity_ordered {holds : Ordering → Bool} (h : ordered holds operator l r = .error cause) :
    cause.severity = .error := by
  unfold ordered at h
  cases ho : operands operator l r with
  | error c =>
    rw [ho] at h
    cases h
    exact severity_operands ho
  | ok os =>
    rw [ho] at h
    cases h

/-- No infix operator fails for a cause that is a fault. -/
theorem severity_apply {op : BinaryOp} (h : op.apply operator l r = .error cause) :
    cause.severity = .error := by
  cases op with
  | equal | notEqual => cases h
  | less | lessEqual | greater | greaterEqual => exact severity_ordered h
  | sub | mul | div => exact severity_arithmetic h trivial
  | add =>
    simp only [apply] at h
    split at h
    · cases h
    · exact severity_arithmetic h trivial

end BinaryOp

/-! ## The discipline of trees -/

namespace Discipline

/-- Values are no references. Trees respect precedence, if that is asked for, and then no
cause of failure is a fault, but for the operator without a meaning. -/
def ofTrees (parsed : Prop) : Discipline where
  tree e := parsed → e.Respects
  value v := Reference.isReference v = false
  error cause := parsed → cause.severity = .fault → cause = .unsupportedComplement
  body h hp := (h hp).2.2.2
  expected cause hcause _ hfault := by rw [hcause] at hfault; cases hfault

section Trees

variable {parsed : Prop} {force : Token → Eval Value}

/-- An operator or a key fails for a cause that may be expected. -/
theorem ofTrees_error {cause : EvalCause}
    (h : cause.severity = .error ∨ cause = .unsupportedComplement) :
    (ofTrees parsed).error cause := by
  rcases h with h | rfl
  · exact (ofTrees parsed).expected cause h
  · exact fun _ _ => rfl

theorem keeps_decideBy (op : LogicalOp) (operator : Token) (l : Value) {right : Eval Value}
    (h : (ofTrees parsed).Keeps (ofTrees parsed).value right) :
    (ofTrees parsed).Keeps (ofTrees parsed).value (Eval.decideBy op operator l right) := by
  unfold Eval.decideBy
  cases l.boolean? with
  | none => exact .fail (ofTrees_error (.inl rfl)) operator
  | some b =>
    refine .ite (fun _ => .pure rfl) fun _ => h.bind fun r hr => ?_
    exact .ite (fun _ => .fail (ofTrees_error (.inl rfl)) operator) fun _ => .pure hr

mutual

theorem keeps_valueOver (hf : ∀ t, (ofTrees parsed).Keeps (ofTrees parsed).value (force t))
    (e : Expr) (he : parsed → e.Respects) :
    (ofTrees parsed).Keeps (ofTrees parsed).value (Eval.valueOver force e) := by
  match e with
  | .literal value token => exact .pure (Reference.isReference_ofLiteral value)
  | .name token => exact hf token
  | .grouping inner => exact keeps_valueOver hf inner he
  | .unary op operator operand =>
    rw [Eval.valueOver_unary]
    refine .ite (fun _ => .fail (ofTrees_error (.inr rfl)) operator) fun _ => ?_
    refine (keeps_valueOver hf operand fun hp => (he hp).2.2).bind fun v _ => ?_
    exact .lift (fun _ => Reference.isReference_unary)
      (fun _ hc => ofTrees_error (UnaryOp.severity_apply hc)) operator
  | .binary op operator left right =>
    rw [Eval.valueOver_binary]
    refine (keeps_valueOver hf left fun hp => (he hp).2.2.1).bind fun l _ => ?_
    refine (keeps_valueOver hf right fun hp => (he hp).2.2.2).bind fun r _ => ?_
    exact .lift (fun _ => Reference.isReference_binary)
      (fun _ hc => ofTrees_error (.inl (BinaryOp.severity_apply hc))) operator
  | .logical op operator left right =>
    rw [Eval.valueOver_logical]
    refine (keeps_valueOver hf left fun hp => (he hp).2.2.1).bind fun l _ => ?_
    exact keeps_decideBy op operator l (keeps_valueOver hf right fun hp => (he hp).2.2.2)
  | .binding left colon right =>
    rw [Eval.valueOver_binding]
    have hleft := keeps_valueOver hf left fun hp => (he hp).2.2.1
    refine (Keeps.nameOr .reference left.name? hleft).bind fun key _ => ?_
    exact (keeps_valueOver hf right fun hp => (he hp).2.2.2).bind fun v _ => .pure rfl
  | .sequence opening elements =>
    rw [Eval.valueOver_sequence]
    refine .ite (fun hb => ?_) fun hb => ?_
    · have hes : parsed → (∀ e ∈ elements, e.isBinding = true) ∧ elementsRespect elements := by
        intro hp
        obtain ⟨-, halike, hes⟩ := he hp
        refine ⟨halike.resolve_right fun hno => ?_, hes⟩
        obtain ⟨e, he, hbind⟩ := (Option.any_eq_true _ _).1 hb
        rw [hno e (List.mem_of_head? he)] at hbind
        cases hbind
      exact (keeps_entriesOver hf [] elements hes).bind fun t _ => .pure rfl
    · have hes : parsed → (∀ e ∈ elements, e.isBinding = false) ∧ elementsRespect elements := by
        intro hp
        obtain ⟨-, halike, hes⟩ := he hp
        refine ⟨?_, hes⟩
        cases elements with
        | nil => nofun
        | cons e es =>
          refine halike.resolve_left fun hall => hb ?_
          simp [hall e List.mem_cons_self]
      exact (keeps_itemsOver hf elements hes).bind fun vs _ => .pure rfl
  | .builder kind body => exact .pure rfl

theorem keeps_itemsOver (hf : ∀ t, (ofTrees parsed).Keeps (ofTrees parsed).value (force t))
    (es : List Expr)
    (hes : parsed → (∀ e ∈ es, e.isBinding = false) ∧ elementsRespect es) :
    (ofTrees parsed).Keeps (fun _ => True) (Eval.itemsOver force es) := by
  match es with
  | [] => exact .pure trivial
  | e :: es =>
    rw [Eval.itemsOver_cons]
    refine .ite (fun hb => .fail (fun hp _ => ?_) _) fun _ => ?_
    · have hno := (hes hp).1 e List.mem_cons_self
      rw [hb] at hno
      cases hno
    refine (keeps_valueOver hf e fun hp => (hes hp).2.1).bind fun v _ => ?_
    refine (keeps_itemsOver hf es fun hp => ?_).bind fun vs _ => .pure trivial
    exact ⟨(List.forall_mem_cons.1 (hes hp).1).2, (hes hp).2.2⟩

theorem keeps_entriesOver (hf : ∀ t, (ofTrees parsed).Keeps (ofTrees parsed).value (force t))
    (t : Table) (es : List Expr)
    (hes : parsed → (∀ e ∈ es, e.isBinding = true) ∧ elementsRespect es) :
    (ofTrees parsed).Keeps (fun _ => True) (Eval.entriesOver force t es) := by
  match es with
  | [] => exact .pure trivial
  | .binding left colon right :: es =>
    rw [Eval.entriesOver_binding]
    have hleft := keeps_valueOver hf left fun hp => (hes hp).2.1.2.2.1
    refine (Keeps.nameOr .string left.name? hleft).bind fun key _ => ?_
    refine (keeps_valueOver hf right fun hp => (hes hp).2.1.2.2.2).bind fun v _ => ?_
    have hwarn : (ofTrees parsed).Keeps (fun _ => True)
        (Eval.warnIf (t.contains key) (.duplicateKey key) colon) :=
      .ite (fun _ => .warn _ colon) fun _ => .pure trivial
    refine hwarn.bind fun _ _ => keeps_entriesOver hf (t.insert key v) es fun hp => ?_
    exact ⟨(List.forall_mem_cons.1 (hes hp).1).2, (hes hp).2.2⟩
  | .literal .. :: es | .name .. :: es | .grouping .. :: es | .unary .. :: es
  | .binary .. :: es | .logical .. :: es | .sequence .. :: es | .builder .. :: es =>
    rw [Eval.entriesOver_other _ _ rfl]
    refine .fail (fun hp _ => ?_) _
    cases (hes hp).1 _ List.mem_cons_self

end

/-- **No value is a reference,** and trees that respect precedence raise no fault but one. -/
theorem sound_ofTrees (parsed : Prop) : (ofTrees parsed).Sound :=
  fun _ hf e he => keeps_valueOver hf e he

end Trees

end Discipline

end LazyDecl
