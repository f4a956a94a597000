import LazyDecl.Eval.Program

/-!
Equations of the evaluator: what it does at each kind of node, as a chain of
steps. A key of a pair or of a table is one step in either case (`nameOr`).
-/

namespace LazyDecl.Eval

/-- A bare name taken as it stands, or else a key that is worked out. -/
def nameOr {m : Type → Type} [Pure m] (wrap : String → Value) (name? : Option Token)
    (key : m Value) : m Value :=
  match name? with
  | some t => pure (wrap t.lexeme)
  | none => key

def warnIf (found : Bool) (cause : WarningCause) (t : Token) : Eval Unit :=
  if found then warn cause t else pure ()

/-! ## The state -/

section State

variable {α : Type}

theorem get_bind (k : EvalState → Eval α) (s : EvalState) : (get >>= k) s = k s s := rfl

theorem modify_bind (f : EvalState → EvalState) (k : Unit → Eval α) (s : EvalState) :
    (modify f >>= k) s = k () (f s) := rfl

theorem bind_ok {β : Type} {x : Eval α} {k : α → Eval β} {s s' : EvalState} {a : α}
    (h : x s = .ok a s') : (x >>= k) s = k a s' := by
  simp only [bind, EStateM.bind, h]

theorem warnIf_eq (found : Bool) (cause : WarningCause) (t : Token) (s : EvalState) :
    warnIf found cause t s =
      .ok () { s with warnings := s.warnings ++ if found then [⟨cause, t⟩] else [] } := by
  cases found with
  | true => rfl
  | false =>
    simp only [Bool.false_eq_true, if_false, List.append_nil]
    rfl

end State

/-! ## Trees -/

variable (force : Token → Eval Value)

theorem valueOver_unary (op : UnaryOp) (operator : Token) (operand : Expr) :
    valueOver force (.unary op operator operand) =
      if op = .complement then fail .unsupportedComplement operator
      else valueOver force operand >>= fun v => lift operator (op.apply v) := by
  rw [valueOver]
  rfl

theorem valueOver_binary (op : BinaryOp) (operator : Token) (left right : Expr) :
    valueOver force (.binary op operator left right) =
      valueOver force left >>= fun l => valueOver force right >>= fun r =>
        lift operator (op.apply operator.lexeme l r) := by
  rw [valueOver]

/-- What a logical operator gives once the value of its right operand is needed. -/
def settle (operator : Token) (r : Value) : Eval Value :=
  if r.boolean?.isNone then fail (.notBooleans operator.lexeme r.typeName) operator else pure r

/-- What a logical operator gives once the value of its left operand is known. -/
def decideBy (op : LogicalOp) (operator : Token) (l : Value) (right : Eval Value) : Eval Value :=
  match l.boolean? with
  | none => fail (.notBooleans operator.lexeme l.typeName) operator
  | some b => if b = op.settledBy then pure (.boolean b) else right >>= settle operator

theorem valueOver_logical (op : LogicalOp) (operator : Token) (left right : Expr) :
    valueOver force (.logical op operator left right) =
      valueOver force left >>= fun l => decideBy op operator l (valueOver force right) := by
  rw [valueOver]
  refine congrArg _ (funext fun l => ?_)
  unfold decideBy
  cases l.boolean? <;> rfl

theorem valueOver_binding (left : Expr) (colon : Token) (right : Expr) :
    valueOver force (.binding left colon right) =
      nameOr .reference left.name? (valueOver force left) >>= fun key =>
        valueOver force right >>= fun v => pure (.pair key v) := by
  rw [valueOver]
  cases left.name? <;> rfl

theorem valueOver_sequence (opening : Token) (elements : List Expr) :
    valueOver force (.sequence opening elements) =
      if elements.head?.any Expr.isBinding then
        entriesOver force [] elements >>= fun t => pure (.table t)
      else itemsOver force elements >>= fun vs => pure (.list vs) := by
  rw [valueOver]

theorem itemsOver_cons (e : Expr) (es : List Expr) :
    itemsOver force (e :: es) =
      if e.isBinding then fail .expectedElement e.anchor
      else valueOver force e >>= fun v => itemsOver force es >>= fun vs => pure (v :: vs) := by
  rw [itemsOver]
  rfl

theorem entriesOver_binding (t : Table) (left : Expr) (colon : Token) (right : Expr)
    (es : List Expr) :
    entriesOver force t (.binding left colon right :: es) =
      nameOr .string left.name? (valueOver force left) >>= fun key =>
        valueOver force right >>= fun v =>
          warnIf (t.contains key) (.duplicateKey key) colon >>= fun _ =>
            entriesOver force (t.insert key v) es := by
  have hw : ∀ (found : Bool) (cause : WarningCause) (k : Unit → Eval Table),
      (warnIf found cause colon >>= k) =
        if found = true then warn cause colon >>= k else k () := by
    intro found cause k
    cases found <;> rfl
  rw [entriesOver]
  simp only [hw]
  cases left.name? <;> rfl

theorem entriesOver_other (t : Table) {e : Expr} (h : e.isBinding = false) (es : List Expr) :
    entriesOver force t (e :: es) = fail .expectedEntry e.anchor := by
  cases e with
  | binding left colon right => simp [Expr.isBinding] at h
  | _ => rw [entriesOver]; simp

end LazyDecl.Eval
