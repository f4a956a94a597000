import LazyDecl.Proofs.Eval.Program
import LazyDecl.Proofs.Eval.Simulation

/-!
What an expression does, laid out step by step: it ends, fails, warns, or asks for
the value of a name and goes on with it. A plan has no loop and starts no other
declaration by itself; performed against the table, the plan of an expression is the
evaluation of it (`perform_ofExpr`).
-/

namespace LazyDecl

/-- A question for the value of a name, with what there is to say if the name is not
declared, and the complaint if its declaration is running. -/
structure Query where
  name : String
  absent : Except EvalError Value
  cycle : EvalError

/-- A name in an expression must be declared. -/
def Query.ofToken (t : Token) : Query where
  name := t.lexeme
  absent := .error ⟨.unknownName t.lexeme, t⟩
  cycle := ⟨.cyclicDeclaration t.lexeme, t⟩

/-- A name that the prompt follows may be undeclared. -/
def Query.ofReference (anchor : Token) (name : String) : Query where
  name := name
  absent := .ok (.reference name)
  cycle := ⟨.cyclicDeclaration name, anchor⟩

inductive Plan (α : Type) where
  | done (a : α)
  | fail (e : EvalError)
  | warn (w : EvalWarning) (next : Plan α)
  | ask (q : Query) (next : Value → Plan α)

namespace Plan

variable {α β : Type}

def ofExcept : Except EvalError β → (β → Plan α) → Plan α
  | .ok b, k => k b
  | .error e, _ => .fail e

def lift (t : Token) : Except EvalCause β → (β → Plan α) → Plan α
  | .ok b, k => k b
  | .error cause, _ => .fail ⟨cause, t⟩

/-- A bare name taken as it stands, or else a key that is worked out. -/
def nameOr (wrap : String → Value) (name? : Option Token) (key : (Value → Plan α) → Plan α)
    (k : Value → Plan α) : Plan α :=
  match name? with
  | some t => k (wrap t.lexeme)
  | none => key k

def settle (operator : Token) (r : Value) (k : Value → Plan α) : Plan α :=
  if r.boolean?.isNone then .fail ⟨.notBooleans operator.lexeme r.typeName, operator⟩ else k r

def decideBy (op : LogicalOp) (operator : Token) (l : Value) (right : (Value → Plan α) → Plan α)
    (k : Value → Plan α) : Plan α :=
  match l.boolean? with
  | none => .fail ⟨.notBooleans operator.lexeme l.typeName, operator⟩
  | some b =>
    if b = op.settledBy then k (.boolean b) else right fun r => settle operator r k

def warnIf (found : Bool) (cause : WarningCause) (t : Token) (next : Plan α) : Plan α :=
  if found then .warn ⟨cause, t⟩ next else next

mutual

/-- What is done for the value of an expression, and with it from then on. -/
def ofExpr : Expr → (Value → Plan α) → Plan α
  | .literal value _, k => k (.ofLiteral value)
  | .name t, k => .ask (.ofToken t) k
  | .grouping inner, k => ofExpr inner k
  | .unary op operator operand, k =>
    if op = .complement then .fail ⟨.unsupportedComplement, operator⟩
    else ofExpr operand fun v => lift operator (op.apply v) k
  | .binary op operator left right, k =>
    ofExpr left fun l => ofExpr right fun r => lift operator (op.apply operator.lexeme l r) k
  | .logical op operator left right, k =>
    ofExpr left fun l => decideBy op operator l (ofExpr right) k
  | .binding left _ right, k =>
    nameOr .reference left.name? (ofExpr left) fun key => ofExpr right fun v => k (.pair key v)
  | .sequence _ elements, k =>
    if elements.head?.any Expr.isBinding then ofEntries [] elements fun t => k (.table t)
    else ofItems elements fun vs => k (.list vs)
  | .builder kind _, k => k (.builder kind.lexeme)

def ofItems : List Expr → (List Value → Plan α) → Plan α
  | [], k => k []
  | e :: es, k =>
    if e.isBinding then .fail ⟨.expectedElement, e.anchor⟩
    else ofExpr e fun v => ofItems es fun vs => k (v :: vs)

def ofEntries (t : Table) : List Expr → (Table → Plan α) → Plan α
  | [], k => k t
  | .binding left colon right :: es, k =>
    nameOr .string left.name? (ofExpr left) fun key => ofExpr right fun v =>
      warnIf (t.contains key) (.duplicateKey key) colon (ofEntries (t.insert key v) es k)
  | e :: _, _ => .fail ⟨.expectedEntry, e.anchor⟩

end

end Plan

namespace Query

/-- The answer that the table gives: the memo of the name is forced. -/
def answer (q : Query) : Eval Value := fun s =>
  match s.declarations.find? q.name with
  | none => match q.absent with
    | .ok v => .ok v s
    | .error e => .error e s
  | some memo => memo.force (Eval.put q.name) q.cycle Eval.value s

theorem answer_ofToken (t : Token) : (ofToken t).answer = Eval.force t := by
  funext s
  rw [Eval.force_eq]
  cases h : s.declarations.find? t.lexeme with
  | none =>
    simp only [answer, ofToken, h]
    exact (Eval.forceOver_none h).symm
  | some memo =>
    simp only [answer, ofToken, h]
    exact (Eval.forceOver_some h).symm

theorem answer_ofReference (anchor : Token) (name : String) :
    (ofReference anchor name).answer = Eval.dereference anchor (.reference name) := by
  funext s
  simp only [answer, ofReference, Eval.dereference, Eval.get_bind]
  cases s.declarations.find? name <;> rfl

end Query

namespace Plan

variable {α β : Type}

/-- Carries a plan out. -/
def perform : Plan α → Eval α
  | .done a => pure a
  | .fail e => throw e
  | .warn w next => Eval.warn w.cause w.token >>= fun _ => next.perform
  | .ask q next => q.answer >>= fun v => (next v).perform

/-! ## The plan of an expression -/

theorem perform_lift (t : Token) (r : Except EvalCause β) (k : β → Plan α) :
    (lift t r k).perform = Eval.lift t r >>= fun b => (k b).perform := by
  cases r with
  | ok b => exact (pure_bind b fun b => (k b).perform).symm
  | error cause => rfl

theorem perform_nameOr (wrap : String → Value) (name? : Option Token)
    {key : (Value → Plan α) → Plan α} {x : Eval Value}
    (h : ∀ k, (key k).perform = x >>= fun v => (k v).perform) (k : Value → Plan α) :
    (nameOr wrap name? key k).perform =
      Eval.nameOr wrap name? x >>= fun v => (k v).perform := by
  cases name? with
  | none => exact h k
  | some t => exact (pure_bind (wrap t.lexeme) fun v => (k v).perform).symm

theorem perform_settle (operator : Token) (r : Value) (k : Value → Plan α) :
    (settle operator r k).perform = Eval.settle operator r >>= fun v => (k v).perform := by
  unfold settle Eval.settle
  split
  · rfl
  · exact (pure_bind r fun v => (k v).perform).symm

theorem perform_decideBy (op : LogicalOp) (operator : Token) (l : Value)
    {right : (Value → Plan α) → Plan α} {x : Eval Value}
    (h : ∀ k, (right k).perform = x >>= fun v => (k v).perform) (k : Value → Plan α) :
    (decideBy op operator l right k).perform =
      Eval.decideBy op operator l x >>= fun v => (k v).perform := by
  unfold decideBy Eval.decideBy
  cases l.boolean? with
  | none => rfl
  | some b =>
    dsimp only
    split
    · exact (pure_bind (Value.boolean b) fun v => (k v).perform).symm
    · rw [h, bind_assoc]
      exact congrArg _ (funext fun r => perform_settle operator r k)

theorem perform_warnIf (found : Bool) (cause : WarningCause) (t : Token) (next : Plan α) :
    (warnIf found cause t next).perform =
      Eval.warnIf found cause t >>= fun _ => next.perform := by
  cases found with
  | true => rfl
  | false => exact (pure_bind () fun _ => next.perform).symm

section Trees

variable {force : Token → Eval Value}

mutual

theorem perform_ofExprOver (h : ∀ t, (Query.ofToken t).answer = force t) (e : Expr)
    (k : Value → Plan α) :
    (ofExpr e k).perform = Eval.valueOver force e >>= fun v => (k v).perform := by
  match e with
  | .literal .. | .builder .. =>
    rw [ofExpr, Eval.valueOver, pure_bind]
  | .name t =>
    rw [ofExpr, perform, h, Eval.valueOver]
  | .grouping inner =>
    rw [ofExpr, Eval.valueOver]
    exact perform_ofExprOver h inner k
  | .unary op operator operand =>
    rw [ofExpr, Eval.valueOver_unary]
    split
    · rfl
    · rw [perform_ofExprOver h, bind_assoc]
      exact congrArg _ (funext fun v => perform_lift ..)
  | .binary op operator left right =>
    rw [ofExpr, Eval.valueOver_binary, perform_ofExprOver h, bind_assoc]
    refine congrArg _ (funext fun l => ?_)
    rw [perform_ofExprOver h, bind_assoc]
    exact congrArg _ (funext fun r => perform_lift ..)
  | .logical op operator left right =>
    rw [ofExpr, Eval.valueOver_logical, perform_ofExprOver h, bind_assoc]
    exact congrArg _ (funext fun l =>
      perform_decideBy op operator l (perform_ofExprOver h right) k)
  | .binding left colon right =>
    rw [ofExpr, Eval.valueOver_binding, perform_nameOr _ _ (perform_ofExprOver h left), bind_assoc]
    refine congrArg _ (funext fun key => ?_)
    simp only [perform_ofExprOver h, bind_assoc, pure_bind]
  | .sequence opening elements =>
    rw [ofExpr, Eval.valueOver_sequence]
    split
    · simp only [perform_ofEntriesOver h, bind_assoc, pure_bind]
    · simp only [perform_ofItemsOver h, bind_assoc, pure_bind]

theorem perform_ofItemsOver (h : ∀ t, (Query.ofToken t).answer = force t) (es : List Expr)
    (k : List Value → Plan α) :
    (ofItems es k).perform = Eval.itemsOver force es >>= fun vs => (k vs).perform := by
  match es with
  | [] => rw [ofItems, Eval.itemsOver, pure_bind]
  | e :: es =>
    rw [ofItems, Eval.itemsOver_cons]
    split
    · rfl
    · rw [perform_ofExprOver h, bind_assoc]
      refine congrArg _ (funext fun v => ?_)
      simp only [perform_ofItemsOver h, bind_assoc, pure_bind]

theorem perform_ofEntriesOver (h : ∀ t, (Query.ofToken t).answer = force t) (t : Table)
    (es : List Expr) (k : Table → Plan α) :
    (ofEntries t es k).perform = Eval.entriesOver force t es >>= fun t => (k t).perform := by
  match es with
  | [] => rw [ofEntries, Eval.entriesOver, pure_bind]
  | .binding left colon right :: es =>
    rw [ofEntries, Eval.entriesOver_binding, perform_nameOr _ _ (perform_ofExprOver h left),
      bind_assoc]
    refine congrArg _ (funext fun key => ?_)
    rw [perform_ofExprOver h, bind_assoc]
    refine congrArg _ (funext fun v => ?_)
    rw [perform_warnIf, bind_assoc]
    exact congrArg _ (funext fun _ => perform_ofEntriesOver h (t.insert key v) es k)
  | .literal .. :: es | .name .. :: es | .grouping .. :: es | .unary .. :: es
  | .binary .. :: es | .logical .. :: es | .sequence .. :: es | .builder .. :: es =>
    rw [Eval.entriesOver_other _ _ rfl]
    rfl

end

end Trees

/-- **Plans are faithful.** To carry out the plan of an expression is to evaluate the
expression and to go on with its value. -/
theorem perform_ofExpr (e : Expr) (k : Value → Plan α) :
    (ofExpr e k).perform = Eval.value e >>= fun v => (k v).perform :=
  perform_ofExprOver Query.answer_ofToken e k

end Plan

end LazyDecl
