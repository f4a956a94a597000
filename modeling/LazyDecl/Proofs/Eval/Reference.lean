import LazyDecl.Proofs.Eval.Expression
import LazyDecl.Proofs.Expr

/-!
An evaluator without memos. It keeps no state: it is given the expressions that
names were declared to stand for and the names that are in progress, and works an
expression out anew wherever its name is met.

* `value_mono`: a value does not depend on which names are in progress, as long as
  none is added;
* `value_append`: nor on names that are declared later;
* `value_isReference`: no expression has a reference as its value.
-/

namespace LazyDecl.Reference

open Eval (nameOr)

/-- Names with the expressions that they were declared to stand for. -/
abbrev Bodies := List (String × Expr)

def lift {α : Type} (t : Token) : Except EvalCause α → Except EvalError α
  | .ok a => .ok a
  | .error cause => .error ⟨cause, t⟩

def settle (operator : Token) (r : Value) : Except EvalError Value :=
  if r.boolean?.isNone then .error ⟨.notBooleans operator.lexeme r.typeName, operator⟩ else .ok r

def decideBy (op : LogicalOp) (operator : Token) (l : Value) (right : Except EvalError Value) :
    Except EvalError Value :=
  match l.boolean? with
  | none => .error ⟨.notBooleans operator.lexeme l.typeName, operator⟩
  | some b => if b = op.settledBy then .ok (.boolean b) else right.bind (settle operator)

mutual

/-- The value of an expression, where `lookup` gives the value of a name. -/
def valueOver (lookup : Token → Except EvalError Value) : Expr → Except EvalError Value
  | .literal value _ => .ok (.ofLiteral value)
  | .name t => lookup t
  | .grouping inner => valueOver lookup inner
  | .unary op operator operand =>
    if op = .complement then .error ⟨.unsupportedComplement, operator⟩
    else (valueOver lookup operand).bind fun v => lift operator (op.apply v)
  | .binary op operator left right =>
    (valueOver lookup left).bind fun l => (valueOver lookup right).bind fun r =>
      lift operator (op.apply operator.lexeme l r)
  | .logical op operator left right =>
    (valueOver lookup left).bind fun l => decideBy op operator l (valueOver lookup right)
  | .binding left _ right =>
    (nameOr .reference left.name? (valueOver lookup left)).bind fun key =>
      (valueOver lookup right).bind fun v => .ok (.pair key v)
  | .sequence _ elements =>
    if elements.head?.any Expr.isBinding then (entriesOver lookup [] elements).map .table
    else (itemsOver lookup elements).map .list
  | .builder kind _ => .ok (.builder kind.lexeme)

def itemsOver (lookup : Token → Except EvalError Value) :
    List Expr → Except EvalError (List Value)
  | [] => .ok []
  | e :: es =>
    if e.isBinding then .error ⟨.expectedElement, e.anchor⟩
    else (valueOver lookup e).bind fun v => (itemsOver lookup es).map (v :: ·)

def entriesOver (lookup : Token → Except EvalError Value) (t : Table) :
    List Expr → Except EvalError Table
  | [] => .ok t
  | .binding left _ right :: es =>
    (nameOr .string left.name? (valueOver lookup left)).bind fun key =>
      (valueOver lookup right).bind fun v => entriesOver lookup (t.insert key v) es
  | e :: _ => .error ⟨.expectedEntry, e.anchor⟩

end

/-- How many declarations are not in progress. -/
def idle (bodies : Bodies) (progress : List String) : Nat :=
  bodies.countP fun e => decide (e.1 ∉ progress)

theorem idle_cons_le (bodies : Bodies) (progress : List String) (name : String) :
    idle bodies (name :: progress) ≤ idle bodies progress := by
  refine List.countP_mono_left fun e _ he => ?_
  simp only [decide_eq_true_eq, List.mem_cons, not_or] at he ⊢
  exact he.2

theorem idle_cons_lt {bodies : Bodies} {progress : List String} {name : String} {body : Expr}
    (h : bodies.lookup name = some body) (hp : name ∉ progress) :
    idle bodies (name :: progress) < idle bodies progress := by
  obtain ⟨before, after, rfl, -⟩ := List.lookup_eq_some_iff.1 h
  have hb := idle_cons_le before progress name
  have ha := idle_cons_le after progress name
  have hl : decide (name ∉ name :: progress) = false := by simp
  have hr : decide (name ∉ progress) = true := by simp [hp]
  simp only [idle, List.countP_append, List.countP_cons, hl, hr] at hb ha ⊢
  simp only [Bool.false_eq_true, if_false, if_true]
  omega

/-- The value of a name: its expression, worked out while the name is in progress. -/
def force (bodies : Bodies) (progress : List String) (t : Token) : Except EvalError Value :=
  match _h : bodies.lookup t.lexeme with
  | none => .error ⟨.unknownName t.lexeme, t⟩
  | some body =>
    if _hp : t.lexeme ∈ progress then .error ⟨.cyclicDeclaration t.lexeme, t⟩
    else valueOver (force bodies (t.lexeme :: progress)) body
termination_by idle bodies progress
decreasing_by exact idle_cons_lt _h _hp

def value (bodies : Bodies) (progress : List String) (e : Expr) : Except EvalError Value :=
  valueOver (force bodies progress) e

/-! ## Units -/

/-- The name and the expression that a well-formed declaration installs. -/
def declared? : Item → Option (String × Expr)
  | .statement s =>
    if s.tag.lexeme = Eval.declarationTag then
      match s.value with
      | .binding left _ body => left.name?.map fun name => (name.lexeme, body)
      | _ => none
    else none
  | .expression _ => none

theorem declared?_eq_some {u : Item} {name : String} {body : Expr}
    (h : declared? u = some (name, body)) : ∃ tag left colon t,
      u = .statement ⟨tag, .binding left colon body⟩ ∧ tag.lexeme = Eval.declarationTag ∧
        left.name? = some t ∧ t.lexeme = name := by
  cases u with
  | expression e => cases h
  | statement s =>
    obtain ⟨tag, e⟩ := s
    simp only [declared?] at h
    split at h
    · next ht =>
      cases e with
      | binding left colon body' =>
        cases hn : left.name? with
        | none => simp [hn] at h
        | some t =>
          simp only [hn, Option.map_some, Option.some.injEq, Prod.mk.injEq] at h
          exact ⟨tag, left, colon, t, by rw [h.2], ht, hn, h.1⟩
      | _ => cases h
    · cases h

/-- What units declare, taken apart at the first one. -/
theorem append_declared (bodies : Bodies) (u : Item) (us : List Item) :
    bodies ++ (u :: us).filterMap declared? =
      (bodies ++ (declared? u).toList) ++ us.filterMap declared? := by
  rw [List.filterMap_cons]
  cases declared? u <;> simp

/-- What a declaration comes to: nothing, unless it is no binding of a name. -/
def declaration (s : Statement) : Except EvalError (Option Value) :=
  match s.value with
  | .binding left _ _ =>
    if left.name?.isSome then .ok none else .error ⟨.expectedBinding, left.anchor⟩
  | _ => .error ⟨.expectedBinding, s.tag⟩

def item (bodies : Bodies) : Item → Except EvalError (Option Value)
  | .statement s =>
    if s.tag.lexeme = Eval.declarationTag then declaration s
    else (value bodies [] s.value).map some
  | .expression e => (value bodies [] e).map some

/-- What units come to one after the other, each where the ones before it have declared. -/
def items (bodies : Bodies) : List Item → List (Except EvalError (Option Value))
  | [] => []
  | u :: us => item bodies u :: items (bodies ++ (declared? u).toList) us

/-- What the programs of a session come to. -/
def programs (bodies : Bodies) : List Program → List (List (Except EvalError (Option Value)))
  | [] => []
  | p :: ps => items bodies p.items :: programs (bodies ++ p.items.filterMap declared?) ps

section Lookup

variable {bodies : Bodies} {progress : List String} {t : Token}

theorem force_none (h : bodies.lookup t.lexeme = none) :
    force bodies progress t = .error ⟨.unknownName t.lexeme, t⟩ := by
  rw [force]
  split
  · rfl
  · next hs => rw [h] at hs; cases hs

theorem force_cyclic {body : Expr} (h : bodies.lookup t.lexeme = some body)
    (hp : t.lexeme ∈ progress) :
    force bodies progress t = .error ⟨.cyclicDeclaration t.lexeme, t⟩ := by
  rw [force]
  split
  · next hs => rw [h] at hs; cases hs
  · rw [dif_pos hp]

theorem force_some {body : Expr} (h : bodies.lookup t.lexeme = some body)
    (hp : t.lexeme ∉ progress) :
    force bodies progress t = value bodies (t.lexeme :: progress) body := by
  rw [force]
  split
  · next hs => rw [h] at hs; cases hs
  · next body' hs =>
    rw [h] at hs
    cases hs
    rw [dif_neg hp]
    rfl

end Lookup

/-! ## Fewer names in progress -/

/-- Where the first computation has a value, the second has the same one. -/
def Below {α : Type} (x y : Except EvalError α) : Prop := ∀ a, x = .ok a → y = .ok a

section Steps

variable {α β : Type} {x y : Except EvalError α}

theorem Below.refl (x : Except EvalError α) : Below x x := fun _ h => h

theorem Below.bind {k l : α → Except EvalError β} (h : Below x y) (hk : ∀ a, Below (k a) (l a)) :
    Below (x.bind k) (y.bind l) := by
  intro b hb
  cases x with
  | error e => cases hb
  | ok a =>
    rw [h a rfl]
    exact hk a b hb

theorem Below.map (h : Below x y) (f : α → β) : Below (x.map f) (y.map f) := by
  intro b hb
  cases x with
  | error e => cases hb
  | ok a =>
    rw [h a rfl]
    exact hb

theorem Below.ite {c : Prop} [Decidable c] {x' y' : Except EvalError α} (h : Below x y)
    (h' : Below x' y') : Below (if c then x else x') (if c then y else y') := by
  split
  · exact h
  · exact h'

theorem Below.nameOr (wrap : String → Value) (name? : Option Token)
    {key key' : Except EvalError Value} (h : Below key key') :
    Below (nameOr wrap name? key) (nameOr wrap name? key') := by
  cases name? with
  | none => exact h
  | some t => exact .refl _

theorem Below.decideBy (op : LogicalOp) (operator : Token) (l : Value)
    {right right' : Except EvalError Value} (h : Below right right') :
    Below (decideBy op operator l right) (decideBy op operator l right') := by
  unfold Reference.decideBy
  cases l.boolean? with
  | none => exact .refl _
  | some b => exact .ite (.refl _) (h.bind fun r => .refl _)

end Steps

section Trees

variable {lookup lookup' : Token → Except EvalError Value}

mutual

theorem valueOver_below (h : ∀ t, Below (lookup t) (lookup' t)) (e : Expr) :
    Below (valueOver lookup e) (valueOver lookup' e) := by
  match e with
  | .literal .. | .builder .. => exact .refl _
  | .name t => exact h t
  | .grouping inner => exact valueOver_below h inner
  | .unary op operator operand =>
    exact .ite (.refl _) ((valueOver_below h operand).bind fun v => .refl _)
  | .binary op operator left right =>
    exact (valueOver_below h left).bind fun l => (valueOver_below h right).bind fun r => .refl _
  | .logical op operator left right =>
    exact (valueOver_below h left).bind fun l => .decideBy op operator l (valueOver_below h right)
  | .binding left colon right =>
    exact (Below.nameOr _ _ (valueOver_below h left)).bind fun key =>
      (valueOver_below h right).bind fun v => .refl _
  | .sequence opening elements =>
    exact .ite ((entriesOver_below h [] elements).map _) ((itemsOver_below h elements).map _)

theorem itemsOver_below (h : ∀ t, Below (lookup t) (lookup' t)) (es : List Expr) :
    Below (itemsOver lookup es) (itemsOver lookup' es) := by
  match es with
  | [] => exact .refl _
  | e :: es =>
    exact .ite (.refl _) ((valueOver_below h e).bind fun v => (itemsOver_below h es).map _)

theorem entriesOver_below (h : ∀ t, Below (lookup t) (lookup' t)) (t : Table) (es : List Expr) :
    Below (entriesOver lookup t es) (entriesOver lookup' t es) := by
  match es with
  | [] => exact .refl _
  | .binding left colon right :: es =>
    exact (Below.nameOr _ _ (valueOver_below h left)).bind fun key =>
      (valueOver_below h right).bind fun v => entriesOver_below h (t.insert key v) es
  | .literal .. :: es | .name .. :: es | .grouping .. :: es | .unary .. :: es
  | .binary .. :: es | .logical .. :: es | .sequence .. :: es | .builder .. :: es =>
    exact .refl _

end

end Trees

/-- A name that has a value has the same one where more is declared and nothing that
was declared is newly in progress. -/
theorem force_below {bodies bodies' : Bodies} {progress progress' : List String}
    (hb : ∀ n body, bodies.lookup n = some body → bodies'.lookup n = some body)
    (hp : ∀ n ∈ progress', n ∈ progress ∨ bodies.lookup n = none) (t : Token) :
    Below (force bodies progress t) (force bodies' progress' t) := by
  intro v hv
  cases hl : bodies.lookup t.lexeme with
  | none =>
    rw [force_none hl] at hv
    cases hv
  | some body =>
    by_cases ht : t.lexeme ∈ progress
    · rw [force_cyclic hl ht] at hv
      cases hv
    · have ht' : t.lexeme ∉ progress' := by
        intro h
        rcases hp _ h with h | h
        · exact ht h
        · rw [hl] at h
          cases h
      have hp' : ∀ n ∈ t.lexeme :: progress', n ∈ t.lexeme :: progress ∨ bodies.lookup n = none := by
        intro n hn
        rcases List.mem_cons.1 hn with rfl | hn
        · exact Or.inl (List.mem_cons_self ..)
        · exact (hp n hn).imp_left (List.mem_cons_of_mem _)
      rw [force_some hl ht] at hv
      rw [force_some (hb _ _ hl) ht']
      exact valueOver_below (force_below hb hp') body v hv
termination_by idle bodies progress
decreasing_by exact idle_cons_lt hl ht

theorem force_mono {bodies : Bodies} {progress progress' : List String}
    (h : progress' ⊆ progress) (t : Token) :
    Below (force bodies progress t) (force bodies progress' t) :=
  force_below (fun _ _ hl => hl) (fun _ hn => Or.inl (h hn)) t

/-- **Monotonicity.** A value does not depend on the names that are in progress, as
long as none is added. -/
theorem value_mono {bodies : Bodies} {progress progress' : List String}
    (h : progress' ⊆ progress) (e : Expr) :
    Below (value bodies progress e) (value bodies progress' e) :=
  valueOver_below (force_mono h) e

/-- A value stays the same when a further name is declared, even while it is in progress. -/
theorem value_append {bodies : Bodies} {name : String} (h : bodies.lookup name = none)
    (body : Expr) (progress : List String) (e : Expr) :
    Below (value bodies progress e) (value (bodies ++ [(name, body)]) (name :: progress) e) := by
  refine valueOver_below (force_below (fun n b hl => ?_) fun n hn => ?_) e
  · rw [List.lookup_append, hl, Option.some_or]
  · rcases List.mem_cons.1 hn with rfl | hn
    · exact Or.inr h
    · exact Or.inl hn

/-! ## Values that are no references -/

def isReference : Value → Bool
  | .reference _ => true
  | _ => false

/-- The prompt has nothing to follow in a value that is no reference. -/
theorem dereference_of_not_reference (anchor : Token) {v : Value}
    (h : isReference v = false) : Eval.dereference anchor v = pure v := by
  cases v with
  | reference name => cases h
  | _ => rfl

theorem isReference_ofLiteral (l : Literal) : isReference (.ofLiteral l) = false := by
  cases l <;> rfl

theorem isReference_unary {op : UnaryOp} {u v : Value} (h : op.apply u = .ok v) :
    isReference v = false := by
  cases op <;> cases u <;> simp only [UnaryOp.apply, Except.ok.injEq, reduceCtorEq] at h <;>
    subst h <;> rfl

theorem isReference_arithmetic {op : BinaryOp} {operands : Operands} {v : Value}
    (h : operands.apply op = .ok v) : isReference v = false := by
  cases operands <;> cases op <;> simp only [Operands.apply, Except.ok.injEq, reduceCtorEq] at h <;>
    (try split at h) <;> cases h <;> rfl

theorem isReference_operands {op : BinaryOp} {operator : String} {l r v : Value}
    (h : BinaryOp.arithmetic op operator l r = .ok v) : isReference v = false := by
  unfold BinaryOp.arithmetic BinaryOp.operands at h
  cases ho : Operands.ofValues? l r with
  | none =>
    rw [ho] at h
    cases h
  | some operands =>
    rw [ho] at h
    dsimp only [bind, Except.bind] at h
    cases ha : operands.apply op with
    | ok u =>
      rw [ha] at h
      cases h
      exact isReference_arithmetic ha
    | error e =>
      rw [ha] at h
      cases e <;> cases h

theorem isReference_ordered {holds : Ordering → Bool} {operator : String} {l r v : Value}
    (h : BinaryOp.ordered holds operator l r = .ok v) : isReference v = false := by
  unfold BinaryOp.ordered BinaryOp.operands at h
  cases ho : Operands.ofValues? l r with
  | none =>
    rw [ho] at h
    cases h
  | some operands =>
    rw [ho] at h
    cases h
    rfl

theorem isReference_binary {op : BinaryOp} {operator : String} {l r v : Value}
    (h : op.apply operator l r = .ok v) : isReference v = false := by
  cases op with
  | equal | notEqual =>
    cases h
    rfl
  | less | lessEqual | greater | greaterEqual => exact isReference_ordered h
  | sub | mul | div => exact isReference_operands h
  | add =>
    simp only [BinaryOp.apply] at h
    split at h
    · cases h
      rfl
    · exact isReference_operands h

theorem isReference_lift {t : Token} {r : Except EvalCause Value} {v : Value}
    (h : lift t r = .ok v) : r = .ok v := by
  cases r with
  | ok a =>
    cases h
    rfl
  | error cause => cases h

/-- The result of a step that has one, and the step that is left. -/
theorem bind_eq_ok {α β : Type} {x : Except EvalError α} {k : α → Except EvalError β} {b : β}
    (h : x.bind k = .ok b) : ∃ a, x = .ok a ∧ k a = .ok b := by
  cases x with
  | ok a => exact ⟨a, rfl, h⟩
  | error e => cases h

theorem valueOver_isReference {lookup : Token → Except EvalError Value}
    (hl : ∀ t v, lookup t = .ok v → isReference v = false) (e : Expr) {v : Value}
    (h : valueOver lookup e = .ok v) : isReference v = false := by
  match e with
  | .literal value token =>
    cases h
    exact isReference_ofLiteral value
  | .name t => exact hl t v h
  | .grouping inner => exact valueOver_isReference hl inner h
  | .unary op operator operand =>
    simp only [valueOver] at h
    split at h
    · cases h
    · obtain ⟨u, -, hu⟩ := bind_eq_ok h
      exact isReference_unary (isReference_lift hu)
  | .binary op operator left right =>
    obtain ⟨l, -, h⟩ := bind_eq_ok h
    obtain ⟨r, -, h⟩ := bind_eq_ok h
    exact isReference_binary (isReference_lift h)
  | .logical op operator left right =>
    obtain ⟨l, -, h⟩ := bind_eq_ok h
    unfold decideBy at h
    cases hb : l.boolean? with
    | none =>
      rw [hb] at h
      cases h
    | some b =>
      rw [hb] at h
      dsimp only at h
      split at h
      · cases h
        rfl
      · obtain ⟨r, hr, hs⟩ := bind_eq_ok h
        unfold settle at hs
        split at hs
        · cases hs
        · cases hs
          exact valueOver_isReference hl right hr
  | .binding left colon right =>
    obtain ⟨key, -, h⟩ := bind_eq_ok h
    obtain ⟨u, -, h⟩ := bind_eq_ok h
    cases h
    rfl
  | .sequence opening elements =>
    simp only [valueOver] at h
    split at h
    · cases ht : entriesOver lookup [] elements with
      | ok t => rw [ht] at h; cases h; rfl
      | error e => rw [ht] at h; cases h
    · cases ht : itemsOver lookup elements with
      | ok vs => rw [ht] at h; cases h; rfl
      | error e => rw [ht] at h; cases h
  | .builder kind body =>
    cases h
    rfl

theorem force_isReference {bodies : Bodies} {progress : List String} {t : Token} {v : Value}
    (h : force bodies progress t = .ok v) : isReference v = false := by
  cases hb : bodies.lookup t.lexeme with
  | none =>
    rw [force_none hb] at h
    cases h
  | some body =>
    by_cases hp : t.lexeme ∈ progress
    · rw [force_cyclic hb hp] at h
      cases h
    · rw [force_some hb hp] at h
      exact valueOver_isReference (fun u w hu => force_isReference hu) body h
termination_by idle bodies progress
decreasing_by exact idle_cons_lt hb hp

/-- The value of an expression is no reference. -/
theorem value_isReference {bodies : Bodies} {progress : List String} {e : Expr} {v : Value}
    (h : value bodies progress e = .ok v) : isReference v = false :=
  valueOver_isReference (fun _ _ => force_isReference) e h

end LazyDecl.Reference
