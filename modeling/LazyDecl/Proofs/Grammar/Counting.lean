import LazyDecl.Grammar.Units
import LazyDecl.Proofs.Grammar.Steps

/-!
The grammar over one state for a whole run of tokens. The state holds the input, with what its
last step has left behind, and counts the builders that are open: a builder adds one to the
counter in front of its statements and takes it off behind them, also if they fail. Whether a
closing brace ends a unit is read off the counter.

* `statement_eq`: at a depth, a statement is what it is for the parser of the grammar that is told
  whether it is inside a builder, and the depth stays as it was;
* `statement_apply`, `item_apply`: so outside of builders a unit is what it is for the grammar.
-/

namespace LazyDecl.Grammar

open LazyDecl.Parser

/-- What a run over tokens keeps between its steps. -/
structure Reader where
  input : Input
  /-- How many builders are open. -/
  depth : Nat := 0

abbrev Counting := EStateM SyntaxError Reader

namespace Counting

variable {α β : Type}

/-- A parser of the input, which may be told the depth but does not change it. -/
def atDepth (f : Nat → Parser α) : Counting α := fun c =>
  match f c.depth c.input with
  | .ok a j => .ok a { c with input := j }
  | .error e j => .error e { c with input := j }

/-- A parser of the input to which the depth makes no difference. -/
abbrev still (p : Parser α) : Counting α := atDepth fun _ => p

/-- Counts a builder as open while its statements are read. -/
def enclosed (x : Counting α) : Counting α := fun c =>
  match x { c with depth := c.depth + 1 } with
  | .ok a d => .ok a { d with depth := d.depth - 1 }
  | .error e d => .error e { d with depth := d.depth - 1 }

/-- Repeats a step until it declines; one that reads nothing is the last. -/
def many (step : Counting (Option α)) (c : Reader) : EStateM.Result SyntaxError Reader (List α) :=
  match step c with
  | .error e d => .error e d
  | .ok none d => .ok [] d
  | .ok (some a) d =>
    if d.input.size < c.input.size then
      match many step d with
      | .ok as b => .ok (a :: as) b
      | .error e b => .error e b
    else .ok [a] d
termination_by c.input.size

/-! ## The grammar -/

def infixLevel (level : Level) (operand : Counting Expr) : Counting Expr := do
  let first ← operand
  let joined ← many do
    match ← still (take? .visible (infixNode? level)) with
    | some (node, operator) => return some (node operator, ← operand)
    | none => return none
  return joined.foldl (fun left (node, right) => node left right) first

def expressionOver (operand : Counting Expr) : Counting Expr :=
  infixLevel .or <| infixLevel .and <| infixLevel .equality <|
    infixLevel .comparison <| infixLevel .term <| infixLevel .factor operand

/-- A closing brace ends a unit if the counter says that a builder is open. -/
def unitEnd (cause : SyntaxCause) : Counting Unit :=
  atDepth fun depth => Grammar.unitEnd (0 < depth) cause

def statementOver (operand : Counting Expr) : Counting Statement := do
  let tag ← still (expect .identifier .expectedTag)
  let value ← expressionOver operand
  unitEnd .expectedStatementEnd
  return { tag, value }

def builderOver (operand : Counting Expr) (kind : Token) : Counting Expr := do
  let _ ← still (advance .visible)
  let body ← enclosed <| many do
    let i ← still get
    if i.check .visible .rightBrace || i.isAtEnd .visible then return none
    else return some (← statementOver operand)
  let _ ← still (expect .rightBrace .expectedCloseBrace)
  return .builder kind body

def elementOver (operand : Counting Expr) (first : Expr) : Counting Expr := do
  let element ← expressionOver operand
  if first.isBinding && !element.isBinding then still (fail .expectedEntry element.anchor)
  else if !first.isBinding && element.isBinding then still (fail .expectedElement element.anchor)
  else return element

def sequenceOver (operand : Counting Expr) (opening : Token) : Counting Expr := do
  if (← still (accept .rightBracket)).isSome then return .sequence opening []
  let first ← expressionOver operand
  let others ← many do
    if (← still separators) && !(← still (check .visible .rightBracket)) then
      return some (← elementOver operand first)
    else return none
  let _ ← still (expect .rightBracket .expectedCloseBracket)
  return .sequence opening (first :: others)

def nameOver (operand : Counting Expr) (t : Token) : Counting Expr := do
  let i ← still get
  if !i.skipped && i.check .hidden .leftBrace then builderOver operand t else return .name t

def primaryOver (operand : Counting Expr) : Counting Expr := do
  let t ← still (peek .visible)
  match literal? t with
  | some read =>
    let _ ← still (advance .visible)
    match read with
    | .ok value => return .literal value t
    | .error cause => still (fail cause t)
  | none =>
    match t.kind with
    | .identifier =>
      let _ ← still (advance .visible)
      nameOver operand t
    | .leftParen =>
      let _ ← still (advance .visible)
      let inner ← expressionOver operand
      let _ ← still (expect .rightParen .expectedCloseParen)
      return .grouping inner
    | .leftBracket =>
      let _ ← still (advance .visible)
      sequenceOver operand t
    | _ => still (fail .expectedExpression t)

def bindingOver (operand : Counting Expr) : Counting Expr := do
  let left ← primaryOver operand
  match ← still (accept .colon) with
  | some colon => return .binding left colon (← expressionOver operand)
  | none => return left

def operandOver (operand : Counting Expr) : Counting Expr := do
  match ← still (take? .visible prefixOp?) with
  | some (op, operator) => return .unary op operator (← operand)
  | none => bindingOver operand

def operand (c : Reader) : EStateM.Result SyntaxError Reader Expr :=
  operandOver (fun d =>
    if d.input.size < c.input.size then operand d
    else .error ⟨.expectedExpression, d.input.peek .visible⟩ d) c
termination_by c.input.size

def statement : Counting Statement := statementOver operand

def item : Counting Item := do
  if opensStatement (← still get) then return .statement (← statement)
  else
    let e ← expressionOver operand
    unitEnd .expectedExpressionEnd
    return .expression e

/-! ## Units -/

/-- Where a unit starts. The prompt drops hidden tokens, if there are any; nothing else is
reset. -/
def turnStart (mode : Mode) (c : Reader) : Reader :=
  match mode with
  | .batch => c
  | .interactive =>
    if (c.input.peek .hidden).hidden then { c with input := unitStart .interactive c.input } else c

/-- Where reading goes on after a failure. At the end of the input nothing is done at all. -/
def synchronize (start i : Input) : Input := if i.isAtEnd .hidden then i else recover start i

/-- One unit or its error, and the state behind it. -/
def turn (unit : Counting α) (c : Reader) : Except SyntaxError α × Reader :=
  match unit c with
  | .ok a d => (.ok a, d)
  | .error e d => (.error e, { d with input := synchronize c.input d.input })

/-- All units in order, each from the state that the one before it has left. -/
def units (mode : Mode) (unit : Counting α) (c : Reader) : List (Except SyntaxError α) :=
  if c.input.isAtEnd .visible then []
  else
    let (result, d) := turn unit (turnStart mode c)
    if d.input.size < c.input.size then result :: units mode unit d else [result]
termination_by c.input.size

/-! ## Parsers that leave the depth as it was -/

section Kit

theorem atDepth_bind (f : Nat → Parser α) (k : α → Nat → Parser β) :
    (atDepth f >>= fun a => atDepth (k a)) = atDepth fun n => f n >>= fun a => k a n := by
  funext c
  simp only [atDepth, bind, EStateM.bind]
  cases f c.depth c.input with
  | ok a j => rfl
  | error e j => rfl

theorem atDepth_ite {c : Prop} [Decidable c] (f g : Nat → Parser α) :
    (if c then atDepth f else atDepth g) = atDepth fun n => if c then f n else g n := by
  split
  · rfl
  · rfl

/-- The counter is back where it was, whether the statements were read or failed. -/
theorem enclosed_atDepth (f : Nat → Parser α) :
    enclosed (atDepth f) = atDepth fun n => f (n + 1) := by
  funext c
  simp only [enclosed, atDepth]
  cases f (c.depth + 1) c.input with
  | ok a j => rfl
  | error e j => rfl

theorem many_atDepth (f : Nat → Parser (Option α)) :
    many (atDepth f) = atDepth fun n => Parser.many (f n) := by
  funext c
  obtain ⟨i, n⟩ := c
  generalize hs : i.size = size
  induction size using Nat.strongRecOn generalizing i with
  | _ size ih =>
    rw [many]
    simp only [atDepth]
    rw [Parser.many]
    cases f n i with
    | error e j => rfl
    | ok a? j =>
      cases a? with
      | none => rfl
      | some a =>
        dsimp only
        by_cases hlt : j.size < i.size
        · have hrest := ih j.size (hs ▸ hlt) j rfl
          rw [if_pos hlt, if_pos hlt, hrest]
          simp only [atDepth]
          cases Parser.many (f n) j with
          | ok as k => rfl
          | error e k => rfl
        · rw [if_neg hlt, if_neg hlt]

/-- A chain of parsers that leave the depth as it was does so, too. -/
theorem bind_eq_atDepth {x : Counting α} {f : Nat → Parser α} {y : α → Counting β}
    {k : α → Nat → Parser β} (hx : x = atDepth f) (hy : ∀ a, y a = atDepth (k a)) :
    x >>= y = atDepth fun n => f n >>= fun a => k a n := by
  rw [hx, funext hy, atDepth_bind]

theorem many_eq_atDepth {x : Counting (Option α)} {f : Nat → Parser (Option α)}
    (hx : x = atDepth f) : many x = atDepth fun n => Parser.many (f n) := by
  rw [hx, many_atDepth]

theorem ite_eq_atDepth {c : Prop} [Decidable c] {x y : Counting α} {f g : Nat → Parser α}
    (hx : x = atDepth f) (hy : y = atDepth g) :
    (if c then x else y) = atDepth fun n => if c then f n else g n := by
  rw [hx, hy, atDepth_ite]

end Kit

section Expressions

variable (p : Parser Expr)

theorem infixLevel_still (level : Level) :
    infixLevel level (still p) = still (Grammar.infixLevel level p) := by
  refine bind_eq_atDepth rfl fun first => bind_eq_atDepth (many_eq_atDepth ?_) fun joined => rfl
  refine bind_eq_atDepth rfl fun taken? => ?_
  cases taken? with
  | none => rfl
  | some taken => exact bind_eq_atDepth rfl fun right => rfl

theorem expressionOver_still : expressionOver (still p) = still (Grammar.expressionOver p) := by
  simp only [expressionOver, infixLevel_still]
  rfl

theorem statementOver_still :
    statementOver (still p) = atDepth fun n => Grammar.statementOver p (0 < n) :=
  bind_eq_atDepth rfl fun _ => bind_eq_atDepth (expressionOver_still p) fun _ =>
    bind_eq_atDepth rfl fun _ => rfl

theorem builderOver_still (kind : Token) :
    builderOver (still p) kind = still (Grammar.builderOver p kind) := by
  have hbody : (many do
      let i ← still get
      if i.check .visible .rightBrace || i.isAtEnd .visible then return none
      else return some (← statementOver (still p))) =
        atDepth fun n => Parser.many do
          let i ← get
          if i.check .visible .rightBrace || i.isAtEnd .visible then return none
          else return some (← Grammar.statementOver p (0 < n)) := by
    refine many_eq_atDepth (bind_eq_atDepth rfl fun i => ite_eq_atDepth rfl ?_)
    exact bind_eq_atDepth (statementOver_still p) fun s => rfl
  have henclosed := (congrArg enclosed hbody).trans (enclosed_atDepth _)
  refine bind_eq_atDepth rfl fun _ => bind_eq_atDepth henclosed fun body =>
    bind_eq_atDepth rfl fun _ => rfl

theorem elementOver_still (first : Expr) :
    elementOver (still p) first = still (Grammar.elementOver p first) :=
  bind_eq_atDepth (expressionOver_still p) fun _ =>
    ite_eq_atDepth rfl (ite_eq_atDepth rfl rfl)

theorem sequenceOver_still (opening : Token) :
    sequenceOver (still p) opening = still (Grammar.sequenceOver p opening) := by
  refine bind_eq_atDepth rfl fun _ => ite_eq_atDepth rfl ?_
  refine bind_eq_atDepth (expressionOver_still p) fun first =>
    bind_eq_atDepth (many_eq_atDepth ?_) fun _ => bind_eq_atDepth rfl fun _ => rfl
  exact bind_eq_atDepth rfl fun _ => bind_eq_atDepth rfl fun _ =>
    ite_eq_atDepth (bind_eq_atDepth (elementOver_still p first) fun _ => rfl) rfl

theorem nameOver_still (t : Token) : nameOver (still p) t = still (Grammar.nameOver p t) :=
  bind_eq_atDepth rfl fun _ => ite_eq_atDepth (builderOver_still p t) rfl

theorem primaryOver_still : primaryOver (still p) = still (Grammar.primaryOver p) := by
  refine bind_eq_atDepth rfl fun t => ?_
  cases literal? t with
  | some read =>
    refine bind_eq_atDepth rfl fun _ => ?_
    cases read with
    | ok value => rfl
    | error cause => rfl
  | none =>
    cases t.kind with
    | identifier => exact bind_eq_atDepth rfl fun _ => nameOver_still p t
    | leftParen =>
      exact bind_eq_atDepth rfl fun _ => bind_eq_atDepth (expressionOver_still p) fun _ =>
        bind_eq_atDepth rfl fun _ => rfl
    | leftBracket => exact bind_eq_atDepth rfl fun _ => sequenceOver_still p t
    | _ => rfl

theorem bindingOver_still : bindingOver (still p) = still (Grammar.bindingOver p) := by
  refine bind_eq_atDepth (primaryOver_still p) fun left => bind_eq_atDepth rfl fun colon? => ?_
  cases colon? with
  | none => rfl
  | some colon => exact bind_eq_atDepth (expressionOver_still p) fun _ => rfl

theorem operandOver_still : operandOver (still p) = still (Grammar.operandOver p) := by
  refine bind_eq_atDepth rfl fun taken? => ?_
  cases taken? with
  | none => exact bindingOver_still p
  | some taken => exact bind_eq_atDepth rfl fun _ => rfl

end Expressions

theorem still_congr {p q : Parser α} {i : Input} (h : p i = q i) (n : Nat) :
    still p ⟨i, n⟩ = still q ⟨i, n⟩ := by
  simp only [atDepth, h]

/-- By induction on the input: an operand holds operands on less input only. -/
theorem operand_still (c : Reader) : operand c = still Grammar.operand c := by
  obtain ⟨i, n⟩ := c
  generalize hs : i.size = size
  induction size using Nat.strongRecOn generalizing i n with
  | _ size ih =>
    obtain ⟨shorter, hshorter⟩ : ∃ p : Parser Expr, ∀ j, p j =
        if j.size < i.size then Grammar.operand j
        else .error ⟨.expectedExpression, j.peek .visible⟩ j := ⟨_, fun _ => rfl⟩
    have hguarded : (fun d : Reader => if d.input.size < i.size then operand d
        else .error ⟨.expectedExpression, d.input.peek .visible⟩ d) = still shorter := by
      funext ⟨j, m⟩
      by_cases hlt : j.size < i.size
      · have hj : shorter j = Grammar.operand j := (hshorter j).trans (if_pos hlt)
        rw [if_pos hlt, still_congr hj]
        exact ih j.size (hs ▸ hlt) j m rfl
      · have hj := (hshorter j).trans (if_neg hlt)
        simp only [if_neg hlt, atDepth, hj]
    have hround : Grammar.operandOver shorter i = Grammar.operand i := by
      rw [Grammar.operand, funext hshorter]
    rw [operand, hguarded, operandOver_still]
    exact still_congr hround n

/-- **At a depth, a statement is one inside a builder or outside of any.** -/
theorem statement_eq : statement =
    atDepth fun n => Grammar.statementOver Grammar.operand (0 < n) := by
  have hoperand : operand = still Grammar.operand := funext operand_still
  exact (congrArg statementOver hoperand).trans (statementOver_still _)

theorem statement_apply {c : Reader} (hc : c.depth = 0) :
    statement c = still Grammar.statement c := by
  obtain ⟨i, n⟩ := c
  obtain rfl : n = 0 := hc
  rw [statement_eq]
  rfl

theorem item_apply {c : Reader} (hc : c.depth = 0) : item c = still Grammar.item c := by
  have h : item = atDepth fun n => do
      if opensStatement (← get) then
        return .statement (← Grammar.statementOver Grammar.operand (0 < n))
      else
        let e ← Grammar.expressionOver Grammar.operand
        Grammar.unitEnd (0 < n) .expectedExpressionEnd
        return .expression e := by
    refine bind_eq_atDepth rfl fun i => ite_eq_atDepth ?_ ?_
    · exact bind_eq_atDepth statement_eq fun _ => rfl
    · have hoperand : operand = still Grammar.operand := funext operand_still
      exact bind_eq_atDepth ((congrArg expressionOver hoperand).trans (expressionOver_still _))
        fun _ => bind_eq_atDepth rfl fun _ => rfl
  obtain ⟨i, n⟩ := c
  obtain rfl : n = 0 := hc
  rw [h]
  rfl

end Counting

end LazyDecl.Grammar
