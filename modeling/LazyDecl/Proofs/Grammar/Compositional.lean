import LazyDecl.Proofs.Grammar.Steps

/-!
What holds of every result of the grammar. A property of results that holds of what reads no
token, of steps and of failures, and that a chain keeps, holds of all parsers of the grammar over
whatever operands it holds of (`Compositional.operandOver`), and so of the grammar itself
(`Compositional.operand`, `Compositional.statement`, `Compositional.item`).
-/

namespace LazyDecl

/-- Whether a failure is about a number that does not read. -/
def SyntaxCause.isNumber : SyntaxCause → Bool
  | invalidInteger | invalidDecimal => true
  | _ => false

namespace Grammar

open LazyDecl.Parser

/-- A property of what a parser returns at an input. -/
abbrev ResultProperty := (α : Type) → Input → EStateM.Result SyntaxError Input α → Prop

/-- The property holds of all results of the parser. -/
def Always (R : ResultProperty) {α : Type} (p : Parser α) : Prop := ∀ i, R α i (p i)

/-- A property that all pieces of the grammar have, and a chain of pieces with it. Of failures
that are about a number it is only asked where the number does not read. -/
structure Compositional (R : ResultProperty) : Prop where
  pure {α : Type} (a : α) : Always R (pure a : Parser α)
  get : Always R (get : Parser Input)
  advance (v : View) : Always R (advance v)
  fail {α : Type} {cause : SyntaxCause} {t : Token} :
    (cause.isNumber = true → literal? t = some (.error cause)) →
      Always R (fail cause t : Parser α)
  bind {α β : Type} {p : Parser α} {k : α → Parser β} :
    Always R p → (∀ a, Always R (k a)) → Always R (p >>= k)

namespace Compositional

variable {R : ResultProperty} {α : Type} (hR : Compositional R)

include hR

theorem fail_other {cause : SyntaxCause} (h : cause.isNumber = false) (t : Token) :
    Always R (Parser.fail cause t : Parser α) :=
  hR.fail fun h' => absurd (h.symm.trans h') nofun

theorem peek (v : View) : Always R (Parser.peek v) := hR.bind hR.get fun _ => hR.pure _

theorem check (v : View) (kind : TokenKind) : Always R (Parser.check v kind) :=
  hR.bind hR.get fun _ => hR.pure _

omit hR in
theorem ite {c : Prop} [Decidable c] {p q : Parser α} (hp : Always R p) (hq : Always R q) :
    Always R (if c then p else q) := by
  split
  · exact hp
  · exact hq

theorem take? (v : View) (f : TokenKind → Option α) : Always R (Parser.take? v f) := by
  refine hR.bind (hR.peek v) fun t => ?_
  cases f t.kind with
  | none => exact hR.pure none
  | some a => exact hR.bind (hR.advance v) fun _ => hR.pure _

theorem accept (kind : TokenKind) : Always R (Parser.accept kind) :=
  hR.bind (hR.check .visible kind) fun _ =>
    ite (hR.bind (hR.advance .visible) fun _ => hR.pure _) (hR.pure none)

theorem expect (kind : TokenKind) {cause : SyntaxCause} (h : cause.isNumber = false) :
    Always R (Parser.expect kind cause) := by
  refine hR.bind (hR.accept kind) fun t? => ?_
  cases t? with
  | some t => exact hR.pure t
  | none => exact hR.bind (hR.peek .visible) fun t => hR.fail_other h t

/-- A loop is a chain of its first round and a loop on less input. -/
theorem many {step : Parser (Option α)} (h : Always R step) : Always R (Parser.many step) := by
  intro i
  generalize hn : i.size = n
  induction n using Nat.strongRecOn generalizing i with
  | _ n ih =>
    let rest : Parser (List α) := fun j =>
      if j.size < i.size then Parser.many step j else .ok [] j
    have hrest : Always R rest := by
      intro j
      dsimp only [rest]
      split
      · rename_i hlt
        exact ih j.size (hn ▸ hlt) j rfl
      · exact hR.pure [] j
    have hround : Parser.many step i = (step >>= fun a? => match a? with
        | none => Pure.pure []
        | some a => rest >>= fun as => Pure.pure (a :: as)) i := by
      rw [Parser.many, bind_apply]
      cases step i with
      | error e j => rfl
      | ok a? j =>
        cases a? with
        | none => rfl
        | some a =>
          dsimp only
          rw [bind_apply]
          dsimp only [rest]
          split
          · cases Parser.many step j <;> rfl
          · rfl
    rw [hround]
    refine hR.bind h (fun a? => ?_) i
    cases a? with
    | none => exact hR.pure []
    | some a => exact hR.bind hrest fun as => hR.pure _

/-! ## The grammar over its operands -/

section Operands

variable {p : Parser Expr} (hp : Always R p)

include hp

theorem joinStep (level : Level) : Always R (joinStep level p) := by
  refine hR.bind (hR.take? .visible (infixNode? level)) fun found? => ?_
  cases found? with
  | none => exact hR.pure none
  | some found => exact hR.bind hp fun right => hR.pure _

theorem infixLevel (level : Level) : Always R (infixLevel level p) :=
  hR.bind hp fun _ => hR.bind (hR.many (hR.joinStep hp level)) fun _ => hR.pure _

theorem expressionOver : Always R (expressionOver p) :=
  hR.infixLevel (hR.infixLevel (hR.infixLevel (hR.infixLevel
    (hR.infixLevel (hR.infixLevel hp _) _) _) _) _) _

omit hp in
theorem unitEnd (inBuilder : Bool) {cause : SyntaxCause} (h : cause.isNumber = false) :
    Always R (unitEnd inBuilder cause) := by
  refine hR.bind hR.get fun i => ite (hR.pure _) (ite ?_ (ite (hR.pure _) (hR.fail_other h _)))
  exact hR.bind (hR.advance .hidden) fun _ => hR.pure _

theorem statementOver (inBuilder : Bool) : Always R (statementOver p inBuilder) :=
  hR.bind (hR.expect _ rfl) fun _ => hR.bind (hR.expressionOver hp) fun _ =>
    hR.bind (hR.unitEnd inBuilder rfl) fun _ => hR.pure _

theorem builderOver (kind : Token) : Always R (builderOver p kind) := by
  refine hR.bind (hR.advance .visible) fun _ => hR.bind (hR.many ?_) fun _ =>
    hR.bind (hR.expect _ rfl) fun _ => hR.pure _
  exact hR.bind hR.get fun i => ite (hR.pure none)
    (hR.bind (hR.statementOver hp true) fun s => hR.pure _)

theorem elementOver (first : Expr) : Always R (elementOver p first) :=
  hR.bind (hR.expressionOver hp) fun _ =>
    ite (hR.fail_other rfl _) (ite (hR.fail_other rfl _) (hR.pure _))

omit hp in
theorem separators : Always R separators :=
  hR.bind hR.get fun _ => hR.bind (hR.many (hR.take? .hidden _)) fun _ => hR.pure _

theorem sequenceOver (opening : Token) : Always R (sequenceOver p opening) := by
  refine hR.bind (hR.accept _) fun closing => ite (hR.pure _) ?_
  refine hR.bind (hR.expressionOver hp) fun first => hR.bind (hR.many ?_) fun _ =>
    hR.bind (hR.expect _ rfl) fun _ => hR.pure _
  exact hR.bind hR.separators fun _ => hR.bind (hR.check _ _) fun _ =>
    ite (hR.bind (hR.elementOver hp first) fun _ => hR.pure _) (hR.pure none)

theorem nameOver (t : Token) : Always R (nameOver p t) :=
  hR.bind hR.get fun _ => ite (hR.builderOver hp t) (hR.pure _)

theorem primaryOver : Always R (primaryOver p) := by
  refine hR.bind (hR.peek .visible) fun t => ?_
  cases hread : literal? t with
  | some read =>
    refine hR.bind (hR.advance .visible) fun _ => ?_
    cases read with
    | ok value => exact hR.pure _
    | error cause => exact hR.fail fun _ => hread
  | none =>
    dsimp only
    split
    · exact hR.bind (hR.advance .visible) fun _ => hR.nameOver hp t
    · exact hR.bind (hR.advance .visible) fun _ => hR.bind (hR.expressionOver hp) fun _ =>
        hR.bind (hR.expect _ rfl) fun _ => hR.pure _
    · exact hR.bind (hR.advance .visible) fun _ => hR.sequenceOver hp t
    · exact hR.fail_other rfl t

theorem bindingOver : Always R (bindingOver p) := by
  refine hR.bind (hR.primaryOver hp) fun left => hR.bind (hR.accept _) fun colon? => ?_
  cases colon? with
  | none => exact hR.pure left
  | some colon => exact hR.bind (hR.expressionOver hp) fun _ => hR.pure _

theorem operandOver : Always R (operandOver p) := by
  refine hR.bind (hR.take? .visible prefixOp?) fun found? => ?_
  cases found? with
  | none => exact hR.bindingOver hp
  | some found => exact hR.bind hp fun _ => hR.pure _

end Operands

/-! ## The grammar -/

/-- By induction on the input: an operand holds operands on less input only. -/
theorem operand : Always R operand := by
  intro i
  generalize hn : i.size = n
  induction n using Nat.strongRecOn generalizing i with
  | _ n ih =>
    rw [Grammar.operand]
    refine hR.operandOver (fun j => ?_) i
    split
    · rename_i hlt
      exact ih j.size (hn ▸ hlt) j rfl
    · have hstuck : Always R (Parser.fail .expectedExpression (j.peek .visible) : Parser Expr) :=
        hR.fail_other rfl _
      exact hstuck j

theorem expression : Always R expression := hR.expressionOver hR.operand

theorem statement : Always R statement := hR.statementOver hR.operand false

theorem item : Always R item := by
  refine hR.bind hR.get fun i => ite (hR.bind hR.statement fun _ => hR.pure _) ?_
  exact hR.bind hR.expression fun _ =>
    hR.bind (hR.unitEnd false rfl) fun _ => hR.pure _

end Compositional

end Grammar

end LazyDecl
