import LazyDecl.Proofs.Eval.Expression
import LazyDecl.Proofs.Expr

/-!
Runs of units, and of programs one after the other on one table: what a run does
with a unit, and with two runs in a row.
-/

namespace LazyDecl

namespace Eval

/-- A result without its state. -/
def outcome {ε σ α : Type} : EStateM.Result ε σ α → Except ε α
  | .ok a _ => .ok a
  | .error e _ => .error e

/-- The state of a result. -/
def final {ε σ α : Type} : EStateM.Result ε σ α → σ
  | .ok _ s => s
  | .error _ s => s

variable {α : Type}

theorem all_cons (u : Eval α) (us : List (Eval α)) (s : EvalState) :
    all (u :: us) s =
      (outcome (u s) :: (all us (final (u s))).1, (all us (final (u s))).2) := by
  rw [all]
  cases u s <;> rfl

theorem all_append (us vs : List (Eval α)) (s : EvalState) :
    all (us ++ vs) s = ((all us s).1 ++ (all vs (all us s).2).1, (all vs (all us s).2).2) := by
  induction us generalizing s with
  | nil => rfl
  | cons u us ih =>
    simp only [List.cons_append, all_cons, ih]

theorem all_getElem? {us : List (Eval α)} {i : Nat} {u : Eval α} (h : us[i]? = some u)
    (s : EvalState) : (all us s).1[i]? = some (outcome (u (all (us.take i) s).2)) := by
  induction us generalizing i s with
  | nil => simp at h
  | cons v us ih =>
    rw [all_cons]
    cases i with
    | zero =>
      cases h
      rfl
    | succ i =>
      rw [List.getElem?_cons_succ] at h ⊢
      rw [ih h, List.take_succ_cons, all_cons]

theorem length_all (us : List (Eval α)) (s : EvalState) : (all us s).1.length = us.length := by
  induction us generalizing s with
  | nil => rfl
  | cons u us ih => rw [all_cons, List.length_cons, List.length_cons, ih]

/-! ## Units -/

theorem statement_value {s : Statement} (h : s.tag.lexeme ≠ declarationTag) :
    statement s = value s.value >>= fun v => pure (some v) := by
  simp only [statement, h, if_false]

/-- The state behind a declaration: the name is declared, with a warning if it was before. -/
def declared (name : Token) (body : Expr) (s : EvalState) : EvalState :=
  { declarations := s.declarations.declare name.lexeme (.deferred body)
    warnings := s.warnings ++
      if s.declarations.contains name.lexeme then [⟨.redeclared name.lexeme, name⟩] else [] }

theorem statement_declare {tag colon name : Token} {left body : Expr}
    (h : tag.lexeme = declarationTag) (hn : left.name? = some name) (s : EvalState) :
    statement ⟨tag, .binding left colon body⟩ s = .ok none (declared name body s) := by
  simp only [statement, h, if_true, declare, hn, declared]
  simp only [bind_assoc, get_bind]
  cases s.declarations.contains name.lexeme with
  | true => rfl
  | false =>
    simp only [Bool.false_eq_true, if_false, List.append_nil]
    rfl

theorem statement_unnamed {tag colon : Token} {left body : Expr}
    (h : tag.lexeme = declarationTag) (hn : left.name? = none) (s : EvalState) :
    statement ⟨tag, .binding left colon body⟩ s = .error ⟨.expectedBinding, left.anchor⟩ s := by
  simp only [statement, h, if_true, declare, hn]
  rfl

theorem statement_unbound {tag : Token} {e : Expr} (h : tag.lexeme = declarationTag)
    (he : e.isBinding = false) (s : EvalState) :
    statement ⟨tag, e⟩ s = .error ⟨.expectedBinding, tag⟩ s := by
  simp only [statement, h, if_true, declare]
  cases e with
  | binding left colon body => cases he
  | _ => rfl

/-- What the prompt makes of a value that a unit yields. -/
def shown (anchor : Token) : Option Value → Eval (Option Value)
  | some v => dereference anchor v >>= fun v => pure (some v)
  | none => pure none

theorem item_statement (s : Statement) : item (.statement s) = statement s >>= shown s.tag := by
  simp only [item]
  refine congrArg _ (funext fun v => ?_)
  cases v <;> rfl

theorem item_expression (e : Expr) :
    item (.expression e) = (value e >>= fun v => pure (some v)) >>= shown e.anchor := by
  simp only [item, bind_assoc, pure_bind, shown]

end Eval

/-- A unit as a file or the prompt evaluates it. A file has no bare expressions. -/
def Mode.evaluate : Mode → Item → Eval (Option Value)
  | .batch, .statement s => Eval.statement s
  | .batch, .expression e => Eval.value e >>= fun v => pure (some v)
  | .interactive, u => Eval.item u

def Program.mode : Program → Mode
  | .batch _ => .batch
  | .interactive _ => .interactive

theorem Program.units_eq (p : Program) : p.units = p.items.map p.mode.evaluate := by
  cases p with
  | batch statements =>
    simp only [units, items, mode, List.map_map]
    rfl
  | interactive items => rfl

/-- Evaluates programs one after the other on one table. -/
def evaluateAll : List Program → Declarations Expr Value →
    List Evaluation × Declarations Expr Value
  | [], d => ([], d)
  | p :: ps, d =>
    let (evaluation, next) := p.evaluate d
    let (rest, last) := evaluateAll ps next
    (evaluation :: rest, last)

/-! ## One unit of a session -/

/-- The state in which a session that has evaluated some programs comes to a unit of the next. -/
def stateBefore (ps : List Program) (p : Program) (i : Nat) : EvalState :=
  (Eval.all (p.units.take i) { declarations := (evaluateAll ps ∅).2 }).2

section Session

variable (ps : List Program) (p : Program) (i : Fin p.items.length)

theorem Program.units_getElem? :
    p.units[(i : Nat)]? = some (p.mode.evaluate (p.items.get i)) := by
  simp [units_eq]

theorem stateBefore_succ : stateBefore ps p (i + 1) =
    Eval.final (p.mode.evaluate (p.items.get i) (stateBefore ps p i)) := by
  rw [stateBefore, List.take_add_one, p.units_getElem?, Option.toList_some, Eval.all_append]
  exact congrArg Prod.snd (Eval.all_cons ..)

theorem results_getElem? : (p.evaluate (evaluateAll ps ∅).2).1.results[(i : Nat)]? =
    some (Eval.outcome (p.mode.evaluate (p.items.get i) (stateBefore ps p i))) :=
  Eval.all_getElem? (p.units_getElem? i) _

end Session

/-- An error of a program is that of one of its units. -/
theorem exists_unit_of_error {ps : List Program} {p : Program} {e : EvalError}
    (h : e ∈ (p.evaluate (evaluateAll ps ∅).2).1.errors) : ∃ i : Fin p.items.length,
      Eval.outcome (p.mode.evaluate (p.items.get i) (stateBefore ps p i)) = .error e := by
  obtain ⟨r, hr, he⟩ := List.mem_filterMap.1 h
  obtain ⟨i, hi, hget⟩ := List.mem_iff_getElem.1 hr
  have hlength : i < p.items.length := by
    have hall : i < (Eval.all p.units _).1.length := hi
    simpa [Eval.length_all, Program.units_eq] using hall
  have hunit := results_getElem? ps p ⟨i, hlength⟩
  rw [List.getElem?_eq_getElem hi, hget, Option.some_inj] at hunit
  refine ⟨⟨i, hlength⟩, hunit.symm.trans ?_⟩
  cases r with
  | ok v => cases he
  | error e' =>
    cases he
    rfl

/-- The warnings of a program are those behind its last unit. -/
theorem warnings_evaluate (ps : List Program) (p : Program) :
    (p.evaluate (evaluateAll ps ∅).2).1.warnings = (stateBefore ps p p.items.length).warnings := by
  have hunits : p.units.take p.items.length = p.units :=
    List.take_of_length_le (by simp [Program.units_eq])
  rw [stateBefore, hunits]
  rfl

/-- **Induction over a session.** What holds of the empty table, and stays when a unit is
evaluated, holds before every unit. -/
theorem stateBefore_induction {P : Declarations Expr Value → Prop} (hempty : P ∅)
    (hunit : ∀ (mode : Mode) (u : Item) (s : EvalState), P s.declarations →
      P (Eval.final (mode.evaluate u s)).declarations)
    (ps : List Program) (p : Program) (i : Nat) : P (stateBefore ps p i).declarations := by
  have hall : ∀ (mode : Mode) (us : List Item) (s : EvalState), P s.declarations →
      P (Eval.all (us.map mode.evaluate) s).2.declarations := by
    intro mode us
    induction us with
    | nil => exact fun s hs => hs
    | cons u us ih =>
      intro s hs
      rw [List.map_cons, Eval.all_cons]
      exact ih _ (hunit mode u s hs)
  have hprograms : ∀ (ps : List Program) (d : Declarations Expr Value), P d →
      P (evaluateAll ps d).2 := by
    intro ps
    induction ps with
    | nil => exact fun d hd => hd
    | cons p ps ih =>
      intro d hd
      have hp := hall p.mode p.items { declarations := d } hd
      rw [← Program.units_eq] at hp
      exact ih _ hp
  rw [stateBefore, Program.units_eq, ← List.map_take]
  exact hall p.mode _ _ (hprograms ps ∅ hempty)

end LazyDecl
