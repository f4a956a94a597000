import Mathlib.Data.List.Forall2
import LazyDecl.Proofs.Eval.Program
import LazyDecl.Proofs.Eval.Simulation

/-!
Evaluation and other tokens. A change of tokens that keeps their lexemes, made to a program
and to the table it runs on, is made to all that comes of it, and to nothing else
(`evaluate_moved`). Warnings from before are kept in front.
-/

namespace LazyDecl

def EvalError.map (f : Token → Token) (e : EvalError) : EvalError := { e with token := f e.token }

/-- The evaluation with other tokens in its errors and warnings. -/
def Evaluation.map (f : Token → Token) (e : Evaluation) : Evaluation where
  results := e.results.map (Except.mapError (EvalError.map f))
  warnings := e.warnings.map (EvalWarning.map f)

namespace Eval

variable {ws : List EvalWarning} {f : Token → Token}

/-- The second state is the first one moved. -/
def Moved (ws : List EvalWarning) (f : Token → Token) (s s' : EvalState) : Prop :=
  s' = s.moved ws f

theorem Alike.mono {α : Type} {R R' : EvalState → EvalState → Prop} {T : Token → Token → Prop}
    {r r' : EStateM.Result EvalError EvalState α} (h : Alike R T r r')
    (hR : ∀ s s', R s s' → R' s s') : Alike R' T r r' := by
  cases h with
  | ok hs => exact .ok (hR _ _ hs)
  | error ht hs => exact .error ht (hR _ _ hs)

/-- How many declarations are pending bounds nothing in the end. -/
theorem Simulates.moved {α : Type} {x x' : Eval α}
    (h : ∀ n, Simulates (MovedWithin ws f n) (Carried f) x x') :
    Simulates (Moved ws f) (Carried f) x x' := by
  rintro s _ rfl
  exact (h s.declarations.pending s _ ⟨rfl, Nat.le_refl _⟩).mono fun _ _ hs => hs.1

theorem dereference_absent {anchor : Token} {name : String} {s : EvalState}
    (h : s.declarations.find? name = none) :
    dereference anchor (.reference name) s = .ok (.reference name) s := by
  simp only [dereference, get_bind, h]
  rfl

theorem dereference_found {anchor : Token} {name : String} {s : EvalState}
    {memo : Memo Expr Value} (h : s.declarations.find? name = some memo) :
    dereference anchor (.reference name) s =
      memo.force (put name) ⟨.cyclicDeclaration name, anchor⟩ (valueOver force) s := by
  simp only [dereference, get_bind, h]
  rfl

section Units

variable (hf : ∀ t, (f t).lexeme = t.lexeme)

include hf

theorem value_moved (e : Expr) :
    Simulates (Moved ws f) (Carried f) (value e) (value (e.map f)) :=
  .moved fun n => valueOver_simulates (parallel_moved hf (force_moved hf n)) e fun _ _ => rfl

theorem dereference_moved (anchor : Token) (v : Value) :
    Simulates (Moved ws f) (Carried f) (dereference anchor v) (dereference (f anchor) v) := by
  cases v with
  | reference name =>
    rintro s _ rfl
    have hfind : (s.moved ws f).declarations.find? name =
        (s.declarations.find? name).map (Memo.mapBody (Expr.map f)) :=
      Declarations.find?_mapBodies ..
    cases hm : s.declarations.find? name with
    | none =>
      rw [hm] at hfind
      rw [dereference_absent hm, dereference_absent hfind]
      exact .ok rfl
    | some memo =>
      rw [hm] at hfind
      rw [dereference_found hm, dereference_found hfind]
      exact (force_memo hf (fun k _ => force_moved hf k) (Nat.le_refl _) hm anchor).mono
        fun _ _ hs => hs.1
  | _ => exact .pure _

theorem statement_moved (s : Statement) :
    Simulates (Moved ws f) (Carried f) (statement s) (statement (s.map f)) := by
  by_cases ht : s.tag.lexeme = declarationTag
  · have ht' : (f s.tag).lexeme = declarationTag := (hf _).trans ht
    obtain ⟨tag, e⟩ := s
    rintro state _ rfl
    cases hb : e.isBinding with
    | false =>
      rw [statement_unbound ht hb, Statement.map, statement_unbound ht' (by simpa using hb)]
      exact .error rfl rfl
    | true =>
      cases e with
      | binding left colon body =>
        have hname := left.name?_map f
        cases hn : left.name? with
        | none =>
          rw [hn] at hname
          rw [statement_unnamed ht hn, Statement.map, Expr.map, statement_unnamed ht' hname,
            Expr.anchor_map]
          exact .error rfl rfl
        | some name =>
          rw [hn] at hname
          rw [statement_declare ht hn, Statement.map, Expr.map, statement_declare ht' hname]
          refine .ok ?_
          simp only [declared, EvalState.moved, hf, Declarations.declare_mapBodies, Moved,
            Declarations.contains_mapBodies, List.map_append, List.append_assoc, Memo.mapBody]
          split <;> rfl
      | _ => cases hb
  · rw [statement_value ht, statement_value (by simpa [hf] using ht), Statement.value_map]
    exact (value_moved hf s.value).bind fun v => .pure _

theorem shown_moved (anchor : Token) (v : Option Value) :
    Simulates (Moved ws f) (Carried f) (shown anchor v) (shown (f anchor) v) := by
  cases v with
  | none => exact .pure _
  | some v => exact (dereference_moved hf anchor v).bind fun w => .pure _

theorem item_moved (u : Item) :
    Simulates (Moved ws f) (Carried f) (item u) (item (u.map f)) := by
  cases u with
  | statement s =>
    rw [Item.map, item_statement, item_statement, Statement.tag_map]
    exact (statement_moved hf s).bind fun v => shown_moved hf s.tag v
  | expression e =>
    rw [Item.map, item_expression, item_expression, Expr.anchor_map]
    exact ((value_moved hf e).bind fun v => .pure _).bind fun v => shown_moved hf e.anchor v

theorem units_moved (ws : List EvalWarning) (p : Program) :
    List.Forall₂ (Simulates (Moved ws f) (Carried f)) p.units (p.map f).units := by
  cases p with
  | batch statements =>
    simp only [Program.units, Program.map, List.map_map, List.forall₂_map_left_iff,
      List.forall₂_map_right_iff]
    exact List.forall₂_same.2 fun s _ => statement_moved hf s
  | interactive items =>
    simp only [Program.units, Program.map, List.map_map, List.forall₂_map_left_iff,
      List.forall₂_map_right_iff]
    exact List.forall₂_same.2 fun u _ => item_moved hf u

end Units

theorem moved_front (front : List EvalWarning) (d : Declarations Expr Value)
    (ws : List EvalWarning) : EvalState.moved front id ⟨d, ws⟩ = ⟨d, front ++ ws⟩ := by
  have h := moved_id ⟨d, ws⟩
  simp only [EvalState.moved, List.nil_append, EvalState.mk.injEq] at h ⊢
  exact ⟨h.1, congrArg _ h.2⟩

/-- Warnings from before make no difference. -/
theorem value_framed {e : Expr} {v : Value} {d d' : Declarations Expr Value}
    {ws : List EvalWarning} (h : value e ⟨d, []⟩ = .ok v ⟨d', ws⟩) (front : List EvalWarning) :
    value e ⟨d, front⟩ = .ok v ⟨d', front ++ ws⟩ := by
  have hmoved : Simulates (Moved front id) (Carried id) (value e) (value (e.map id)) :=
    value_moved (fun _ => rfl) e
  have hsim := hmoved ⟨d, []⟩ _ rfl
  rw [h, Expr.map_id, moved_front, List.append_nil] at hsim
  generalize value e ⟨d, front⟩ = r at hsim ⊢
  cases hsim with
  | ok hs =>
    rw [hs, moved_front]

/-- Units that go alike one by one go alike in a row. -/
theorem all_moved {α : Type} {us us' : List (Eval α)}
    (h : List.Forall₂ (Simulates (Moved ws f) (Carried f)) us us') (s : EvalState) :
    all us' (s.moved ws f) =
      ((all us s).1.map (Except.mapError (EvalError.map f)), (all us s).2.moved ws f) := by
  induction h generalizing s with
  | nil => rfl
  | @cons u u' us us' hu _ ih =>
    have hstep : outcome (u' (s.moved ws f)) = (outcome (u s)).mapError (EvalError.map f) ∧
        final (u' (s.moved ws f)) = (final (u s)).moved ws f := by
      have h := hu s _ rfl
      generalize u s = r at h ⊢
      generalize u' (s.moved ws f) = r' at h ⊢
      cases h with
      | ok hs => exact ⟨rfl, hs⟩
      | @error cause t t' _ _ ht hs =>
        cases ht
        exact ⟨rfl, hs⟩
    rw [all_cons, all_cons, hstep.1, hstep.2, ih]
    rfl

end Eval

/-- **Evaluation with other tokens.** What comes of a program and of its table has the other
tokens, too, and is the same apart from that; warnings from before stay in front. -/
theorem evaluate_moved {f : Token → Token} (hf : ∀ t, (f t).lexeme = t.lexeme) (p : Program)
    (ws : List EvalWarning) (d : Declarations Expr Value) :
    Eval.all (p.map f).units { declarations := d.mapBodies (Expr.map f), warnings := ws } =
      (((p.evaluate d).1.map f).results,
        { declarations := (p.evaluate d).2.mapBodies (Expr.map f)
          warnings := ws ++ ((p.evaluate d).1.map f).warnings }) := by
  have h := Eval.all_moved (Eval.units_moved hf ws p) { declarations := d }
  have hstart : EvalState.moved ws f { declarations := d } =
      { declarations := d.mapBodies (Expr.map f), warnings := ws } := by
    simp [EvalState.moved]
  rw [hstart] at h
  exact h

end LazyDecl
