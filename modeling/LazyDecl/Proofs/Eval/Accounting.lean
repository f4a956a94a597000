import LazyDecl.Proofs.Eval.Growth
import LazyDecl.Proofs.Eval.References

/-!
What becomes of units. A unit yields one value, or fails with one error, or declares a name and
yields nothing; whatever it forces on the way, it warns of no redeclaration but its own.

* `Config.Step.tally_eq`, `tally_evaluate`: names in the table and warnings of redeclarations,
  taken together, grow by one with each unit that declares, and with no other;
* `Ledger`: the units of a program in order, each with what became of it;
* `units_accounted`: the books of every session balance.
-/

namespace LazyDecl

/-! ## Names and redeclarations -/

/-- The warning says that a name was declared before. -/
def Diagnostic.redeclares (d : Diagnostic) : Bool :=
  "redeclared `".toList.isPrefixOf d.message.toList

theorem redeclares_redeclared (name : String) (t : Token) :
    (EvalWarning.mk (.redeclared name) t).diagnostic.redeclares = true := by
  have hm : (EvalWarning.mk (.redeclared name) t).diagnostic.message =
      "redeclared `" ++ name ++ "`" := rfl
  rw [Diagnostic.redeclares, hm, List.isPrefixOf_iff_prefix, String.toList_append,
    String.toList_append, List.append_assoc]
  exact List.prefix_append _ _

theorem redeclares_duplicateKey (key : Value) (t : Token) :
    (EvalWarning.mk (.duplicateKey key) t).diagnostic.redeclares = false := by
  have hm : (EvalWarning.mk (.duplicateKey key) t).diagnostic.message =
    "duplicate key in table: " ++ key.text := rfl
  rw [Diagnostic.redeclares, hm, Bool.eq_false_iff, Ne, List.isPrefixOf_iff_prefix]
  rintro ⟨rest, h⟩
  have hhead := congrArg List.head? h
  simp at hhead

/-- The names in the table, and the times that one of them was declared again. -/
def EvalState.tally (s : EvalState) : Nat :=
  s.declarations.size + s.warnings.countP (·.diagnostic.redeclares)

theorem Declarations.size_eq_length_names {β α : Type} (d : Declarations β α) :
    d.size = d.names.length := by
  simp only [size, names, List.length_map]

theorem tally_put (name : String) (memo : Memo Expr Value) (s : EvalState) :
    (Eval.put name memo s).tally = s.tally := by
  simp only [EvalState.tally, Eval.put, Declarations.size_eq_length_names, Declarations.names_set]

theorem tally_declared (name : Token) (body : Expr) (s : EvalState) :
    (Eval.declared name body s).tally = s.tally + 1 := by
  simp only [EvalState.tally, Eval.declared, Declarations.size_eq_length_names,
    Declarations.names_declare, List.countP_append]
  split
  · simp only [List.countP_singleton, redeclares_redeclared, if_true]
    omega
  · simp only [List.length_append, List.length_singleton, List.countP_nil]
    omega

section Runs

variable {α : Type} {root : List String} {Q : α → Prop} {c : Config α}

/-- A step adds no name, and warns of no redeclaration. -/
theorem Config.Step.tally_eq {d : Config α} (h : Step c d)
    (hc : c.Confined (fun _ => True) root Q) : d.state.tally = c.state.tally := by
  cases h with
  | warn w next stack s =>
    obtain ⟨⟨key, hw⟩, -⟩ := hc.plan
    obtain ⟨cause, t⟩ := w
    obtain rfl : cause = .duplicateKey key := hw
    simp [EvalState.tally, redeclares_duplicateKey]
  | absent | stored | cyclic => rfl
  | start | finish | abandon => exact tally_put ..

theorem Run.tally_eq {trace : List (Config α)} {r : EStateM.Result EvalError EvalState α}
    (h : Run c trace r) (hc : c.Confined (fun _ => True) root Q) :
    (Eval.final r).tally = c.state.tally := by
  have hall := h.invariant
    (P := fun d => d.Confined (fun _ => True) root Q ∧ d.state.tally = c.state.tally) ⟨hc, rfl⟩
    fun _ _ _ ⟨hd, ht⟩ hs => ⟨hd.step hs fun _ _ => trivial, (hs.tally_eq hd).trans ht⟩
  have hended := (hall _ h.ended_mem).2
  cases r <;> exact hended

end Runs

theorem tally_ofUnit (mode : Mode) (u : Item) (s : EvalState) :
    (Config.ofUnit mode u s).state.tally = s.tally + (Reference.declared? u).toList.length := by
  cases u with
  | expression e => rfl
  | statement st =>
    obtain ⟨tag, e⟩ := st
    by_cases ht : tag.lexeme = Eval.declarationTag
    · rw [Config.ofUnit, if_pos ht]
      obtain ⟨name, body, hd, hs, -⟩ | ⟨hd, t, hs, -⟩ := declaration_cases e ht s
      · rw [hd, hs]
        exact tally_declared name body s
      · rw [hd, hs]
        rfl
    · rw [Config.ofUnit, if_neg ht, Reference.declared?, if_neg ht]
      rfl

section Units

variable {mode : Mode} {s : EvalState}

/-- A unit adds to the tally what it declares. -/
theorem tally_evaluate (u : Item) (hs : Discipline.proper.InTable s.declarations) :
    (Eval.final (mode.evaluate u s)).tally =
      s.tally + (Reference.declared? u).toList.length := by
  obtain ⟨trace, h⟩ := run_ofUnit mode u s
  rw [h.tally_eq (Config.confined_ofUnit mode u hs), tally_ofUnit]

/-! ## The ledger -/

/-- What becomes of units, from one state to another: the values that they yield, the errors
that they fail with, and the names that they declare with the bodies, each in their order. -/
inductive Ledger (mode : Mode) : EvalState → List Item → List Value → List EvalError →
    List (String × Expr) → EvalState → Prop
  | nil (s : EvalState) : Ledger mode s [] [] [] [] s
  | value {s s' t : EvalState} {u : Item} {us : List Item} {v : Value} {vs : List Value}
      {es : List EvalError} {ds : List (String × Expr)} :
      mode.evaluate u s = .ok (some v) s' → Reference.declared? u = none →
      Ledger mode s' us vs es ds t → Ledger mode s (u :: us) (v :: vs) es ds t
  | error {s s' t : EvalState} {u : Item} {us : List Item} {vs : List Value} {e : EvalError}
      {es : List EvalError} {ds : List (String × Expr)} :
      mode.evaluate u s = .error e s' → Reference.declared? u = none →
      Ledger mode s' us vs es ds t → Ledger mode s (u :: us) vs (e :: es) ds t
  | declaration {s s' t : EvalState} {u : Item} {us : List Item} {vs : List Value}
      {es : List EvalError} {d : String × Expr} {ds : List (String × Expr)} :
      mode.evaluate u s = .ok none s' → Reference.declared? u = some d →
      Ledger mode s' us vs es ds t → Ledger mode s (u :: us) vs es (d :: ds) t

namespace Ledger

variable {t : EvalState} {us : List Item} {vs : List Value} {es : List EvalError}
  {ds : List (String × Expr)}

/-- Every unit is entered once. -/
theorem length_eq (h : Ledger mode s us vs es ds t) :
    vs.length + es.length + ds.length = us.length := by
  induction h with
  | nil => rfl
  | value | error | declaration => simp only [List.length_cons]; omega

/-- The tally grows by the declarations. -/
theorem tally_eq (h : Ledger mode s us vs es ds t)
    (hs : Discipline.proper.InTable s.declarations) :
    Discipline.proper.InTable t.declarations ∧ t.tally = s.tally + ds.length := by
  induction h with
  | nil => exact ⟨hs, rfl⟩
  | @value s _ _ u _ _ _ _ _ heval hd _ ih | @error s _ _ u _ _ _ _ _ heval hd _ ih
  | @declaration s _ _ u _ _ _ _ _ heval hd _ ih =>
    have htable := (proper_evaluate mode u s hs).final
    have htally : (Eval.final (mode.evaluate u s)).tally = _ := tally_evaluate u hs
    rw [heval] at htable htally
    obtain ⟨hlast, heq⟩ := ih htable
    refine ⟨hlast, ?_⟩
    simp only [Eval.final, hd, Option.toList_none, Option.toList_some, List.length_nil,
      List.length_cons] at htally ⊢
    omega

end Ledger

/-- A unit yields a value, or fails, or declares a name and succeeds without a value. -/
theorem evaluate_cases (u : Item) (hs : Discipline.proper.InTable s.declarations) :
    (∃ v s', mode.evaluate u s = .ok (some v) s' ∧ Reference.declared? u = none) ∨
    (∃ e s', mode.evaluate u s = .error e s' ∧ Reference.declared? u = none) ∨
    ∃ d s', mode.evaluate u s = .ok none s' ∧ Reference.declared? u = some d := by
  obtain ⟨trace, h⟩ := run_ofUnit mode u s
  have hyields := (proper_evaluate mode u s hs).result
  have hdeclares : ∀ d, Reference.declared? u = some d →
      Eval.outcome (mode.evaluate u s) = .ok none := fun _ hd => (run_declares hd h).2
  have hfails : ∀ e, Eval.outcome (mode.evaluate u s) = .error e → Reference.declared? u = none :=
    fun _ he => declared?_of_error h he
  cases hr : mode.evaluate u s with
  | error e s' => exact .inr (.inl ⟨e, s', rfl, hfails e (by rw [hr]; rfl)⟩)
  | ok v? s' =>
    rw [hr] at hyields hdeclares
    cases v? with
    | none =>
      obtain ⟨d, hd⟩ := Option.isSome_iff_exists.1 hyields
      exact .inr (.inr ⟨d, s', rfl, hd⟩)
    | some v =>
      refine .inl ⟨v, s', rfl, ?_⟩
      rw [Option.eq_none_iff_forall_ne_some]
      intro d hd
      cases hdeclares d hd

end Units

theorem ledger_all (mode : Mode) (us : List Item) (ws : List EvalWarning) {s : EvalState}
    (hs : Discipline.proper.InTable s.declarations) :
    Ledger mode s us (Evaluation.mk (Eval.all (us.map mode.evaluate) s).1 ws).values
      (Evaluation.mk (Eval.all (us.map mode.evaluate) s).1 ws).errors
      (us.filterMap Reference.declared?) (Eval.all (us.map mode.evaluate) s).2 := by
  induction us generalizing s with
  | nil => exact .nil s
  | cons u us ih =>
    have htable := (proper_evaluate mode u s hs).final
    rw [List.map_cons, Eval.all_cons]
    obtain ⟨v, s', hr, hd⟩ | ⟨e, s', hr, hd⟩ | ⟨d, s', hr, hd⟩ := evaluate_cases u hs
    · rw [List.filterMap_cons_none hd]
      rw [hr] at htable ⊢
      exact .value hr hd (ih htable)
    · rw [List.filterMap_cons_none hd]
      rw [hr] at htable ⊢
      exact .error hr hd (ih htable)
    · rw [List.filterMap_cons_some hd]
      rw [hr] at htable ⊢
      exact .declaration hr hd (ih htable)

/-- The ledger of a program. -/
theorem ledger_evaluate (p : Program) {d : Declarations Expr Value}
    (hd : Discipline.proper.InTable d) :
    Ledger p.mode { declarations := d } p.items (p.evaluate d).1.values (p.evaluate d).1.errors
      (p.items.filterMap Reference.declared?) ⟨(p.evaluate d).2, (p.evaluate d).1.warnings⟩ := by
  have h := ledger_all p.mode p.items (p.evaluate d).1.warnings (s := { declarations := d }) hd
  rw [← Program.units_eq] at h
  exact h

/-- Over programs in a row, the declarations are the names that have come to the table and the
redeclarations that were warned of. -/
theorem tally_evaluateAll (ps : List Program) {d : Declarations Expr Value}
    (hd : Discipline.proper.InTable d) :
    (evaluateAll ps d).2.size + ((evaluateAll ps d).1.flatMap
        (·.diagnostics.warnings)).countP Diagnostic.redeclares =
      d.size + ((ps.flatMap Program.items).filterMap Reference.declared?).length := by
  induction ps generalizing d with
  | nil => rfl
  | cons p ps ih =>
    obtain ⟨htable, htally⟩ := (ledger_evaluate p hd).tally_eq hd
    have hrest := ih htable
    simp only [EvalState.tally, List.countP_nil] at htally
    simp only [evaluateAll, List.flatMap_cons, List.countP_append, List.filterMap_append,
      List.length_append, Evaluation.diagnostics, List.countP_map, Function.comp_def] at hrest ⊢
    omega

theorem EvalError.severity_ne_warning (e : EvalError) : e.diagnostic.severity ≠ .warning := by
  obtain ⟨cause, t⟩ := e
  cases cause <;> exact nofun

/-- **Every unit is accounted for exactly once.** Whatever a session has evaluated before, the
units of a program one after the other yield one value each, or record one error, which is never
a mere warning, or declare a name in silence. So there are as many units as values, errors and
declarations; and the declarations of a session are the names in its table and the times that it
warned of a redeclaration. -/
theorem units_accounted (ps : List Program) (p : Program) :
    Ledger p.mode { declarations := (evaluateAll ps ∅).2 } p.items
        (p.evaluate (evaluateAll ps ∅).2).1.values (p.evaluate (evaluateAll ps ∅).2).1.errors
        (p.items.filterMap Reference.declared?)
        ⟨(p.evaluate (evaluateAll ps ∅).2).2, (p.evaluate (evaluateAll ps ∅).2).1.warnings⟩ ∧
      (p.evaluate (evaluateAll ps ∅).2).1.values.length +
        (p.evaluate (evaluateAll ps ∅).2).1.diagnostics.errors.length +
        (p.items.filterMap Reference.declared?).length = p.items.length ∧
      (∀ d ∈ (p.evaluate (evaluateAll ps ∅).2).1.diagnostics.errors, d.severity ≠ .warning) ∧
      ((ps.flatMap Program.items).filterMap Reference.declared?).length =
        (evaluateAll ps ∅).2.size + ((evaluateAll ps ∅).1.flatMap
          (·.diagnostics.warnings)).countP Diagnostic.redeclares := by
  have htable : Discipline.proper.InTable (evaluateAll ps ∅).2 := proper_stateBefore ps p 0
  have hledger := ledger_evaluate p htable
  have htally := tally_evaluateAll ps Discipline.table_empty
  refine ⟨hledger, ?_, ?_, ?_⟩
  · rw [Evaluation.diagnostics, List.length_map]
    exact hledger.length_eq
  · exact List.forall_mem_map.2 fun e _ => e.severity_ne_warning
  · rw [htally]
    exact (Nat.zero_add _).symm

end LazyDecl
