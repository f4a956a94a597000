import LazyDecl.Proofs.Eval.Confinement

/-!
References do not get about. The evaluator makes one where a bare name stands in front of a
colon, as the key of a pair, and nowhere else does one come up: not as a value, not inside of
one, and not in the table.

* `proper_value`, `proper_evaluate`: from a table of proper values, expressions and units come
  to proper values and leave such a table behind;
* `interactive_eq_batch`: so the prompt never has a reference to follow;
* `references_confined`: in a session all values are proper, at any time.
-/

namespace LazyDecl

/-- Without regard to blame, a run within bounds comes to what `Q` says. -/
theorem Run.allows {α : Type} {root : List String} {Q : α → Prop} {c : Config α}
    {trace : List (Config α)} {r : EStateM.Result EvalError EvalState α} (h : Run c trace r)
    (hc : c.Confined (fun _ => True) root Q) : Discipline.proper.Allows Q r :=
  (h.confined hc (fun _ _ _ _ => trivial) _ h.ended_mem).result.1

/-- An expression comes to a proper value. -/
theorem proper_value (e : Expr) : Discipline.proper.Keeps Value.Proper (Eval.value e) := by
  intro s hs
  obtain ⟨trace, r, h⟩ := (Config.mk (.ofExpr e .done) .empty s).halts
  have hr : r = Eval.value e s := by
    rw [h.result_eq]
    simp only [Config.comesTo, Stack.resume, Plan.perform_ofExpr]
    exact congrFun (bind_pure (Eval.value e)) s
  have hc : (Config.mk (.ofExpr e .done) .empty s).Confined (fun _ => True) e.mentions
      Value.Proper :=
    ⟨Plan.ofExpr_confined e (List.Subset.refl _) fun v hv => hv, trivial, hs⟩
  exact hr ▸ h.allows hc

/-- A unit comes to a proper value, if it comes to a value. -/
theorem proper_evaluate (mode : Mode) (u : Item) :
    Discipline.proper.Keeps u.Yields (mode.evaluate u) := by
  intro s hs
  obtain ⟨trace, h⟩ := run_ofUnit mode u s
  exact h.allows (Config.confined_ofUnit mode u hs)

theorem proper_stateBefore (ps : List Program) (p : Program) (i : Nat) :
    Discipline.proper.InTable (stateBefore ps p i).declarations := by
  exact stateBefore_induction Discipline.table_empty
    (fun mode u s hs => (proper_evaluate mode u s hs).final) ps p i

/-- The prompt does to a unit what a file does, and then follows what it comes to. -/
theorem interactive_eq_bind (u : Item) :
    ∃ anchor, Mode.interactive.evaluate u = Mode.batch.evaluate u >>= Eval.shown anchor := by
  cases u with
  | statement s => exact ⟨s.tag, Eval.item_statement s⟩
  | expression e => exact ⟨e.anchor, Eval.item_expression e⟩

/-- There is nothing to follow: a unit does the same in both modes. -/
theorem interactive_eq_batch (u : Item) {s : EvalState}
    (hs : Discipline.proper.InTable s.declarations) :
    Mode.interactive.evaluate u s = Mode.batch.evaluate u s := by
  obtain ⟨anchor, hu⟩ := interactive_eq_bind u
  have h := proper_evaluate .batch u s hs
  rw [hu]
  simp only [bind, EStateM.bind]
  generalize Mode.batch.evaluate u s = r at h ⊢
  cases h with
  | error _ _ => rfl
  | @ok v s' hv _ =>
    cases v with
    | none => rfl
    | some v =>
      have hproper : v.Proper := hv
      simp only [Eval.shown, Reference.dereference_of_not_reference anchor hproper.not_reference,
        pure_bind]
      rfl

/-- A state in which no reference is astray. -/
structure WellKept (s : EvalState) : Prop where
  /-- The values in the table are proper. -/
  stored : ∀ n v, s.declarations.find? n = some (.ready v) → v.Proper
  /-- What any expression comes to is proper, and the prompt leaves it as it is. -/
  value : ∀ e v s', Eval.value e s = .ok v s' →
    v.Proper ∧ ∀ anchor, Eval.dereference anchor v s' = .ok v s'
  /-- The prompt, which follows references, does with any unit what a file does. -/
  unit : ∀ u, Mode.interactive.evaluate u s = Mode.batch.evaluate u s

theorem wellKept_of_table {s : EvalState} (hs : Discipline.proper.InTable s.declarations) :
    WellKept s := by
  refine ⟨fun n v hv => hs n _ hv, fun e v s' hv => ?_, fun u => interactive_eq_batch u hs⟩
  have h := proper_value e s hs
  rw [hv] at h
  cases h with
  | ok hproper _ =>
    refine ⟨hproper, fun anchor => ?_⟩
    rw [Reference.dereference_of_not_reference anchor hproper.not_reference]
    rfl

/-- **References never escape.** Whatever a session evaluates, a reference stands in a value
only as the key of a pair: in each value that a unit yields, in each value in the table, at
every moment of the evaluation, and in each value that an expression would come to at that
moment. So there is never a reference for the prompt to follow. -/
theorem references_confined (ps : List Program) (p : Program) (i : Fin p.items.length) :
    WellKept (stateBefore ps p i) ∧
      ∃ trace r, Run (.ofUnit p.mode (p.items.get i) (stateBefore ps p i)) trace r ∧
        (p.evaluate (evaluateAll ps ∅).2).1.results[(i : Nat)]? = some (Eval.outcome r) ∧
        (∀ v, Eval.outcome r = .ok (some v) → v.Proper) ∧
        WellKept (Eval.final r) ∧ ∀ c ∈ trace, WellKept c.state := by
  have hs := proper_stateBefore ps p i
  obtain ⟨trace, h⟩ := run_ofUnit p.mode (p.items.get i) (stateBefore ps p i)
  have hallows := proper_evaluate p.mode (p.items.get i) _ hs
  have htrace := h.confined (Config.confined_ofUnit p.mode (p.items.get i) hs)
    fun _ _ _ _ => trivial
  refine ⟨wellKept_of_table hs, trace, _, h, results_getElem? ps p i, fun v hv => ?_,
    wellKept_of_table hallows.final, fun c hc => wellKept_of_table (htrace c hc).table⟩
  have hyields := hallows.result
  rw [hv] at hyields
  exact hyields

end LazyDecl
