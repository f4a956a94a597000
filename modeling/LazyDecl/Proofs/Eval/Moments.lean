import LazyDecl.Proofs.Eval.Discipline
import LazyDecl.Proofs.Eval.Machine

/-!
A discipline at every moment. What a sound discipline says of tables holds not only behind each
unit of a session, but all along the run of it, while computations are running.

* `Stack.Awaits`: what is said of the computations on a stack, of which only the innermost one
  has a result so far;
* `Config.Keeps.step`: no step of the machine violates it;
* `Reachable.inTable`: so the discipline holds wherever a session may stand.
-/

namespace LazyDecl

/-- The state at some moment of a session. -/
def Reachable (s : EvalState) : Prop :=
  ∃ (ps : List Program) (p : Program) (i : Fin p.items.length)
    (trace : List (Config (Option Value))) (r : EStateM.Result EvalError EvalState (Option Value)),
    Run (.ofUnit p.mode (p.items.get i) (stateBefore ps p i)) trace r ∧
      ∃ c ∈ trace, c.state = s

section Moments

variable {α β : Type} {D : Discipline}

/-- If the innermost computation comes to `r`, then each of them comes to what the discipline
asks for. The bodies that may be put back are of the discipline. -/
def Stack.Awaits (D : Discipline) : {β : Type} → Stack α β →
    EStateM.Result EvalError EvalState β → Prop
  | _, .empty, _ => True
  | _, .running name body next outer, r => D.tree body ∧ D.Allows D.value r ∧
    outer.Awaits D (match r with
      | .ok v s => (next v).perform (Eval.put name (.ready v) s)
      | .error e s => .error e (Eval.put name (.deferred body) s))

namespace Config

structure Keeps (D : Discipline) (c : Config α) : Prop where
  stack : c.stack.Awaits D (c.plan.perform c.state)
  table : D.InTable c.state.declarations

/-- **A step keeps a sound discipline.** Only the start of a computation has something to show:
that its body will come to a value of the discipline. -/
theorem Keeps.step (hD : D.Sound) {c d : Config α} (hc : c.Keeps D) (h : Step c d) :
    d.Keeps D := by
  obtain ⟨hstack, htable⟩ := hc
  cases h with
  | warn w next stack s => exact ⟨hstack, htable⟩
  | @absent β q s h next stack =>
    refine ⟨?_, htable⟩
    simp only [Plan.perform, bind, EStateM.bind, Query.answer, h] at hstack
    cases hq : q.absent with
    | ok v =>
      rw [hq] at hstack
      exact hstack
    | error e =>
      rw [hq] at hstack
      exact hstack
  | stored h next stack | cyclic h next stack =>
    refine ⟨?_, htable⟩
    simp only [Plan.perform, bind, EStateM.bind, Query.answer, h] at hstack
    exact hstack
  | @start β q s body h next stack =>
    have hbody : D.tree body := htable _ _ h
    have hmarked : D.InTable (Eval.put q.name .forcing s).declarations := htable.set q.name trivial
    have hvalue := hD.value hbody _ hmarked
    have hplan : (Plan.ofExpr body .done).perform = Eval.value body :=
      (Plan.perform_ofExpr body .done).trans (bind_pure (Eval.value body))
    refine ⟨⟨hbody, ?_, ?_⟩, hmarked⟩
    · rw [hplan]
      exact hvalue
    · simp only [Plan.perform, bind, EStateM.bind, Query.answer, h, Memo.force] at hstack
      rw [hplan]
      dsimp only
      cases hr : Eval.value body (Eval.put q.name .forcing s) with
      | ok v s' =>
        rw [hr] at hstack
        exact hstack
      | error e s' =>
        rw [hr] at hstack
        exact hstack
  | finish v name body next outer s =>
    obtain ⟨-, hvalue, houter⟩ := hstack
    cases hvalue with
    | ok hv _ => exact ⟨houter, htable.set name hv⟩
  | abandon e name body next outer s =>
    obtain ⟨hbody, -, houter⟩ := hstack
    exact ⟨houter, htable.set name hbody⟩

/-- A unit begins with nothing on the stack. -/
theorem keeps_ofUnit (hD : D.Sound) (mode : Mode) {u : Item} (hu : D.InUnit u) {s : EvalState}
    (hs : D.InTable s.declarations) : (ofUnit mode u s).Keeps D := by
  cases u with
  | expression e => exact ⟨trivial, hs⟩
  | statement st =>
    obtain ⟨tag, e⟩ := st
    rw [ofUnit]
    split
    · have hfinal := (hD.statement hu s hs).final
      cases hr : Eval.statement ⟨tag, e⟩ s <;> rw [hr] at hfinal <;> exact ⟨trivial, hfinal⟩
    · exact ⟨trivial, hs⟩

end Config

theorem Run.start_mem {c : Config α} {trace : List (Config α)}
    {r : EStateM.Result EvalError EvalState α} (h : Run c trace r) : c ∈ trace := by
  cases h <;> exact List.mem_cons_self ..

/-- Where a session stands in front of a bare expression. -/
theorem reachable_stateBefore (ps : List Program) (p : Program) (i : Fin p.items.length)
    {e : Expr} (he : p.items.get i = .expression e) : Reachable (stateBefore ps p i) := by
  obtain ⟨trace, h⟩ := run_ofUnit p.mode (p.items.get i) (stateBefore ps p i)
  refine ⟨ps, p, i, trace, _, h, _, h.start_mem, ?_⟩
  rw [he]
  rfl

/-- **A sound discipline that admits all trees holds wherever a session may stand.** -/
theorem Reachable.inTable {s : EvalState} (h : Reachable s) (hD : D.Sound)
    (htree : ∀ e, D.tree e) : D.InTable s.declarations := by
  obtain ⟨ps, p, i, trace, r, hrun, c, hc, rfl⟩ := h
  have hunit : ∀ u, D.InUnit u := by
    intro u
    cases u <;> exact htree _
  have hbefore : D.InTable (stateBefore ps p i).declarations :=
    stateBefore_induction Discipline.table_empty
      (fun mode u s hs => (hD.evaluate mode (hunit u) s hs).final) ps p i
  have hstart := Config.keeps_ofUnit hD p.mode (hunit (p.items.get i)) hbefore
  have htrace := hrun.invariant hstart fun _ _ _ hd hs => hd.step hD hs
  exact (htrace c hc).table

end Moments

end LazyDecl
