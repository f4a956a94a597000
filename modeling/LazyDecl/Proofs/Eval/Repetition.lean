import LazyDecl.Proofs.Eval.Machine

/-!
Evaluating twice. What a plan comes to is laid out as a derivation that knows nothing of
warnings and mentions the table only where a name is looked up (`Plan.ComesTo`).

* `ComesTo.retains`: names stay absent, stored values stay, and what is running stays so;
* `ComesTo.again`: from the table that is left, the plan comes to the same outcome and leaves
  that table as it is;
* `evaluation_idempotent`: so does the evaluation of an expression.
-/

namespace LazyDecl

namespace Plan

/-- From the first table the plan comes to the outcome and leaves the second table. -/
inductive ComesTo : {α : Type} → Plan α → Declarations Expr Value → Except EvalError α →
    Declarations Expr Value → Prop
  | done {α : Type} (a : α) (d : Declarations Expr Value) : ComesTo (.done a) d (.ok a) d
  | fail {α : Type} (e : EvalError) (d : Declarations Expr Value) :
      ComesTo (.fail e : Plan α) d (.error e) d
  | warn {α : Type} {w : EvalWarning} {next : Plan α} {d d' : Declarations Expr Value}
      {r : Except EvalError α} : ComesTo next d r d' → ComesTo (.warn w next) d r d'
  /-- The name is not declared, and the plan goes on. -/
  | absent {α : Type} {q : Query} {next : Value → Plan α} {d d' : Declarations Expr Value}
      {v : Value} {r : Except EvalError α} : d.find? q.name = none → q.absent = .ok v →
      ComesTo (next v) d r d' → ComesTo (.ask q next) d r d'
  | unknown {α : Type} {q : Query} {next : Value → Plan α} {d : Declarations Expr Value}
      {e : EvalError} : d.find? q.name = none → q.absent = .error e →
      ComesTo (.ask q next) d (.error e) d
  | stored {α : Type} {q : Query} {next : Value → Plan α} {d d' : Declarations Expr Value}
      {v : Value} {r : Except EvalError α} : d.find? q.name = some (.ready v) →
      ComesTo (next v) d r d' → ComesTo (.ask q next) d r d'
  | cyclic {α : Type} {q : Query} {next : Value → Plan α} {d : Declarations Expr Value} :
      d.find? q.name = some .forcing → ComesTo (.ask q next) d (.error q.cycle) d
  /-- The body comes to a value, which is stored. -/
  | finished {α : Type} {q : Query} {next : Value → Plan α} {body : Expr} {v : Value}
      {d d₁ d' : Declarations Expr Value} {r : Except EvalError α} :
      d.find? q.name = some (.deferred body) →
      ComesTo (.ofExpr body .done) (d.set q.name .forcing) (.ok v) d₁ →
      ComesTo (next v) (d₁.set q.name (.ready v)) r d' → ComesTo (.ask q next) d r d'
  /-- The body fails, and is put back. -/
  | abandoned {α : Type} {q : Query} {next : Value → Plan α} {body : Expr} {e : EvalError}
      {d d₁ : Declarations Expr Value} : d.find? q.name = some (.deferred body) →
      ComesTo (.ofExpr body .done) (d.set q.name .forcing) (.error e) d₁ →
      ComesTo (.ask q next) d (.error e) (d₁.set q.name (.deferred body))

/-- What a table keeps while expressions are evaluated on it. -/
structure Retains (d d' : Declarations Expr Value) : Prop where
  absent : ∀ n, d.find? n = none → d'.find? n = none
  forcing : ∀ n, d.find? n = some .forcing → d'.find? n = some .forcing
  ready : ∀ n v, d.find? n = some (.ready v) → d'.find? n = some (.ready v)

theorem Retains.refl (d : Declarations Expr Value) : Retains d d :=
  ⟨fun _ h => h, fun _ h => h, fun _ _ h => h⟩

theorem Retains.trans {d₁ d₂ d₃ : Declarations Expr Value} (h : Retains d₁ d₂)
    (h' : Retains d₂ d₃) : Retains d₁ d₃ where
  absent n hn := h'.absent n (h.absent n hn)
  forcing n hn := h'.forcing n (h.forcing n hn)
  ready n v hn := h'.ready n v (h.ready n v hn)

/-- While a deferred name is marked all others are retained, and the name itself may then be
given any memo. -/
theorem Retains.of_marked {d d₁ : Declarations Expr Value} {name : String} {body : Expr}
    (hm : d.find? name = some (.deferred body)) (h : Retains (d.set name .forcing) d₁)
    (memo : Memo Expr Value) : Retains d (d₁.set name memo) := by
  have hother : ∀ n memo', d.find? n = memo' → memo' ≠ some (.deferred body) →
      n ≠ name ∧ (d.set name .forcing).find? n = memo' := by
    intro n memo' hn hne
    have : n ≠ name := by
      rintro rfl
      exact hne (hn.symm.trans hm)
    exact ⟨this, (Declarations.find?_set_of_ne d this _).trans hn⟩
  constructor
  · intro n hn
    obtain ⟨hne, hn⟩ := hother n _ hn (by simp)
    rw [Declarations.find?_set_of_ne _ hne, h.absent n hn]
  · intro n hn
    obtain ⟨hne, hn⟩ := hother n _ hn (by simp)
    rw [Declarations.find?_set_of_ne _ hne, h.forcing n hn]
  · intro n v hn
    obtain ⟨hne, hn⟩ := hother n _ hn (by simp)
    rw [Declarations.find?_set_of_ne _ hne, h.ready n v hn]

namespace ComesTo

variable {α : Type} {plan : Plan α} {d d' : Declarations Expr Value} {r : Except EvalError α}

theorem retains (h : ComesTo plan d r d') : Retains d d' := by
  induction h with
  | done | fail | unknown | cyclic => exact .refl _
  | warn _ ih | absent _ _ _ ih | stored _ _ ih => exact ih
  | finished hm _ _ ihbody ih => exact (ihbody.of_marked hm _).trans ih
  | abandoned hm _ ih => exact ih.of_marked hm _

/-- The name whose body was performed is still marked then. -/
theorem find?_marked {β : Type} {body : Plan β} {e : Except EvalError β} {name : String}
    {old : Memo Expr Value} (hm : d.find? name = some old)
    (h : ComesTo body (d.set name .forcing) e d') : d'.find? name = some .forcing :=
  h.retains.forcing name (Declarations.find?_set_self hm _)

/-- **Once more.** After a failure the plan fails alike on the table that is left, and after a
success it has the same outcome on all tables that retain that one. It leaves them as they
are. -/
theorem again (h : ComesTo plan d r d') (d'' : Declarations Expr Value)
    (hd : Retains d' d'') (herror : ∀ e, r = .error e → d'' = d') : ComesTo plan d'' r d'' := by
  induction h generalizing d'' with
  | done a d => exact .done a d''
  | fail e d => exact .fail e d''
  | warn _ ih => exact .warn (ih _ hd herror)
  | absent hm hq h ih => exact .absent (hd.absent _ (h.retains.absent _ hm)) hq (ih _ hd herror)
  | unknown hm hq => exact .unknown (hd.absent _ hm) hq
  | stored hm h ih => exact .stored (hd.ready _ _ (h.retains.ready _ _ hm)) (ih _ hd herror)
  | cyclic hm => exact .cyclic (hd.forcing _ hm)
  | @finished _ q next body v d d₁ _ _ hm hbody h _ ih =>
    -- The value is there by now, so that the body is not performed again.
    have hready := Declarations.find?_set_self (hbody.find?_marked hm) (.ready v)
    exact .stored (hd.ready _ _ (h.retains.ready _ _ hready)) (ih _ hd herror)
  | @abandoned _ q next body e d d₁ hm hbody ih =>
    obtain rfl := herror e rfl
    have hforcing := hbody.find?_marked hm
    -- The name is marked again, which takes the table to where the body failed.
    have hmark : (d₁.set q.name (.deferred body)).set q.name .forcing = d₁ := by
      rw [Declarations.set_set, Declarations.set_eq_self hforcing]
    have hagain := ih d₁ (.refl _) fun _ _ => rfl
    have h : ComesTo (.ask q next) (d₁.set q.name (.deferred body)) (.error e) _ :=
      .abandoned (Declarations.find?_set_self hforcing (.deferred body)) (hmark.symm ▸ hagain)
    rwa [hmark] at h

theorem pending_le (h : ComesTo plan d r d') : d'.pending ≤ d.pending := by
  induction h with
  | done | fail | unknown | cyclic => exact Nat.le_refl _
  | warn _ ih | absent _ _ _ ih | stored _ _ ih => exact ih
  | @finished _ q _ _ v d d₁ _ _ hm _ _ ihbody ih =>
    have := Declarations.pending_set hm .forcing
    have := Declarations.pending_set_le d₁ q.name (.ready v)
    simp only [Memo.isDeferred, Bool.toNat_true, Bool.toNat_false] at *
    omega
  | @abandoned _ q _ body _ d d₁ hm _ ih =>
    have := Declarations.pending_set hm .forcing
    have := Declarations.pending_set_le d₁ q.name (.deferred body)
    simp only [Memo.isDeferred, Bool.toNat_true, Bool.toNat_false] at *
    omega

end ComesTo

/-! ## Performing a plan -/

section Perform

variable {α : Type} {q : Query} {next : Value → Plan α} {body : Expr} {s t : EvalState} {v : Value}
  {e : EvalError}

theorem perform_ask_ok (h : q.answer s = .ok v t) :
    (Plan.ask q next).perform s = (next v).perform t := by
  simp only [perform, bind, EStateM.bind, h]

theorem perform_ask_error (h : q.answer s = .error e t) :
    (Plan.ask q next).perform s = .error e t := by
  simp only [perform, bind, EStateM.bind, h]

theorem perform_absent (hm : s.declarations.find? q.name = none) (hq : q.absent = .ok v) :
    (Plan.ask q next).perform s = (next v).perform s :=
  perform_ask_ok (by simp only [Query.answer, hm, hq])

theorem perform_unknown (hm : s.declarations.find? q.name = none) (hq : q.absent = .error e) :
    (Plan.ask q next).perform s = .error e s :=
  perform_ask_error (by simp only [Query.answer, hm, hq])

theorem perform_stored (hm : s.declarations.find? q.name = some (.ready v)) :
    (Plan.ask q next).perform s = (next v).perform s :=
  perform_ask_ok (by simp only [Query.answer, hm]; rfl)

theorem perform_cyclic (hm : s.declarations.find? q.name = some .forcing) :
    (Plan.ask q next).perform s = .error q.cycle s :=
  perform_ask_error (by simp only [Query.answer, hm]; rfl)

theorem perform_finished (hm : s.declarations.find? q.name = some (.deferred body))
    (h : Eval.value body (Eval.put q.name .forcing s) = .ok v t) :
    (Plan.ask q next).perform s = (next v).perform (Eval.put q.name (.ready v) t) :=
  perform_ask_ok (by simp only [Query.answer, hm, Memo.force, h])

theorem perform_abandoned (hm : s.declarations.find? q.name = some (.deferred body))
    (h : Eval.value body (Eval.put q.name .forcing s) = .error e t) :
    (Plan.ask q next).perform s = .error e (Eval.put q.name (.deferred body) t) :=
  perform_ask_error (by simp only [Query.answer, hm, Memo.force, h])

theorem perform_ofExpr_done (e : Expr) : (ofExpr e .done).perform = Eval.value e := by
  rw [perform_ofExpr]
  exact bind_pure _

end Perform

/-- The rules tell what the evaluator does. -/
theorem ComesTo.perform_eq {α : Type} {plan : Plan α} {d d' : Declarations Expr Value}
    {r : Except EvalError α} (h : ComesTo plan d r d') (s : EvalState) (hs : s.declarations = d) :
    Eval.outcome (plan.perform s) = r ∧ (Eval.final (plan.perform s)).declarations = d' := by
  induction h generalizing s with
  | done | fail => exact ⟨rfl, hs⟩
  | @warn _ w next _ _ _ _ ih =>
    have hnext := ih { s with warnings := s.warnings ++ [w] } hs
    exact hnext
  | absent hm hq _ ih =>
    rw [perform_absent (hs ▸ hm) hq]
    exact ih s hs
  | unknown hm hq =>
    rw [perform_unknown (hs ▸ hm) hq]
    exact ⟨rfl, hs⟩
  | stored hm _ ih =>
    rw [perform_stored (hs ▸ hm)]
    exact ih s hs
  | cyclic hm =>
    rw [perform_cyclic (hs ▸ hm)]
    exact ⟨rfl, hs⟩
  | @finished _ q _ body v _ d₁ _ _ hm _ _ ihbody ih =>
    obtain ⟨hout, hfinal⟩ := ihbody (Eval.put q.name .forcing s) (by rw [Eval.put, hs])
    rw [perform_ofExpr_done] at hout hfinal
    cases hv : Eval.value body (Eval.put q.name .forcing s) with
    | error e t =>
      rw [hv] at hout
      cases hout
    | ok u t =>
      rw [hv] at hout hfinal
      cases hout
      rw [perform_finished (hs ▸ hm) hv]
      exact ih _ (congrArg (Declarations.set · q.name (.ready v)) hfinal)
  | @abandoned _ q _ body e _ d₁ hm _ ih =>
    obtain ⟨hout, hfinal⟩ := ih (Eval.put q.name .forcing s) (by rw [Eval.put, hs])
    rw [perform_ofExpr_done] at hout hfinal
    cases hv : Eval.value body (Eval.put q.name .forcing s) with
    | ok u t =>
      rw [hv] at hout
      cases hout
    | error e' t =>
      rw [hv] at hout hfinal
      cases hout
      rw [perform_abandoned (hs ▸ hm) hv]
      exact ⟨rfl, congrArg (Declarations.set · q.name (.deferred body)) hfinal⟩

/-- A plan goes by the rules, if the bodies of deferred declarations do. -/
theorem comesTo_of_bodies {α : Type} {n : Nat}
    (hbody : ∀ (body : Expr) (s : EvalState), s.declarations.pending < n →
      ComesTo (.ofExpr body .done) s.declarations (Eval.outcome (Eval.value body s))
        (Eval.final (Eval.value body s)).declarations)
    (plan : Plan α) (s : EvalState) (hs : s.declarations.pending < n + 1) :
    ComesTo plan s.declarations (Eval.outcome (plan.perform s))
      (Eval.final (plan.perform s)).declarations := by
  induction plan generalizing s with
  | done a => exact .done a _
  | fail e => exact .fail e _
  | warn w next ih =>
    have hnext := ih { s with warnings := s.warnings ++ [w] } hs
    exact .warn hnext
  | ask q next ih =>
    cases hm : s.declarations.find? q.name with
    | none =>
      cases hq : q.absent with
      | ok v =>
        rw [perform_absent hm hq]
        exact .absent hm hq (ih v s hs)
      | error e =>
        rw [perform_unknown hm hq]
        exact .unknown hm hq
    | some memo =>
      cases memo with
      | ready v =>
        rw [perform_stored hm]
        exact .stored hm (ih v s hs)
      | forcing =>
        rw [perform_cyclic hm]
        exact .cyclic hm
      | deferred body =>
        have hlt := Eval.pending_put_lt hm
        have hstart := hbody body (Eval.put q.name .forcing s) (by omega)
        have hle := hstart.pending_le
        cases hv : Eval.value body (Eval.put q.name .forcing s) with
        | ok v t =>
          rw [hv] at hstart hle
          rw [perform_finished hm hv]
          have hready := Declarations.pending_set_le t.declarations q.name (.ready v)
          have hrest := ih v (Eval.put q.name (.ready v) t) (by
            simp only [Memo.isDeferred, Bool.toNat_false] at hready
            simp only [Eval.put, Eval.final] at *
            omega)
          exact .finished hm hstart hrest
        | error e t =>
          rw [hv] at hstart
          rw [perform_abandoned hm hv]
          exact .abandoned hm hstart

/-- **The evaluator goes by the rules.** By induction on how many declarations are pending: a
body is performed while its name is marked. -/
theorem comesTo_perform {α : Type} (plan : Plan α) (s : EvalState) :
    ComesTo plan s.declarations (Eval.outcome (plan.perform s))
      (Eval.final (plan.perform s)).declarations := by
  have hvalue : ∀ n (e : Expr) (s : EvalState), s.declarations.pending < n →
      ComesTo (.ofExpr e .done) s.declarations (Eval.outcome (Eval.value e s))
        (Eval.final (Eval.value e s)).declarations := by
    intro n
    induction n with
    | zero => omega
    | succ n ih =>
      intro e s hs
      rw [← perform_ofExpr_done]
      exact comesTo_of_bodies ih _ s hs
  exact comesTo_of_bodies (hvalue _) plan s (Nat.lt_succ_self _)

/-- A plan that is performed twice has the same outcome, and changes the table once. -/
theorem perform_again {α : Type} (plan : Plan α) (s t : EvalState)
    (ht : t.declarations = (Eval.final (plan.perform s)).declarations) :
    Eval.outcome (plan.perform t) = Eval.outcome (plan.perform s) ∧
      (Eval.final (plan.perform t)).declarations = t.declarations :=
  ((comesTo_perform plan s).again t.declarations (ht ▸ .refl _) fun _ _ => ht).perform_eq t rfl

end Plan

/-- What is done for a bare expression is laid out in a plan. -/
theorem evaluate_expression (mode : Mode) (e : Expr) :
    mode.evaluate (.expression e) = (Plan.ofExpr e (.yield mode e.anchor)).perform := by
  funext s
  rw [← Config.comesTo_ofUnit]
  rfl

/-- **Evaluation is idempotent.** On every table, whatever it holds: evaluated once more, an
expression comes to the same value or the same error, and leaves the table as the first
evaluation left it. So it is with a bare expression at the prompt. -/
theorem evaluation_idempotent (e : Expr) :
    (∀ s : EvalState,
      let first := Eval.value e s
      let second := Eval.value e (Eval.final first)
      Eval.outcome second = Eval.outcome first ∧
        (Eval.final second).declarations = (Eval.final first).declarations) ∧
    ∀ d : Declarations Expr Value,
      let first := (Program.interactive [.expression e]).evaluate d
      let second := (Program.interactive [.expression e]).evaluate first.2
      second.1.results = first.1.results ∧ second.2 = first.2 := by
  refine ⟨fun s => ?_, fun d => ?_⟩
  · rw [← Plan.perform_ofExpr_done]
    exact Plan.perform_again _ s _ rfl
  · have hevaluate : ∀ d : Declarations Expr Value,
        ((Program.interactive [.expression e]).evaluate d).1.results =
            [Eval.outcome ((Plan.ofExpr e (.yield .interactive e.anchor)).perform
              { declarations := d })] ∧
          ((Program.interactive [.expression e]).evaluate d).2 =
            (Eval.final ((Plan.ofExpr e (.yield .interactive e.anchor)).perform
              { declarations := d })).declarations := by
      intro d
      rw [← evaluate_expression]
      simp only [Program.evaluate, Program.units, List.map_cons, List.map_nil, Eval.all_cons]
      exact ⟨rfl, rfl⟩
    intro first second
    obtain ⟨hout, htable⟩ := Plan.perform_again (.ofExpr e (.yield .interactive e.anchor))
      { declarations := d } { declarations := first.2 } (hevaluate d).2
    exact ⟨by rw [(hevaluate first.2).1, (hevaluate d).1, hout], (hevaluate first.2).2.trans htable⟩

end LazyDecl
