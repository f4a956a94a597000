import LazyDecl.Proofs.Eval.Machine

/-!
What a unit may do to the table. While the machine runs, the memos of the names on its
stack are marked; put them back, and the table that is left (`Config.settled`) changes
only where a computation comes to its value.

* `Run.grows`: behind a run the declarations that came to a value have it, and all the
  others are as they were, also if the run fails;
* `table_evolves`: so is the table of a session from one unit to the next, apart from the
  name that the unit declares.
-/

namespace LazyDecl

/-- The table with the computations of a stack as they were before they were started. -/
def Stack.putBack {α : Type} : {β : Type} → Stack α β → Declarations Expr Value →
    Declarations Expr Value
  | _, .empty, d => d
  | _, .running name body _ outer, d => outer.putBack (d.set name (.deferred body))

/-- The names whose computation is running, with their bodies. -/
def Stack.bodies {α β : Type} : Stack α β → List (String × Expr)
  | .empty => []
  | .running name body _ outer => (name, body) :: outer.bodies

section Stack

variable {α β : Type} {name : String}

theorem Stack.find?_putBack {stack : Stack α β} (h : name ∉ stack.names)
    (d : Declarations Expr Value) : (stack.putBack d).find? name = d.find? name := by
  induction stack generalizing d with
  | empty => rfl
  | running other body next outer ih =>
    simp only [names, List.mem_cons, not_or] at h
    rw [putBack, ih h.2, Declarations.find?_set_of_ne d h.1]

theorem Stack.putBack_set {stack : Stack α β} (h : name ∉ stack.names) (memo : Memo Expr Value)
    (d : Declarations Expr Value) :
    stack.putBack (d.set name memo) = (stack.putBack d).set name memo := by
  induction stack generalizing d with
  | empty => rfl
  | running other body next outer ih =>
    simp only [names, List.mem_cons, not_or] at h
    rw [putBack, Declarations.set_comm d h.1, ih h.2, putBack]

/-- What is running is deferred once it is put back. -/
theorem Stack.deferred_putBack {stack : Stack α β} {d : Declarations Expr Value}
    (h : Marked stack.names d) {body : Expr} (hb : (name, body) ∈ stack.bodies) :
    (stack.putBack d).find? name = some (.deferred body) := by
  induction stack generalizing d with
  | empty => cases hb
  | running other otherBody next outer ih =>
    rw [putBack]
    obtain h' | hb := List.mem_cons.1 hb
    · cases h'
      rw [find?_putBack (List.nodup_cons.1 h.nodup).1,
        Declarations.find?_set_self ((h.forcing name).2 (List.mem_cons_self ..))]
    · exact ih (h.pop rfl) hb

end Stack

namespace Config

variable {α : Type}

/-- The table as it is if the computations that are running have not been started. -/
def settled (c : Config α) : Declarations Expr Value := c.stack.putBack c.state.declarations

/-- The name whose computation has come to its value, with the value. -/
def finished? : Config α → Option (String × Value)
  | ⟨.done v, .running name _ _ _, _⟩ => some (name, v)
  | _ => none

/-- A step leaves the settled table as it is, unless it finishes a computation. -/
theorem Step.settled_eq {c d : Config α} (h : Step c d) (hc : c.Sound) :
    d.settled = match c.finished? with
      | some (name, v) => c.settled.set name (.ready v)
      | none => c.settled := by
  cases h with
  | warn | absent | stored | cyclic | abandon => rfl
  | @start β q s body h next stack =>
    simp only [settled, Stack.putBack, Eval.put, finished?]
    rw [Declarations.set_set, Declarations.set_eq_self h]
  | finish v name body next outer s =>
    have hnew : name ∉ outer.names := (List.nodup_cons.1 hc.nodup).1
    simp only [settled, Stack.putBack, Eval.put, finished?]
    rw [Stack.putBack_set hnew, Stack.putBack_set hnew, Declarations.set_set]

/-- Only a deferred computation comes to its value. -/
theorem Sound.deferred_of_finished {c : Config α} (hc : c.Sound) {name : String} {v : Value}
    (h : c.finished? = some (name, v)) :
    ∃ body, c.settled.find? name = some (.deferred body) := by
  obtain ⟨plan, stack, s⟩ := c
  cases plan with
  | done u =>
    cases stack with
    | empty => cases h
    | running name body next outer =>
      cases h
      exact ⟨body, Stack.deferred_putBack hc (List.mem_cons_self ..)⟩
  | fail | warn | ask => cases stack <;> cases h

end Config

/-- The second table is the first one with the values of the declarations that have
finished; no declaration has finished that was not deferred. -/
structure Grows (finished : List (String × Value)) (d d' : Declarations Expr Value) : Prop where
  names : d'.names = d.names
  kept : ∀ n, (∀ v, (n, v) ∉ finished) → d'.find? n = d.find? n
  stored : ∀ n v, (n, v) ∈ finished →
    (∃ body, d.find? n = some (.deferred body)) ∧ d'.find? n = some (.ready v)

section Grows

variable {finished : List (String × Value)} {d d' : Declarations Expr Value}

theorem Grows.refl (d : Declarations Expr Value) : Grows [] d d :=
  ⟨rfl, fun _ _ => rfl, fun _ _ h => by cases h⟩

theorem Grows.cons {name : String} {v : Value} {body : Expr}
    (hm : d.find? name = some (.deferred body))
    (h : Grows finished (d.set name (.ready v)) d') : Grows ((name, v) :: finished) d d' := by
  have hself := Declarations.find?_set_self hm (.ready v)
  -- A value that is stored is not worked out again.
  have honce : ∀ u, (name, u) ∉ finished := by
    intro u hu
    obtain ⟨⟨body', hb⟩, -⟩ := h.stored name u hu
    rw [hself] at hb
    cases hb
  refine ⟨by rw [h.names, Declarations.names_set], fun n hn => ?_, fun n u hu => ?_⟩
  · have hne : n ≠ name := by
      intro he
      exact hn v (he ▸ List.mem_cons_self ..)
    rw [h.kept n fun u hu => hn u (List.mem_cons_of_mem _ hu),
      Declarations.find?_set_of_ne d hne]
  · rcases List.mem_cons.1 hu with he | hin
    · cases he
      exact ⟨⟨body, hm⟩, (h.kept _ honce).trans hself⟩
    · have hne : n ≠ name := by
        intro he
        exact honce u (he ▸ hin)
      have hs := h.stored n u hin
      rwa [Declarations.find?_set_of_ne d hne] at hs

end Grows

/-- **A run only adds values.** -/
theorem Run.grows {α : Type} {c : Config α} {trace : List (Config α)}
    {r : EStateM.Result EvalError EvalState α} (h : Run c trace r) (hc : c.Sound) :
    Grows (trace.filterMap Config.finished?) c.settled (Eval.final r).declarations := by
  induction h with
  | done a s => exact .refl _
  | fail e s => exact .refl _
  | @step c d trace r hstep _ ih =>
    have hs := Config.step_eq_some.1 hstep
    have hg := ih (hc.step hs)
    rw [hs.settled_eq hc] at hg
    rw [List.filterMap_cons]
    cases hf : c.finished? with
    | none =>
      rw [hf] at hg
      exact hg
    | some e =>
      obtain ⟨body, hm⟩ := hc.deferred_of_finished hf
      rw [hf] at hg
      exact .cons hm hg

/-! ## Units -/

/-- The table with what a unit declares. -/
def installed (declared? : Option (String × Expr)) (d : Declarations Expr Value) :
    Declarations Expr Value :=
  match declared? with
  | some (name, body) => d.declare name (.deferred body)
  | none => d

theorem settled_ofUnit (mode : Mode) (u : Item) (s : EvalState) :
    (Config.ofUnit mode u s).settled = installed (Reference.declared? u) s.declarations := by
  have hended : ∀ r : EStateM.Result EvalError EvalState (Option Value),
      (Config.ended r).settled = (Eval.final r).declarations := by
    intro r
    cases r <;> rfl
  cases u with
  | statement st =>
    obtain ⟨tag, e⟩ := st
    by_cases ht : tag.lexeme = Eval.declarationTag
    · rw [Config.ofUnit, if_pos ht, hended]
      exact final_declaration e ht s
    · rw [Config.ofUnit, if_neg ht, Reference.declared?, if_neg ht]
      rfl
  | expression e => rfl

/-- A unit that declares a name is over at once, and does not fail. -/
theorem run_declares {mode : Mode} {u : Item} {s : EvalState} {name : String} {body : Expr}
    (hu : Reference.declared? u = some (name, body)) {trace : List (Config (Option Value))}
    {r : EStateM.Result EvalError EvalState (Option Value)}
    (h : Run (.ofUnit mode u s) trace r) :
    trace.filterMap Config.finished? = [] ∧ Eval.outcome r = .ok none := by
  obtain ⟨tag, left, colon, t, rfl, ht, hn, -⟩ := Reference.declared?_eq_some hu
  rw [Config.ofUnit, if_pos ht, Eval.statement_declare ht hn, Config.ended] at h
  cases h with
  | done => exact ⟨rfl, rfl⟩
  | step hstep => cases hstep

/-- So a unit that fails declares nothing. -/
theorem declared?_of_error {mode : Mode} {u : Item} {s : EvalState}
    {trace : List (Config (Option Value))} {r : EStateM.Result EvalError EvalState (Option Value)}
    (h : Run (.ofUnit mode u s) trace r) {e : EvalError} (he : Eval.outcome r = .error e) :
    Reference.declared? u = none := by
  rw [Option.eq_none_iff_forall_ne_some]
  rintro ⟨name, body⟩ hd
  rw [(run_declares hd h).2] at he
  cases he

/-- What a unit may do to the table, if it declares `declared?` and if the computations in
`finished` come to a value while it is evaluated. -/
structure Evolves (declared? : Option (String × Expr)) (finished : List (String × Value))
    (d d' : Declarations Expr Value) : Prop where
  /-- No computation is running, neither before nor after the unit. -/
  idle : ∀ n, d.find? n ≠ some .forcing ∧ d'.find? n ≠ some .forcing
  /-- A name is added at the end, if it is new. -/
  names : d'.names = d.names ∨ ∃ name body, declared? = some (name, body) ∧ name ∉ d.names ∧
    d'.names = d.names ++ [name]
  /-- A declaration is deferred, also in place of an earlier one. -/
  declared : ∀ name body, declared? = some (name, body) →
    d'.find? name = some (.deferred body)
  /-- A value stays. -/
  ready : ∀ n v, (∀ body, declared? ≠ some (n, body)) → d.find? n = some (.ready v) →
    d'.find? n = some (.ready v)
  /-- A deferred declaration stays as it is or has come to its value. -/
  deferred : ∀ n body, (∀ other, declared? ≠ some (n, other)) →
    d.find? n = some (.deferred body) →
    d'.find? n = some (.deferred body) ∨ ∃ v, (n, v) ∈ finished ∧ d'.find? n = some (.ready v)
  /-- A computation that has not come to a value leaves its memo as it was. -/
  kept : ∀ n, (∀ body, declared? ≠ some (n, body)) → (∀ v, (n, v) ∉ finished) →
    d'.find? n = d.find? n
  /-- A computation that has come to a value is remembered. -/
  stored : ∀ n v, (n, v) ∈ finished → d'.find? n = some (.ready v)

theorem Grows.evolves {declared? : Option (String × Expr)} {finished : List (String × Value)}
    {d d' : Declarations Expr Value} (h : Grows finished (installed declared? d) d')
    (hidle : ∀ n, d.find? n ≠ some .forcing ∧ d'.find? n ≠ some .forcing)
    (hdeclares : declared? ≠ none → finished = []) :
    Evolves declared? finished d d' := by
  -- What is not declared is found as before.
  have hfind : ∀ n, (∀ body, declared? ≠ some (n, body)) →
      (installed declared? d).find? n = d.find? n := by
    intro n hn
    cases declared? with
    | none => rfl
    | some e =>
      have hne : n ≠ e.1 := by
        rintro rfl
        exact hn e.2 rfl
      rw [installed, Declarations.find?_declare, if_neg hne]
  refine ⟨hidle, ?_, fun name body hdecl => ?_, fun n v hn hm => ?_, fun n body hn hm => ?_,
    fun n hn hf => (h.kept n hf).trans (hfind n hn), fun n v hf => (h.stored n v hf).2⟩
  · rw [h.names]
    cases declared? with
    | none => exact Or.inl rfl
    | some e =>
      rw [installed, Declarations.names_declare]
      split
      · exact Or.inl rfl
      · next hc => exact Or.inr ⟨e.1, e.2, rfl, mt Declarations.mem_names.1 hc, rfl⟩
  · cases hdecl
    have hf := hdeclares (by simp)
    rw [h.kept name (by simp [hf]), installed, Declarations.find?_declare, if_pos rfl]
  · rw [← hfind n hn] at hm
    have hf : ∀ u, (n, u) ∉ finished := by
      intro u hu
      obtain ⟨⟨body, hb⟩, -⟩ := h.stored n u hu
      rw [hm] at hb
      cases hb
    rw [h.kept n hf, hm]
  · rw [← hfind n hn] at hm
    by_cases hf : ∃ v, (n, v) ∈ finished
    · obtain ⟨v, hv⟩ := hf
      exact Or.inr ⟨v, hv, (h.stored n v hv).2⟩
    · rw [h.kept n (not_exists.1 hf), hm]
      exact Or.inl rfl

/-- **The table only grows.** From one unit of a session to the next, no name disappears
or moves, a value stays, and a deferred declaration stays as it is unless its computation
comes to a value; only the name that a well-formed declaration declares is added or
replaced. A unit that fails declares nothing, so that it leaves every memo as it was whose
own computation has not come to a value. -/
theorem table_evolves (ps : List Program) (p : Program) (i : Fin p.items.length) :
    ∃ trace r, Run (.ofUnit p.mode (p.items.get i) (stateBefore ps p i)) trace r ∧
      (p.evaluate (evaluateAll ps ∅).2).1.results[(i : Nat)]? = some (Eval.outcome r) ∧
      Evolves (Reference.declared? (p.items.get i)) (trace.filterMap Config.finished?)
        (stateBefore ps p i).declarations (stateBefore ps p (i + 1)).declarations ∧
      ∀ e, Eval.outcome r = .error e → Reference.declared? (p.items.get i) = none := by
  obtain ⟨trace, h⟩ := run_ofUnit p.mode (p.items.get i) (stateBefore ps p i)
  have hmarked := marked_stateBefore ps p i
  have hgrows := h.grows (Config.sound_ofUnit p.mode (p.items.get i) hmarked)
  rw [settled_ofUnit, ← stateBefore_succ] at hgrows
  refine ⟨trace, _, h, results_getElem? ps p i, hgrows.evolves (fun n => ?_) fun hdecl => ?_,
    fun e he => declared?_of_error h he⟩
  · have hafter := marked_stateBefore ps p (i + 1)
    exact ⟨by simp [hmarked.forcing n], by simp [hafter.forcing n]⟩
  · obtain ⟨⟨name, body⟩, hd⟩ := Option.ne_none_iff_exists'.1 hdecl
    exact (run_declares hd h).1

end LazyDecl
