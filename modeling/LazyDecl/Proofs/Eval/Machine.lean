import Mathlib.Data.List.Perm.Subperm
import LazyDecl.Proofs.Eval.Plan
import LazyDecl.Proofs.Eval.Reference

/-!
The evaluator as a machine that takes one step at a time and keeps the declarations
whose computation is running on a stack.

* `halts`: from every configuration the machine comes to an end, although a body may
  ask for any name, and a failed computation is there to be run again;
* `Run.result_eq`: what it comes to is what the evaluator gives;
* `Sound.step`: no computation that is running is started again.
-/

namespace LazyDecl

/-- The computations that are running, the innermost one first: each belongs to a
name, and has a body to go back to and a plan that waits for its value. What waits for
a `β` at the top ends with an `α` at the bottom. -/
inductive Stack (α : Type) : Type → Type 1
  | empty : Stack α α
  | running {β : Type} (name : String) (body : Expr) (next : Value → Plan β)
      (outer : Stack α β) : Stack α Value

def Stack.names {α β : Type} : Stack α β → List String
  | .empty => []
  | .running name _ _ outer => name :: outer.names

structure Config (α : Type) where
  {β : Type}
  plan : Plan β
  stack : Stack α β
  state : EvalState

namespace Config

variable {α : Type}

/-- One step, unless the machine has come to its end. A failure goes down the stack and
leaves each computation as it was before it was started. -/
def step : Config α → Option (Config α)
  | ⟨.warn w next, stack, s⟩ => some ⟨next, stack, { s with warnings := s.warnings ++ [w] }⟩
  | ⟨.ask q next, stack, s⟩ =>
    match s.declarations.find? q.name with
    | none => some ⟨.ofExcept q.absent next, stack, s⟩
    | some (.ready v) => some ⟨next v, stack, s⟩
    | some .forcing => some ⟨.fail q.cycle, stack, s⟩
    | some (.deferred body) =>
      some ⟨.ofExpr body .done, .running q.name body next stack, Eval.put q.name .forcing s⟩
  | ⟨.done v, .running name _ next outer, s⟩ =>
    some ⟨next v, outer, Eval.put name (.ready v) s⟩
  | ⟨.fail e, .running name body _ outer, s⟩ =>
    some ⟨.fail e, outer, Eval.put name (.deferred body) s⟩
  | ⟨.done _, .empty, _⟩ => none
  | ⟨.fail _, .empty, _⟩ => none

/-- The names whose computation is running. -/
def names (c : Config α) : List String := c.stack.names

/-- All that a step can do. -/
inductive Step : Config α → Config α → Prop
  | warn {β : Type} (w : EvalWarning) (next : Plan β) (stack : Stack α β) (s : EvalState) :
      Step ⟨.warn w next, stack, s⟩ ⟨next, stack, { s with warnings := s.warnings ++ [w] }⟩
  | absent {β : Type} {q : Query} {s : EvalState} (h : s.declarations.find? q.name = none)
      (next : Value → Plan β) (stack : Stack α β) :
      Step ⟨.ask q next, stack, s⟩ ⟨.ofExcept q.absent next, stack, s⟩
  | stored {β : Type} {q : Query} {s : EvalState} {v : Value}
      (h : s.declarations.find? q.name = some (.ready v)) (next : Value → Plan β)
      (stack : Stack α β) : Step ⟨.ask q next, stack, s⟩ ⟨next v, stack, s⟩
  | cyclic {β : Type} {q : Query} {s : EvalState}
      (h : s.declarations.find? q.name = some .forcing) (next : Value → Plan β)
      (stack : Stack α β) : Step ⟨.ask q next, stack, s⟩ ⟨.fail q.cycle, stack, s⟩
  | start {β : Type} {q : Query} {s : EvalState} {body : Expr}
      (h : s.declarations.find? q.name = some (.deferred body)) (next : Value → Plan β)
      (stack : Stack α β) :
      Step ⟨.ask q next, stack, s⟩
        ⟨.ofExpr body .done, .running q.name body next stack, Eval.put q.name .forcing s⟩
  | finish {β : Type} (v : Value) (name : String) (body : Expr) (next : Value → Plan β)
      (outer : Stack α β) (s : EvalState) :
      Step ⟨.done v, .running name body next outer, s⟩
        ⟨next v, outer, Eval.put name (.ready v) s⟩
  | abandon {β : Type} (e : EvalError) (name : String) (body : Expr) (next : Value → Plan β)
      (outer : Stack α β) (s : EvalState) :
      Step ⟨.fail e, .running name body next outer, s⟩
        ⟨.fail e, outer, Eval.put name (.deferred body) s⟩

theorem step_eq_some {c d : Config α} : c.step = some d ↔ Step c d := by
  constructor
  · intro h
    obtain ⟨plan, stack, s⟩ := c
    cases plan with
    | done v =>
      cases stack with
      | empty => cases h
      | running name body next outer =>
        cases h
        exact .finish ..
    | fail e =>
      cases stack with
      | empty => cases h
      | running name body next outer =>
        cases h
        exact .abandon ..
    | warn w next =>
      cases h
      exact .warn ..
    | ask q next =>
      rw [step] at h
      split at h
      · next hm => cases h; exact .absent hm ..
      · next hm => cases h; exact .stored hm ..
      · next hm => cases h; exact .cyclic hm ..
      · next hm => cases h; exact .start hm ..
  · intro h
    cases h with
    | warn | finish | abandon => rfl
    | absent h | stored h | cyclic h | start h => simp only [step, h]

end Config

/-- The machine goes through the configurations of a trace, and comes to a result. -/
inductive Run {α : Type} :
    Config α → List (Config α) → EStateM.Result EvalError EvalState α → Prop
  | done (a : α) (s : EvalState) :
      Run ⟨.done a, .empty, s⟩ [⟨.done a, .empty, s⟩] (.ok a s)
  | fail (e : EvalError) (s : EvalState) :
      Run ⟨.fail e, .empty, s⟩ [⟨.fail e, .empty, s⟩] (.error e s)
  | step {c d : Config α} {trace : List (Config α)}
      {r : EStateM.Result EvalError EvalState α} :
      c.step = some d → Run d trace r → Run c (c :: trace) r

section Result

variable {α β : Type}

/-- What becomes of the outcome of the innermost computation. -/
def Stack.resume : {β : Type} → Stack α β → EStateM.Result EvalError EvalState β →
    EStateM.Result EvalError EvalState α
  | _, .empty, r => r
  | _, .running name _ next outer, .ok v s =>
    outer.resume ((next v).perform (Eval.put name (.ready v) s))
  | _, .running name body _ outer, .error e s =>
    outer.resume (.error e (Eval.put name (.deferred body) s))

/-- What the evaluator makes of a configuration. -/
def Config.comesTo (c : Config α) : EStateM.Result EvalError EvalState α :=
  c.stack.resume (c.plan.perform c.state)

/-- A step is a step of the evaluator. -/
theorem Config.Step.comesTo_eq {c d : Config α} (h : Step c d) : d.comesTo = c.comesTo := by
  cases h with
  | warn | finish | abandon => rfl
  | @absent β q s h next stack =>
    simp only [comesTo, Plan.perform, bind, EStateM.bind, Query.answer, h]
    cases q.absent <;> rfl
  | stored h | cyclic h =>
    simp only [comesTo, Plan.perform, bind, EStateM.bind, Query.answer, h]
    rfl
  | @start β q s body h next stack =>
    -- The body is performed on top of the stack, and what comes of it is put away there.
    simp only [comesTo, Plan.perform, bind, EStateM.bind, Query.answer, h, Plan.perform_ofExpr,
      Memo.force]
    cases Eval.value body (Eval.put q.name .forcing s) <;> rfl

theorem Run.result_eq {c : Config α} {trace : List (Config α)}
    {r : EStateM.Result EvalError EvalState α} (h : Run c trace r) : r = c.comesTo := by
  induction h with
  | done a s => rfl
  | fail e s => rfl
  | step hstep _ ih => rw [ih, (Config.step_eq_some.1 hstep).comesTo_eq]

end Result

/-! ## Every run comes to an end -/

section Halts

variable {α β : Type}

def Config.Halts (c : Config α) : Prop := ∃ trace r, Run c trace r

theorem Config.Step.halts {c d : Config α} (h : Step c d) (hd : d.Halts) : c.Halts := by
  obtain ⟨trace, r, hr⟩ := hd
  exact ⟨c :: trace, r, .step (step_eq_some.2 h) hr⟩

/-- A failure goes down to the bottom of the stack. -/
theorem halts_fail (e : EvalError) (stack : Stack α β) (s : EvalState) :
    (Config.mk (.fail e) stack s).Halts := by
  induction stack generalizing s with
  | empty => exact ⟨_, _, .fail e s⟩
  | running name body next outer ih => exact (Config.Step.abandon ..).halts (ih _)

/-- A plan halts if its end does, and if computations do that are started with fewer
pending declarations. -/
theorem halts_plan {n : Nat} {stack : Stack α β}
    (hstart : ∀ (plan : Plan Value) (stack : Stack α Value) (s : EvalState),
      s.declarations.pending < n → (Config.mk plan stack s).Halts)
    (hdone : ∀ (b : β) (s : EvalState),
      s.declarations.pending < n + 1 → (Config.mk (.done b) stack s).Halts)
    (plan : Plan β) (s : EvalState) (h : s.declarations.pending < n + 1) :
    (Config.mk plan stack s).Halts := by
  induction plan generalizing s with
  | done b => exact hdone b s h
  | fail e => exact halts_fail e stack s
  | warn w next ih => exact (Config.Step.warn ..).halts (ih _ h)
  | ask q next ih =>
    cases hm : s.declarations.find? q.name with
    | none =>
      refine (Config.Step.absent hm ..).halts ?_
      cases q.absent with
      | ok v => exact ih v s h
      | error e => exact halts_fail e stack s
    | some memo =>
      cases memo with
      | ready v => exact (Config.Step.stored hm ..).halts (ih v s h)
      | forcing => exact (Config.Step.cyclic hm ..).halts (halts_fail _ stack s)
      | deferred body =>
        have hlt := Eval.pending_put_lt hm
        exact (Config.Step.start hm ..).halts (hstart _ _ _ (by omega))

/-- **The machine halts.** A computation is started only where a declaration is pending,
and none is put back before the failure that ends the run. So the number of pending
declarations goes down with each start, and between two starts the stack or the plan
gets shorter. -/
theorem Config.halts (c : Config α) : c.Halts := by
  have hbelow : ∀ n {β : Type} (plan : Plan β) (stack : Stack α β) (s : EvalState),
      s.declarations.pending < n → (Config.mk plan stack s).Halts := by
    intro n
    induction n with
    | zero => omega
    | succ n ih =>
      intro β plan stack
      induction stack with
      | empty => exact halts_plan ih (fun a s _ => ⟨_, _, .done a s⟩) plan
      | running name body next outer ihs =>
        refine halts_plan ih (fun v s h => (Step.finish ..).halts (ihs (next v) _ ?_)) plan
        have := Declarations.pending_set_le s.declarations name (.ready v)
        simp only [Memo.isDeferred, Bool.toNat_false] at this
        simp only [Eval.put]
        omega
  exact hbelow _ c.plan c.stack c.state (Nat.lt_succ_self _)

end Halts

/-! ## What is running is marked -/

/-- The names are different ones, and they are those whose memo is marked. -/
structure Marked (names : List String) (d : Declarations Expr Value) : Prop where
  nodup : names.Nodup
  forcing : ∀ n, d.find? n = some .forcing ↔ n ∈ names

section Marked

variable {names : List String} {d : Declarations Expr Value} {name : String}

theorem Marked.push (h : Marked names d) {body : Expr}
    (hm : d.find? name = some (.deferred body)) : Marked (name :: names) (d.set name .forcing) := by
  have hnew : name ∉ names := by
    intro hn
    rw [(h.forcing name).2 hn] at hm
    cases hm
  refine ⟨List.nodup_cons.2 ⟨hnew, h.nodup⟩, fun n => ?_⟩
  by_cases hn : n = name
  · simp [hn, Declarations.find?_set_self hm]
  · simp [hn, Declarations.find?_set_of_ne _ hn, h.forcing]

theorem Marked.pop (h : Marked (name :: names) d) {memo : Memo Expr Value}
    (hm : memo.isForcing = false) : Marked names (d.set name memo) := by
  obtain ⟨hnew, hnodup⟩ := List.nodup_cons.1 h.nodup
  refine ⟨hnodup, fun n => ?_⟩
  by_cases hn : n = name
  · rw [hn, Declarations.find?_set_self ((h.forcing name).2 (List.mem_cons_self ..))]
    cases memo <;> simp_all [Memo.isForcing]
  · simp [hn, Declarations.find?_set_of_ne _ hn, h.forcing]

theorem Marked.declare (h : Marked [] d) (body : Expr) :
    Marked [] (d.declare name (.deferred body)) := by
  refine ⟨.nil, fun n => ?_⟩
  rw [Declarations.find?_declare]
  split
  · simp
  · exact h.forcing n

theorem Marked.length_le (h : Marked names d) : names.length ≤ d.size := by
  have hsub : names ⊆ d.entries.map Prod.fst := by
    intro n hn
    have hm := Declarations.mem_entries_iff.2 ((h.forcing n).2 hn)
    exact List.mem_map_of_mem hm
  simpa [Declarations.size] using (h.nodup.subperm hsub).length_le

end Marked

namespace Config

variable {α : Type}

def Sound (c : Config α) : Prop := Marked c.names c.state.declarations

/-- **No computation is started while it is running.** A name is put on the stack only if
it is not marked, and it is marked as long as it stays there. -/
theorem Sound.step {c d : Config α} (hc : c.Sound) (h : Step c d) : d.Sound := by
  cases h with
  | warn | absent | stored | cyclic => exact hc
  | start h next stack => exact Marked.push hc h
  | finish | abandon => exact Marked.pop hc rfl

end Config

/-- What the steps of a run preserve holds all along the run. -/
theorem Run.invariant {α : Type} {P : Config α → Prop} {c : Config α} {trace : List (Config α)}
    {r : EStateM.Result EvalError EvalState α} (h : Run c trace r) (hc : P c)
    (hstep : ∀ d ∈ trace, ∀ d', P d → Config.Step d d' → P d') : ∀ d ∈ trace, P d := by
  induction h with
  | done | fail => simpa using hc
  | step hs _ ih =>
    obtain ⟨hfirst, hrest⟩ := List.forall_mem_cons.1 hstep
    exact List.forall_mem_cons.2 ⟨hc, ih (hfirst _ hc (Config.step_eq_some.1 hs)) hrest⟩

theorem Run.sound {α : Type} {c : Config α} {trace : List (Config α)}
    {r : EStateM.Result EvalError EvalState α} (h : Run c trace r) (hc : c.Sound) :
    ∀ d ∈ trace, d.Sound :=
  h.invariant hc fun _ _ _ hd hs => hd.step hs

/-- Behind a run nothing is marked. -/
theorem Run.marked_final {α : Type} {c : Config α} {trace : List (Config α)}
    {r : EStateM.Result EvalError EvalState α} (h : Run c trace r) (hc : c.Sound) :
    Marked [] (Eval.final r).declarations := by
  induction h with
  | done | fail => exact hc
  | step hstep _ ih => exact ih (hc.step (Config.step_eq_some.1 hstep))

/-! ## Units -/

section Units

/-- What is done with the value of a unit. The prompt follows a reference. -/
def Plan.yield (mode : Mode) (anchor : Token) (v : Value) : Plan (Option Value) :=
  match mode, v with
  | .interactive, .reference name =>
    .ask (.ofReference anchor name) fun v => .done (some v)
  | _, v => .done (some v)

namespace Config

def ofExpr (mode : Mode) (e : Expr) (anchor : Token) (s : EvalState) : Config (Option Value) :=
  ⟨.ofExpr e (.yield mode anchor), .empty, s⟩

/-- A configuration at its end. -/
def ended {α : Type} : EStateM.Result EvalError EvalState α → Config α
  | .ok a s => ⟨.done a, .empty, s⟩
  | .error e s => ⟨.fail e, .empty, s⟩

/-- The start of a unit. A declaration is over at once: it starts no computation. -/
def ofUnit (mode : Mode) (u : Item) (s : EvalState) : Config (Option Value) :=
  match u with
  | .statement ⟨tag, e⟩ =>
    if tag.lexeme = Eval.declarationTag then ended (Eval.statement ⟨tag, e⟩ s)
    else ofExpr mode e tag s
  | .expression e => ofExpr mode e e.anchor s

end Config

/-- A run comes to its end with its result. -/
theorem Run.ended_mem {α : Type} {c : Config α} {trace : List (Config α)}
    {r : EStateM.Result EvalError EvalState α} (h : Run c trace r) : .ended r ∈ trace := by
  induction h with
  | done | fail => exact List.mem_singleton_self _
  | step _ _ ih => exact List.mem_cons_of_mem _ ih

/-- What is at its end goes nowhere. -/
theorem Run.trace_ended {α : Type} {r r' : EStateM.Result EvalError EvalState α}
    {trace : List (Config α)} (h : Run (.ended r) trace r') : trace = [.ended r] := by
  cases r with
  | ok a s =>
    cases h with
    | done => rfl
    | step hs _ => cases hs
  | error e s =>
    cases h with
    | fail => rfl
    | step hs _ => cases hs

/-- A value is yielded as it is, or as the prompt shows it. -/
theorem Plan.perform_yield (mode : Mode) (anchor : Token) (v : Value) :
    (Plan.yield mode anchor v).perform =
      match mode with
      | .batch => pure (some v)
      | .interactive => Eval.shown anchor (some v) := by
  cases mode with
  | batch => rfl
  | interactive =>
    cases v with
    | reference name => simp only [yield, perform, Query.answer_ofReference, Eval.shown]
    | _ => rfl

theorem Config.comesTo_ofExpr (mode : Mode) (e : Expr) (anchor : Token) (s : EvalState) :
    (ofExpr mode e anchor s).comesTo =
      (Eval.value e >>= fun v => match mode with
        | .batch => pure (some v)
        | .interactive => Eval.shown anchor (some v)) s := by
  simp only [ofExpr, comesTo, Stack.resume, Plan.perform_ofExpr, Plan.perform_yield]

theorem Config.comesTo_ended {α : Type} (r : EStateM.Result EvalError EvalState α) :
    (ended r).comesTo = r := by
  cases r <;> rfl

theorem Config.comesTo_ofUnit (mode : Mode) (u : Item) (s : EvalState) :
    (ofUnit mode u s).comesTo = mode.evaluate u s := by
  cases u with
  | statement st =>
    obtain ⟨tag, e⟩ := st
    by_cases ht : tag.lexeme = Eval.declarationTag
    · rw [ofUnit, if_pos ht, comesTo_ended]
      cases mode with
      | batch => rfl
      | interactive =>
        -- A declaration yields nothing that the prompt could follow.
        simp only [Mode.evaluate, Eval.item_statement, Eval.statement, ht, if_true, bind_assoc,
          pure_bind, Eval.shown]
    · have hv : Eval.statement ⟨tag, e⟩ = Eval.value e >>= fun v => pure (some v) :=
        Eval.statement_value ht
      rw [ofUnit, if_neg ht, comesTo_ofExpr]
      cases mode with
      | batch => rw [Mode.evaluate, hv]
      | interactive => simp only [Mode.evaluate, Eval.item_statement, hv, bind_assoc, pure_bind]
  | expression e =>
    rw [ofUnit, comesTo_ofExpr]
    cases mode with
    | batch => rfl
    | interactive => simp only [Mode.evaluate, Eval.item_expression, bind_assoc, pure_bind]

/-- A declaration either declares a name and yields nothing, or leaves everything as it is and
complains of what it finds in place of a named binding. It speaks of its own tokens. -/
theorem declaration_cases {tag : Token} (e : Expr) (h : tag.lexeme = Eval.declarationTag)
    (s : EvalState) :
    (∃ name body, Reference.declared? (.statement ⟨tag, e⟩) = some (name.lexeme, body) ∧
      Eval.statement ⟨tag, e⟩ s = .ok none (Eval.declared name body s) ∧ name ∈ e.tokens) ∨
    (Reference.declared? (.statement ⟨tag, e⟩) = none ∧
      ∃ t, Eval.statement ⟨tag, e⟩ s = .error ⟨.expectedBinding, t⟩ s ∧ t ∈ tag :: e.tokens) := by
  simp only [Reference.declared?, h, if_true]
  cases hb : e.isBinding with
  | false =>
    refine .inr ⟨?_, tag, Eval.statement_unbound h hb s, List.mem_cons_self ..⟩
    cases e with
    | binding left colon body => cases hb
    | _ => rfl
  | true =>
    cases e with
    | binding left colon body =>
      cases hn : left.name? with
      | none =>
        exact .inr ⟨by simp only [hn, Option.map_none], _, Eval.statement_unnamed h hn s,
          List.mem_cons_of_mem _ (List.mem_append_left _ left.anchor_mem)⟩
      | some name =>
        exact .inl ⟨name, body, by simp only [hn, Option.map_some], Eval.statement_declare h hn s,
          List.mem_append_left _ (Expr.name?_mem hn)⟩
    | _ => cases hb

/-- The table behind a declaration. -/
theorem final_declaration {tag : Token} (e : Expr) (h : tag.lexeme = Eval.declarationTag)
    (s : EvalState) : (Eval.final (Eval.statement ⟨tag, e⟩ s)).declarations =
      match Reference.declared? (.statement ⟨tag, e⟩) with
      | some (name, body) => s.declarations.declare name (.deferred body)
      | none => s.declarations := by
  obtain ⟨name, body, hd, hs, -⟩ | ⟨hd, t, hs, -⟩ := declaration_cases e h s
  · simp only [hd, hs, Eval.final, Eval.declared]
  · simp only [hd, hs, Eval.final]

theorem Config.sound_ended {α : Type} {r : EStateM.Result EvalError EvalState α}
    (h : Marked [] (Eval.final r).declarations) : (ended r).Sound := by
  cases r <;> exact h

theorem Config.sound_ofUnit (mode : Mode) (u : Item) {s : EvalState}
    (h : Marked [] s.declarations) : (ofUnit mode u s).Sound := by
  cases u with
  | statement st =>
    obtain ⟨tag, e⟩ := st
    by_cases ht : tag.lexeme = Eval.declarationTag
    · rw [ofUnit, if_pos ht]
      refine sound_ended ?_
      rw [final_declaration e ht]
      split
      · exact h.declare _
      · exact h
    · rw [ofUnit, if_neg ht]
      exact h
  | expression e => exact h

/-- The machine evaluates a unit. -/
theorem run_ofUnit (mode : Mode) (u : Item) (s : EvalState) :
    ∃ trace, Run (.ofUnit mode u s) trace (mode.evaluate u s) := by
  obtain ⟨trace, r, h⟩ := (Config.ofUnit mode u s).halts
  have hr := h.result_eq.trans (Config.comesTo_ofUnit mode u s)
  exact ⟨trace, hr ▸ h⟩

/-- Between the units of a session no computation is running. -/
theorem marked_stateBefore (ps : List Program) (p : Program) (i : Nat) :
    Marked [] (stateBefore ps p i).declarations := by
  have hempty : Marked [] (∅ : Declarations Expr Value) :=
    ⟨.nil, fun n => by simp [Declarations.find?, EmptyCollection.emptyCollection]⟩
  refine stateBefore_induction hempty (fun mode u s hs => ?_) ps p i
  obtain ⟨trace, h⟩ := run_ofUnit mode u s
  exact h.marked_final (Config.sound_ofUnit mode u hs)

end Units

/-- **Evaluation halts.** Every unit of a session takes the machine through finitely many
steps to its value or its one error. All the way the declarations whose computation is
running are different ones, namely those that are marked, so that they are never nested
deeper than there are declarations. -/
theorem evaluation_halts (ps : List Program) (p : Program) (i : Fin p.items.length) :
    ∃ trace r, Run (.ofUnit p.mode (p.items.get i) (stateBefore ps p i)) trace r ∧
      (p.evaluate (evaluateAll ps ∅).2).1.results[(i : Nat)]? = some (Eval.outcome r) ∧
      ∀ c ∈ trace, c.names.Nodup ∧
        (∀ n, c.state.declarations.find? n = some .forcing ↔ n ∈ c.names) ∧
        c.names.length ≤ c.state.declarations.size := by
  obtain ⟨trace, h⟩ := run_ofUnit p.mode (p.items.get i) (stateBefore ps p i)
  have hs := Config.sound_ofUnit p.mode (p.items.get i) (marked_stateBefore ps p i)
  refine ⟨trace, _, h, results_getElem? ps p i, fun c hc => ?_⟩
  have hm := h.sound hs c hc
  exact ⟨hm.nodup, hm.forcing, hm.length_le⟩

end LazyDecl
