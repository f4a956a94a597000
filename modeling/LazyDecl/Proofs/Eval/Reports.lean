import LazyDecl.Proofs.Eval.Growth

/-!
What a run reports, and where its messages point. A warning and the failure that ends a run
arise in some computation: in that of the unit, or in that of the declaration on top of the
stack (`reports`).

* `Run.reports_eq`: a run reports its warnings and its error, and nothing else;
* `Plan.ofExpr_pointsInto`: the plan of an expression points at tokens of the expression;
* `Run.reports_pointInto`: so a report points into the body of the declaration that it arises
  in, or else into the unit.
-/

namespace LazyDecl

/-- The failure that ends the run, if there is one. -/
def Eval.failure? {α : Type} : EStateM.Result EvalError EvalState α → Option EvalError
  | .ok _ _ => none
  | .error e _ => some e

theorem Eval.failure?_eq_some {α : Type} {r : EStateM.Result EvalError EvalState α}
    {e : EvalError} : failure? r = some e ↔ outcome r = .error e := by
  cases r <;> simp [failure?, outcome]

/-- The warnings and the failure of a run, each with the name of the declaration in whose
computation it arises. A failure arises once; then it only goes down the stack. -/
def reports {α : Type} : List (Config α) → List (Option String × Diagnostic)
  | [] => []
  | c :: trace =>
    match c.plan with
    | .warn w _ => (c.names.head?, w.diagnostic) :: reports trace
    | .fail e => [(c.names.head?, e.diagnostic)]
    | .done _ | .ask .. => reports trace

section Runs

variable {α β : Type} {c : Config α} {trace : List (Config α)}
  {r : EStateM.Result EvalError EvalState α}

/-- A failure leaves the warnings alone. -/
theorem Run.of_fail {e : EvalError} {stack : Stack α β} {s : EvalState}
    (h : Run ⟨.fail e, stack, s⟩ trace r) :
    Eval.failure? r = some e ∧ (Eval.final r).warnings = s.warnings := by
  induction stack generalizing s trace with
  | empty =>
    cases h with
    | fail => exact ⟨rfl, rfl⟩
    | step hs _ => cases hs
  | running name body next outer ih =>
    cases h with
    | step hs h =>
      cases hs
      have hrest := ih h
      exact hrest

/-- **A run reports what it leaves behind:** the warnings that it adds, and its failure. -/
theorem Run.reports_eq (h : Run c trace r) :
    ∃ ws, (Eval.final r).warnings = c.state.warnings ++ ws ∧
      (reports trace).map Prod.snd =
        ws.map EvalWarning.diagnostic ++ (Eval.failure? r).toList.map EvalError.diagnostic := by
  induction h with
  | done a s => exact ⟨[], by simp [Eval.final], rfl⟩
  | fail e s => exact ⟨[], by simp [Eval.final], rfl⟩
  | @step c d trace r hs h ih =>
    obtain ⟨ws, hws, hreports⟩ := ih
    have hstep := Config.step_eq_some.1 hs
    cases hstep with
    | warn w next stack s =>
      refine ⟨w :: ws, by simp [hws], ?_⟩
      simp only [reports, List.map_cons, hreports, List.cons_append]
    | absent | stored | cyclic | start | finish => exact ⟨ws, hws, hreports⟩
    | abandon e name body next outer s =>
      obtain ⟨hfailure, hwarnings⟩ := h.of_fail
      exact ⟨[], by simp [hwarnings, Eval.put], by simp [reports, hfailure]⟩

end Runs

/-! ## Where plans point -/

namespace Plan

variable {α : Type}

/-- All messages of the plan point at tokens of the list. -/
def PointsInto (ts : List Token) : Plan α → Prop
  | .done _ => True
  | .fail e => e.token ∈ ts
  | .warn w next => w.token ∈ ts ∧ next.PointsInto ts
  | .ask q next => ((∀ e, q.absent = .error e → e.token ∈ ts) ∧ q.cycle.token ∈ ts) ∧
    ∀ v, (next v).PointsInto ts

variable {ts : List Token}

theorem pointsInto_lift {β : Type} {t : Token} (ht : t ∈ ts) (r : Except EvalCause β)
    {k : β → Plan α} (hk : ∀ b, (k b).PointsInto ts) : (lift t r k).PointsInto ts := by
  cases r with
  | ok b => exact hk b
  | error cause => exact ht

theorem pointsInto_nameOr (wrap : String → Value) (name? : Option Token)
    {key : (Value → Plan α) → Plan α} {k : Value → Plan α}
    (hkey : (key k).PointsInto ts) (hk : ∀ v, (k v).PointsInto ts) :
    (nameOr wrap name? key k).PointsInto ts := by
  cases name? with
  | none => exact hkey
  | some t => exact hk _

theorem pointsInto_decideBy (op : LogicalOp) {operator : Token} (ht : operator ∈ ts) (l : Value)
    {right : (Value → Plan α) → Plan α} {k : Value → Plan α}
    (hright : ∀ k, (∀ v, (k v).PointsInto ts) → (right k).PointsInto ts)
    (hk : ∀ v, (k v).PointsInto ts) : (decideBy op operator l right k).PointsInto ts := by
  unfold decideBy
  cases l.boolean? with
  | none => exact ht
  | some b =>
    dsimp only
    split
    · exact hk _
    · refine hright _ fun r => ?_
      unfold settle
      split
      · exact ht
      · exact hk r

theorem pointsInto_ofToken {t : Token} (ht : t ∈ ts) {k : Value → Plan α}
    (hk : ∀ v, (k v).PointsInto ts) : (ask (.ofToken t) k).PointsInto ts := by
  refine ⟨⟨fun e he => ?_, ht⟩, hk⟩
  cases he
  exact ht

mutual

/-- **The plan of an expression points at tokens of the expression,** as long as what is done
with its value does. -/
theorem ofExpr_pointsInto (e : Expr) (he : e.tokens ⊆ ts) {k : Value → Plan α}
    (hk : ∀ v, (k v).PointsInto ts) : (ofExpr e k).PointsInto ts := by
  match e with
  | .literal .. | .builder .. => exact hk _
  | .name t => exact pointsInto_ofToken (he (List.mem_singleton_self t)) hk
  | .grouping inner => exact ofExpr_pointsInto inner he hk
  | .unary op operator operand =>
    obtain ⟨ht, hoperand⟩ := List.cons_subset.1 he
    rw [ofExpr]
    split
    · exact ht
    · exact ofExpr_pointsInto operand hoperand fun v => pointsInto_lift ht _ hk
  | .binary op operator left right =>
    obtain ⟨hl, hr⟩ := List.append_subset.1 he
    obtain ⟨ht, hr⟩ := List.cons_subset.1 hr
    exact ofExpr_pointsInto left hl fun l => ofExpr_pointsInto right hr fun r =>
      pointsInto_lift ht _ hk
  | .logical op operator left right =>
    obtain ⟨hl, hr⟩ := List.append_subset.1 he
    obtain ⟨ht, hr⟩ := List.cons_subset.1 hr
    exact ofExpr_pointsInto left hl fun l =>
      pointsInto_decideBy op ht l (fun k hk => ofExpr_pointsInto right hr hk) hk
  | .binding left colon right =>
    obtain ⟨hl, hr⟩ := List.append_subset.1 he
    have hright : ∀ key, (ofExpr right fun v => k (.pair key v)).PointsInto ts := fun key =>
      ofExpr_pointsInto right (List.cons_subset.1 hr).2 fun v => hk _
    exact pointsInto_nameOr _ _ (ofExpr_pointsInto left hl hright) hright
  | .sequence opening elements =>
    have helements := (List.cons_subset.1 he).2
    rw [ofExpr]
    split
    · exact ofEntries_pointsInto [] elements helements fun t => hk _
    · exact ofItems_pointsInto elements helements fun vs => hk _

theorem ofItems_pointsInto (es : List Expr) (hes : elementTokens es ⊆ ts)
    {k : List Value → Plan α} (hk : ∀ vs, (k vs).PointsInto ts) : (ofItems es k).PointsInto ts := by
  match es with
  | [] => exact hk []
  | e :: es =>
    obtain ⟨he, hes⟩ := List.append_subset.1 hes
    rw [ofItems]
    split
    · exact he e.anchor_mem
    · exact ofExpr_pointsInto e he fun v => ofItems_pointsInto es hes fun vs => hk _

theorem ofEntries_pointsInto (t : Table) (es : List Expr) (hes : elementTokens es ⊆ ts)
    {k : Table → Plan α} (hk : ∀ t, (k t).PointsInto ts) : (ofEntries t es k).PointsInto ts := by
  match es with
  | [] => exact hk t
  | .binding left colon right :: es =>
    obtain ⟨he, hes⟩ := List.append_subset.1 hes
    obtain ⟨hl, hr⟩ := List.append_subset.1 he
    obtain ⟨hcolon, hr⟩ := List.cons_subset.1 hr
    have hentry : ∀ key, (ofExpr right fun v => warnIf (t.contains key) (.duplicateKey key) colon
        (ofEntries (t.insert key v) es k)).PointsInto ts := by
      intro key
      refine ofExpr_pointsInto right hr fun v => ?_
      have hrest := ofEntries_pointsInto (t.insert key v) es hes hk
      unfold warnIf
      split
      · exact ⟨hcolon, hrest⟩
      · exact hrest
    exact pointsInto_nameOr _ _ (ofExpr_pointsInto left hl hentry) hentry
  | .literal .. :: es | .name .. :: es | .grouping .. :: es | .unary .. :: es
  | .binary .. :: es | .logical .. :: es | .sequence .. :: es | .builder .. :: es =>
    exact hes (List.mem_append_left _ (Expr.anchor_mem _))

end

theorem yield_pointsInto (mode : Mode) {anchor : Token} (h : anchor ∈ ts) (v : Value) :
    (yield mode anchor v).PointsInto ts := by
  cases mode with
  | batch => trivial
  | interactive =>
    cases v with
    | reference name =>
      refine ⟨⟨fun e he => ?_, h⟩, fun v => trivial⟩
      cases he
    | _ => trivial

end Plan

/-! ## Where runs point -/

namespace Stack

variable {α β : Type}

/-- The tokens of the innermost computation: those of its body, or at the bottom those of the
unit. -/
def source (root : List Token) : {β : Type} → Stack α β → List Token
  | _, .empty => root
  | _, .running _ body _ _ => body.tokens

/-- Each computation goes on within its own tokens once it has the value that it waits for. -/
def PointsInto (root : List Token) : {β : Type} → Stack α β → Prop
  | _, .empty => True
  | _, .running _ _ next outer =>
    (∀ v, (next v).PointsInto (outer.source root)) ∧ outer.PointsInto root

end Stack

namespace Config

variable {α : Type} {root : List Token}

structure PointsInto (root : List Token) (c : Config α) : Prop where
  plan : c.plan.PointsInto (c.stack.source root)
  stack : c.stack.PointsInto root

/-- The configuration is on its way down the stack after a failure. -/
def failed (c : Config α) : Prop := ∃ e, c.plan = .fail e

/-- Each step up to a failure stays within the tokens of the innermost computation. -/
theorem PointsInto.step {c d : Config α} (hc : c.PointsInto root) (h : Step c d)
    (hfail : ¬c.failed) : d.PointsInto root := by
  obtain ⟨hplan, hstack⟩ := hc
  cases h with
  | warn w next stack s => exact ⟨hplan.2, hstack⟩
  | @absent β q s h next stack =>
    refine ⟨?_, hstack⟩
    cases hq : q.absent with
    | ok v => exact hplan.2 v
    | error e => exact hplan.1.1 e hq
  | stored h next stack => exact ⟨hplan.2 _, hstack⟩
  | cyclic h next stack => exact ⟨hplan.1.2, hstack⟩
  | start h next stack =>
    exact ⟨Plan.ofExpr_pointsInto _ (List.Subset.refl _) fun _ => trivial, hplan.2, hstack⟩
  | finish v name body next outer s => exact ⟨hstack.1 v, hstack.2⟩
  | abandon e name body next outer s => exact absurd ⟨e, rfl⟩ hfail

theorem pointsInto_ofUnit (mode : Mode) (u : Item) (s : EvalState) :
    (ofUnit mode u s).PointsInto u.tokens := by
  have hexpr : ∀ (e : Expr) (anchor : Token) (ts : List Token), e.tokens ⊆ ts → anchor ∈ ts →
      (ofExpr mode e anchor s).PointsInto ts := fun e anchor ts he ha =>
    ⟨Plan.ofExpr_pointsInto e he (Plan.yield_pointsInto mode ha), trivial⟩
  cases u with
  | expression e => exact hexpr e _ _ (List.Subset.refl _) e.anchor_mem
  | statement st =>
    obtain ⟨tag, e⟩ := st
    rw [ofUnit]
    split
    · next ht =>
      obtain ⟨name, body, -, hs, -⟩ | ⟨-, t, hs, ht⟩ := declaration_cases e ht s
      · rw [hs]
        exact ⟨trivial, trivial⟩
      · rw [hs]
        exact ⟨ht, trivial⟩
    · exact hexpr e tag _ (List.subset_cons_self ..) (List.mem_cons_self ..)

/-- A declaration warns of its own name, before anything else is done. -/
theorem warnings_ofUnit (mode : Mode) (u : Item) (s : EvalState) :
    ∀ w ∈ (ofUnit mode u s).state.warnings, w ∈ s.warnings ∨ w.token ∈ u.tokens := by
  cases u with
  | expression e => exact fun w hw => .inl hw
  | statement st =>
    obtain ⟨tag, e⟩ := st
    rw [ofUnit]
    split
    · next ht =>
      obtain ⟨name, body, -, hs, hname⟩ | ⟨-, t, hs, -⟩ := declaration_cases e ht s
      · rw [hs]
        intro w hw
        refine (List.mem_append.1 hw).imp_right fun hw => ?_
        split at hw
        · obtain rfl := List.mem_singleton.1 hw
          exact List.mem_cons_of_mem _ hname
        · cases hw
      · rw [hs]
        exact fun w hw => .inl hw
    · exact fun w hw => .inl hw

end Config

/-- **A report points into what it arises in:** the body of the declaration on top of the stack,
or the unit if no declaration is being forced. -/
theorem Run.reports_pointInto {α : Type} {root : List Token} {c : Config α}
    {trace : List (Config α)} {r : EStateM.Result EvalError EvalState α} (h : Run c trace r)
    (hc : c.PointsInto root) :
    ∀ origin d, (origin, d) ∈ reports trace →
      ∃ c' ∈ trace, origin = c'.names.head? ∧ d.token ∈ c'.stack.source root := by
  induction h with
  | done a s => intro origin d hd; cases hd
  | fail e s =>
    intro origin d hd
    cases List.mem_singleton.1 hd
    exact ⟨_, List.mem_singleton_self _, rfl, hc.plan⟩
  | @step c d trace r hs h ih =>
    have hlater : ¬c.failed → ∀ origin d, (origin, d) ∈ reports trace →
        ∃ c' ∈ c :: trace, origin = c'.names.head? ∧ d.token ∈ c'.stack.source root := by
      intro hfail origin d hd
      obtain ⟨c', hc', hrest⟩ := ih (hc.step (Config.step_eq_some.1 hs) hfail) origin d hd
      exact ⟨c', List.mem_cons_of_mem _ hc', hrest⟩
    intro origin diagnostic hd
    obtain ⟨plan, stack, s⟩ := c
    cases plan with
    | done | ask =>
      refine hlater (fun hfail => ?_) origin diagnostic hd
      obtain ⟨e, he⟩ := hfail
      cases he
    | fail e =>
      cases List.mem_singleton.1 hd
      exact ⟨_, List.mem_cons_self .., rfl, hc.plan⟩
    | warn w next =>
      rcases List.mem_cons.1 hd with hd | hd
      · cases hd
        exact ⟨_, List.mem_cons_self .., rfl, hc.plan.1⟩
      · refine hlater (fun hfail => ?_) origin diagnostic hd
        obtain ⟨e, he⟩ := hfail
        cases he

end LazyDecl
