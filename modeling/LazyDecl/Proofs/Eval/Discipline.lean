import LazyDecl.Proofs.Eval.Carry

/-!
What stays so from one evaluation to the next. A discipline says what the trees in the
table are like, the values and the errors that come of them. A computation keeps it if, from
a table of the discipline, it leaves such a table behind and comes to such a value or error
(`Keeps`).

* `Sound`: expressions keep the discipline over lookups that do;
* `Sound.force`, `Sound.evaluate`: then forcing a name does, and so does every unit;
* `Sound.evaluateAll`: and so does a session.
-/

namespace LazyDecl

/-- What is asked of trees, of the values that come of them and of the causes for which they
fail. -/
structure Discipline where
  tree : Expr → Prop
  value : Value → Prop
  error : EvalCause → Prop
  body : ∀ {left : Expr} {colon : Token} {right : Expr}, tree (.binding left colon right) →
    tree right
  /-- Nothing is asked of a cause that is no fault. -/
  expected : ∀ cause : EvalCause, cause.severity = .error → error cause

namespace Discipline

variable (D : Discipline)

def InMemo : Memo Expr Value → Prop
  | .deferred body => D.tree body
  | .forcing => True
  | .ready v => D.value v

def InTable (d : Declarations Expr Value) : Prop :=
  ∀ name memo, d.find? name = some memo → D.InMemo memo

/-- The unit is made of a tree of the discipline. -/
def InUnit : Item → Prop
  | .statement s => D.tree s.value
  | .expression e => D.tree e

/-- A result that is an error of the discipline or satisfies `Q`. -/
inductive Allows {α : Type} (Q : α → Prop) : EStateM.Result EvalError EvalState α → Prop
  | ok {a : α} {s : EvalState} : Q a → D.InTable s.declarations → Allows Q (.ok a s)
  | error {e : EvalError} {s : EvalState} : D.error e.cause → D.InTable s.declarations →
      Allows Q (.error e s)

/-- From a table of the discipline, the computation comes to such a table and result. -/
def Keeps {α : Type} (Q : α → Prop) (x : Eval α) : Prop :=
  ∀ s : EvalState, D.InTable s.declarations → D.Allows Q (x s)

/-- Where lookups keep the discipline, expressions do. -/
def Sound : Prop :=
  ∀ force : Token → Eval Value, (∀ t, D.Keeps D.value (force t)) →
    ∀ e, D.tree e → D.Keeps D.value (Eval.valueOver force e)

variable {D}

/-! ## Tables -/

theorem table_empty : D.InTable ∅ := by
  intro name memo h
  simp [Declarations.find?, EmptyCollection.emptyCollection] at h

theorem InTable.set {d : Declarations Expr Value} (h : D.InTable d) (name : String)
    {memo : Memo Expr Value} (hm : D.InMemo memo) : D.InTable (d.set name memo) := by
  intro other found hf
  rw [Declarations.find?_set] at hf
  obtain ⟨old, hold, rfl⟩ := Option.map_eq_some_iff.1 hf
  split
  · exact hm
  · exact h other old hold

theorem InTable.declare {d : Declarations Expr Value} (h : D.InTable d) (name : String)
    {memo : Memo Expr Value} (hm : D.InMemo memo) : D.InTable (d.declare name memo) := by
  intro other found hf
  rw [Declarations.find?_declare] at hf
  split at hf
  · cases hf
    exact hm
  · exact h other found hf

/-! ## Steps -/

section Steps

variable {α β : Type} {Q : α → Prop} {R : β → Prop}

theorem Keeps.pure {a : α} (h : Q a) : D.Keeps Q (pure a) := fun _ hs => .ok h hs

theorem Keeps.fail {cause : EvalCause} (h : D.error cause) (t : Token) :
    D.Keeps Q (Eval.fail cause t) := fun _ hs => .error h hs

theorem Keeps.bind {x : Eval α} {k : α → Eval β} (hx : D.Keeps Q x)
    (hk : ∀ a, Q a → D.Keeps R (k a)) : D.Keeps R (x >>= k) := by
  intro s hs
  have h := hx s hs
  simp only [Bind.bind, EStateM.bind]
  generalize x s = r at h ⊢
  cases h with
  | ok ha hs => exact hk _ ha _ hs
  | error he hs => exact .error he hs

/-- What is done with a result may be replaced by what is the same for the results and from the
tables of the discipline. -/
theorem Keeps.bind_congr {x : Eval α} {k k' : α → Eval β} (hx : D.Keeps Q x)
    (h : ∀ a s, Q a → D.InTable s.declarations → k a s = k' a s) {s : EvalState}
    (hs : D.InTable s.declarations) : (x >>= k) s = (x >>= k') s := by
  have hallows := hx s hs
  simp only [Bind.bind, EStateM.bind]
  generalize x s = r at hallows ⊢
  cases hallows with
  | ok ha hs' => exact h _ _ ha hs'
  | error => rfl

theorem Keeps.mono {Q' : α → Prop} {x : Eval α} (h : D.Keeps Q x) (hQ : ∀ a, Q a → Q' a) :
    D.Keeps Q' x := by
  intro s hs
  have h := h s hs
  generalize x s = r at h ⊢
  cases h with
  | ok ha hs => exact .ok (hQ _ ha) hs
  | error he hs => exact .error he hs

theorem Keeps.ite {c : Prop} [Decidable c] {x y : Eval α} (hx : c → D.Keeps Q x)
    (hy : ¬c → D.Keeps Q y) : D.Keeps Q (if c then x else y) := by
  split
  · exact hx ‹_›
  · exact hy ‹_›

theorem Keeps.lift {r : Except EvalCause α} (hok : ∀ a, r = .ok a → Q a)
    (herror : ∀ cause, r = .error cause → D.error cause) (t : Token) :
    D.Keeps Q (Eval.lift t r) := by
  cases r with
  | ok a => exact .pure (hok a rfl)
  | error cause => exact .fail (herror cause rfl) t

theorem Keeps.warn (cause : WarningCause) (t : Token) :
    D.Keeps (fun _ => True) (Eval.warn cause t) := fun _ hs => .ok trivial hs

theorem Keeps.nameOr (wrap : String → Value) (name? : Option Token) {key : Eval Value}
    (h : D.Keeps D.value key) : D.Keeps (fun _ => True) (Eval.nameOr wrap name? key) := by
  cases name? with
  | none => exact h.mono fun _ _ => trivial
  | some t => exact .pure trivial

end Steps

/-- A memo that is forced keeps the discipline if its body does. -/
theorem Keeps.memo {run : Expr → Eval Value} (hrun : ∀ e, D.tree e → D.Keeps D.value (run e))
    {memo : Memo Expr Value} (hm : D.InMemo memo) (name : String) (t : Token) :
    D.Keeps D.value (memo.force (Eval.put name) ⟨.cyclicDeclaration name, t⟩ run) := by
  cases memo with
  | ready v => exact .pure hm
  | forcing => exact .fail (D.expected _ rfl) t
  | deferred body =>
    intro s hs
    have hmarked : D.InMemo .forcing := trivial
    have h := hrun body hm (Eval.put name .forcing s) (hs.set name hmarked)
    simp only [Memo.force]
    generalize run body (Eval.put name .forcing s) = r at h ⊢
    cases h with
    | @ok v s' hv hs' =>
      have hready : D.InMemo (.ready v) := hv
      exact .ok hv (hs'.set name hready)
    | error he hs' => exact .error he (hs'.set name hm)

/-! ## Forcing and units -/

theorem Keeps.forceOver {force : Token → Eval Value}
    (h : ∀ e, D.tree e → D.Keeps D.value (Eval.valueOver force e)) (t : Token) :
    D.Keeps D.value (Eval.forceOver force t) := by
  intro s hs
  cases hm : s.declarations.find? t.lexeme with
  | none =>
    rw [Eval.forceOver_none hm]
    exact .error (D.expected _ rfl) hs
  | some memo =>
    rw [Eval.forceOver_some hm]
    exact Keeps.memo h (hs _ _ hm) t.lexeme t s hs

namespace Sound

variable (h : D.Sound)

include h

/-- By induction on how many declarations are pending: while one is forced, there are fewer. -/
theorem force (t : Token) : D.Keeps D.value (Eval.force t) := by
  intro s hs
  generalize hn : s.declarations.pending = n
  induction n using Nat.strongRecOn generalizing t s with
  | _ n ih =>
    rw [Eval.force]
    refine Keeps.forceOver (h _ fun u s' hs' => ?_) t s hs
    split
    · exact ih _ (hn ▸ ‹_›) u s' hs' rfl
    · exact .error (D.expected _ rfl) hs'

theorem value {e : Expr} (he : D.tree e) : D.Keeps D.value (Eval.value e) :=
  h _ h.force e he

theorem dereference (anchor : Token) {v : Value} (hv : D.value v) :
    D.Keeps D.value (Eval.dereference anchor v) := by
  cases v with
  | reference name =>
    intro s hs
    cases hm : s.declarations.find? name with
    | none =>
      rw [Eval.dereference_absent hm]
      exact .ok hv hs
    | some memo =>
      rw [Eval.dereference_found hm]
      exact Keeps.memo (h _ h.force) (hs _ _ hm) name anchor s hs
  | _ => exact .pure hv

theorem statement {s : Statement} (hs : D.tree s.value) :
    D.Keeps (fun v => ∀ w ∈ v, D.value w) (Eval.statement s) := by
  obtain ⟨tag, e⟩ := s
  by_cases ht : tag.lexeme = Eval.declarationTag
  · intro state hstate
    cases hb : e.isBinding with
    | false =>
      rw [Eval.statement_unbound ht hb]
      exact .error (D.expected _ rfl) hstate
    | true =>
      cases e with
      | binding left colon right =>
        cases hn : left.name? with
        | none =>
          rw [Eval.statement_unnamed ht hn]
          exact .error (D.expected _ rfl) hstate
        | some name =>
          rw [Eval.statement_declare ht hn]
          have hright : D.InMemo (.deferred right) := D.body hs
          exact .ok nofun (hstate.declare name.lexeme hright)
      | _ => cases hb
  · rw [Eval.statement_value ht]
    refine (h.value hs).bind fun v hv => .pure ?_
    rintro _ ⟨⟩
    exact hv

theorem shown (anchor : Token) {v : Option Value} (hv : ∀ w ∈ v, D.value w) :
    D.Keeps (fun v => ∀ w ∈ v, D.value w) (Eval.shown anchor v) := by
  cases v with
  | none => exact .pure hv
  | some v =>
    refine (h.dereference anchor (hv v rfl)).bind fun w hw => .pure ?_
    rintro _ ⟨⟩
    exact hw

theorem expression {e : Expr} (he : D.tree e) :
    D.Keeps (fun v => ∀ w ∈ v, D.value w) (Eval.value e >>= fun v => Pure.pure (some v)) := by
  refine (h.value he).bind fun v hv => .pure ?_
  rintro _ ⟨⟩
  exact hv

/-- A unit keeps the discipline in a file and at the prompt. -/
theorem evaluate (mode : Mode) {u : Item} (hu : D.InUnit u) :
    D.Keeps (fun v => ∀ w ∈ v, D.value w) (mode.evaluate u) := by
  cases mode with
  | batch =>
    cases u with
    | statement s => exact h.statement hu
    | expression e => exact h.expression hu
  | interactive =>
    cases u with
    | statement s =>
      rw [Mode.evaluate, Eval.item_statement]
      exact (h.statement hu).bind fun v hv => h.shown s.tag hv
    | expression e =>
      rw [Mode.evaluate, Eval.item_expression]
      exact (h.expression hu).bind fun v hv => h.shown e.anchor hv

end Sound

/-! ## Runs -/

/-- The outcome of one unit is an error of the discipline or satisfies `Q`. -/
def Result (D : Discipline) {α : Type} (Q : α → Prop) : Except EvalError α → Prop
  | .ok a => Q a
  | .error e => D.error e.cause

section Allows

variable {α : Type} {Q : α → Prop} {r : EStateM.Result EvalError EvalState α}

theorem Allows.result (h : D.Allows Q r) : D.Result Q (Eval.outcome r) := by
  cases h with
  | ok ha _ => exact ha
  | error he _ => exact he

theorem Allows.final (h : D.Allows Q r) : D.InTable (Eval.final r).declarations := by
  cases h with
  | ok _ hs => exact hs
  | error _ hs => exact hs

end Allows

theorem Keeps.all {α : Type} {Q : α → Prop} {us : List (Eval α)} (h : ∀ u ∈ us, D.Keeps Q u)
    {s : EvalState} (hs : D.InTable s.declarations) :
    (∀ r ∈ (Eval.all us s).1, D.Result Q r) ∧ D.InTable (Eval.all us s).2.declarations := by
  induction us generalizing s with
  | nil => exact ⟨by simp [Eval.all], hs⟩
  | cons u us ih =>
    obtain ⟨hu, hus⟩ := List.forall_mem_cons.1 h
    have hr := hu s hs
    obtain ⟨hrest, hlast⟩ := ih hus hr.final
    rw [Eval.all_cons]
    exact ⟨List.forall_mem_cons.2 ⟨hr.result, hrest⟩, hlast⟩

/-- All units of the program are made of trees of the discipline. -/
def InProgram (D : Discipline) (p : Program) : Prop := ∀ u ∈ p.items, D.InUnit u

/-- Values are of the discipline, and so are errors. -/
def InEvaluation (D : Discipline) (e : Evaluation) : Prop :=
  ∀ r ∈ e.results, D.Result (fun v => ∀ w ∈ v, D.value w) r

namespace Sound

variable (h : D.Sound)

include h

theorem program {p : Program} (hp : D.InProgram p) {d : Declarations Expr Value}
    (hd : D.InTable d) : D.InEvaluation (p.evaluate d).1 ∧ D.InTable (p.evaluate d).2 := by
  have hunits : ∀ u ∈ p.units, D.Keeps (fun v => ∀ w ∈ v, D.value w) u := by
    rw [Program.units_eq, List.forall_mem_map]
    exact fun u hu => h.evaluate p.mode (hp u hu)
  exact Keeps.all hunits (s := { declarations := d }) hd

/-- **A discipline of expressions is one of sessions.** -/
theorem evaluateAll {ps : List Program} (hps : ∀ p ∈ ps, D.InProgram p)
    {d : Declarations Expr Value} (hd : D.InTable d) :
    (∀ e ∈ (evaluateAll ps d).1, D.InEvaluation e) ∧ D.InTable (LazyDecl.evaluateAll ps d).2 := by
  induction ps generalizing d with
  | nil => exact ⟨nofun, hd⟩
  | cons p ps ih =>
    obtain ⟨hp, hps⟩ := List.forall_mem_cons.1 hps
    obtain ⟨hfirst, hnext⟩ := h.program hp hd
    obtain ⟨hrest, hlast⟩ := ih hps hnext
    exact ⟨List.forall_mem_cons.2 ⟨hfirst, hrest⟩, hlast⟩

end Sound

end Discipline

end LazyDecl
