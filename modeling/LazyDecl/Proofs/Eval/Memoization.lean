import LazyDecl.Proofs.Eval.Program
import LazyDecl.Proofs.Eval.Reference
import LazyDecl.Proofs.Eval.Simulation

/-!
Memos do not show. `Tracks` ties the memo of every name to the reference
evaluation: a memo that is being forced belongs to a name in progress, a deferred
one holds the declared expression, and a value is what the reference evaluator
gives even if every name without a value counts as being in progress. The last
clause is what lets a stored value be used under any names in progress.

* `force_agrees`: forcing a name keeps `Tracks` and gives the reference value;
* `evaluateAll_eq_reference`: so does every unit of every run of programs.
-/

namespace LazyDecl.Memoization

open Reference (Bodies)

structure Tracks (bodies : Bodies) (progress : List String) (d : Declarations Expr Value) :
    Prop where
  absent : ∀ n, d.find? n = none ↔ bodies.lookup n = none
  forcing : ∀ n, d.find? n = some .forcing ↔ n ∈ progress
  deferred : ∀ n body, d.find? n = some (.deferred body) → bodies.lookup n = some body
  ready : ∀ n v, d.find? n = some (.ready v) → ∃ body, bodies.lookup n = some body ∧
    Reference.value bodies (n :: d.waiting) body = .ok v

section Table

variable {bodies : Bodies} {progress : List String} {d : Declarations Expr Value}
  {n : String} {body : Expr}

theorem Tracks.progress_subset (h : Tracks bodies progress d) : progress ⊆ d.waiting := by
  intro m hm
  exact Declarations.mem_waiting.2 ⟨.forcing, (h.forcing m).2 hm, rfl⟩

/-- What a new memo must satisfy for the table to go on tracking. -/
theorem Tracks.set {progress' : List String} (h : Tracks bodies progress d)
    (hn : n ∈ d.waiting) {memo : Memo Expr Value}
    (hforcing : ∀ m, (if m = n then memo = .forcing else m ∈ progress) ↔ m ∈ progress')
    (hdeferred : ∀ body, memo = .deferred body → bodies.lookup n = some body)
    (hready : ∀ v, memo = .ready v → ∃ body, bodies.lookup n = some body ∧
      Reference.value bodies (n :: (d.set n memo).waiting) body = .ok v) :
    Tracks bodies progress' (d.set n memo) := by
  obtain ⟨old, hold, -⟩ := Declarations.mem_waiting.1 hn
  have hself := Declarations.find?_set_self hold memo
  constructor
  · intro m
    rw [← h.absent, Declarations.find?_set, Option.map_eq_none_iff]
  · intro m
    rw [← hforcing]
    split
    · next hm => rw [hm, hself, Option.some_inj]
    · next hm => rw [Declarations.find?_set_of_ne d hm, h.forcing]
  · intro m b hb
    by_cases hm : m = n
    · rw [hm, hself, Option.some_inj] at hb
      rw [hm]
      exact hdeferred b hb
    · rw [Declarations.find?_set_of_ne d hm] at hb
      exact h.deferred m b hb
  · intro m v hv
    by_cases hm : m = n
    · rw [hm, hself, Option.some_inj] at hv
      rw [hm]
      exact hready v hv
    · rw [Declarations.find?_set_of_ne d hm] at hv
      obtain ⟨b, hb, hval⟩ := h.ready m v hv
      exact ⟨b, hb, Reference.value_mono
        (List.cons_subset_cons _ (Declarations.waiting_set_subset hn memo)) b v hval⟩

theorem Tracks.start (h : Tracks bodies progress d) (hn : d.find? n = some (.deferred body)) :
    Tracks bodies (n :: progress) (d.set n .forcing) := by
  refine h.set (Declarations.mem_waiting.2 ⟨_, hn, rfl⟩) (fun m => ?_) (fun _ hb => ?_)
    (fun _ hv => ?_)
  · by_cases hm : m = n <;> simp [hm]
  · cases hb
  · cases hv

/-- The memo of a name in progress takes the value that its expression has come to. -/
theorem Tracks.finish (h : Tracks bodies (n :: progress) d) (hp : n ∉ progress)
    (hb : bodies.lookup n = some body) {v : Value}
    (hv : Reference.value bodies d.waiting body = .ok v) :
    Tracks bodies progress (d.set n (.ready v)) ∧
      Reference.value bodies (n :: (d.set n (.ready v)).waiting) body = .ok v := by
  have hn : n ∈ d.waiting := h.progress_subset (List.mem_cons_self ..)
  have hnew : Reference.value bodies (n :: (d.set n (.ready v)).waiting) body = .ok v :=
    Reference.value_mono (List.cons_subset.2 ⟨hn, Declarations.waiting_set_subset hn _⟩) body v hv
  refine ⟨h.set hn (fun m => ?_) (fun _ hb => ?_) (fun u hu => ?_), hnew⟩
  · by_cases hm : m = n <;> simp [hm, hp]
  · cases hb
  · cases hu
    exact ⟨body, hb, hnew⟩

/-- A failure puts the expression of a name in progress back. -/
theorem Tracks.abandon (h : Tracks bodies (n :: progress) d) (hp : n ∉ progress)
    (hb : bodies.lookup n = some body) :
    Tracks bodies progress (d.set n (.deferred body)) := by
  refine h.set (h.progress_subset (List.mem_cons_self ..)) (fun m => ?_) (fun b hd => ?_)
    (fun _ hv => ?_)
  · by_cases hm : m = n <;> simp [hm, hp]
  · cases hd
    exact hb
  · cases hv

end Table

/-! ## Computations -/

/-- The result of a computation that began in state `s` is the one of a reference:
an error under the names in progress, a value under all names that wait. -/
inductive Sound {α : Type} (bodies : Bodies) (progress : List String) (s : EvalState)
    (r : List String → Except EvalError α) : EStateM.Result EvalError EvalState α → Prop
  | ok {a : α} {s' : EvalState} : Tracks bodies progress s'.declarations →
      s'.declarations.waiting ⊆ s.declarations.waiting →
      r s'.declarations.waiting = .ok a → Sound bodies progress s r (.ok a s')
  | error {e : EvalError} {s' : EvalState} : Tracks bodies progress s'.declarations →
      s'.declarations.waiting ⊆ s.declarations.waiting →
      r progress = .error e → Sound bodies progress s r (.error e s')

def Agrees {α : Type} (bodies : Bodies) (progress : List String) (x : Eval α)
    (r : List String → Except EvalError α) : Prop :=
  ∀ s, Tracks bodies progress s.declarations → Sound bodies progress s r (x s)

/-- A reference whose value survives when fewer names are in progress. -/
def Mono {α : Type} (r : List String → Except EvalError α) : Prop :=
  ∀ p p', p' ⊆ p → Reference.Below (r p) (r p')

section Steps

variable {α β : Type} {bodies : Bodies} {progress : List String}

theorem Sound.outcome_eq {s : EvalState} {r : List String → Except EvalError α}
    {result : EStateM.Result EvalError EvalState α} (hr : Mono r)
    (h : Sound bodies progress s r result) : Eval.outcome result = r progress := by
  cases h with
  | @ok a s' ht hw ha => exact (hr _ _ ht.progress_subset a ha).symm
  | error ht hw he => exact he.symm

theorem Sound.tracks {s : EvalState} {r : List String → Except EvalError α}
    {result : EStateM.Result EvalError EvalState α} (h : Sound bodies progress s r result) :
    Tracks bodies progress (Eval.final result).declarations := by
  cases h with
  | ok ht hw ha => exact ht
  | error ht hw he => exact ht

theorem Agrees.ok (a : α) : Agrees bodies progress (pure a) fun _ => .ok a :=
  fun _ hs => .ok hs (fun _ h => h) rfl

theorem Agrees.error (cause : EvalCause) (t : Token) :
    Agrees bodies progress (Eval.fail cause t : Eval α) fun _ => .error ⟨cause, t⟩ :=
  fun _ hs => .error hs (fun _ h => h) rfl

theorem Agrees.bind {x : Eval α} {k : α → Eval β} {r : List String → Except EvalError α}
    {l : α → List String → Except EvalError β} (hr : Mono r) (hx : Agrees bodies progress x r)
    (hk : ∀ a, Agrees bodies progress (k a) (l a)) :
    Agrees bodies progress (x >>= k) fun p => (r p).bind fun a => l a p := by
  intro s hs
  have hxs := hx s hs
  simp only [Bind.bind, EStateM.bind]
  generalize x s = result at hxs ⊢
  cases hxs with
  | error ht hw he => exact .error ht hw (by rw [he]; rfl)
  | @ok a s₁ ht hw ha =>
    have hks := hk a s₁ ht
    dsimp only
    generalize k a s₁ = result at hks ⊢
    cases hks with
    | @ok b s₂ ht' hw' hb =>
      refine .ok ht' (fun n hn => hw (hw' hn)) ?_
      rw [hr _ _ hw' a ha]
      exact hb
    | error ht' hw' he =>
      refine .error ht' (fun n hn => hw (hw' hn)) ?_
      rw [hr _ _ ht.progress_subset a ha]
      exact he

theorem Agrees.map {x : Eval α} {r : List String → Except EvalError α} (hr : Mono r)
    (hx : Agrees bodies progress x r) (f : α → β) :
    Agrees bodies progress (x >>= fun a => pure (f a)) fun p => (r p).map f := by
  have h := Agrees.bind hr hx fun a => .ok (f a)
  have he : ∀ y : Except EvalError α, (y.bind fun a => .ok (f a)) = y.map f := by
    intro y
    cases y <;> rfl
  simpa only [he] using h

theorem Agrees.lift (t : Token) (y : Except EvalCause α) :
    Agrees bodies progress (Eval.lift t y) fun _ => Reference.lift t y := by
  cases y with
  | ok a => exact .ok a
  | error cause => exact .error cause t

theorem Agrees.ite {c : Prop} [Decidable c] {x y : Eval α}
    {r l : List String → Except EvalError α} (hx : Agrees bodies progress x r)
    (hy : Agrees bodies progress y l) :
    Agrees bodies progress (if c then x else y) fun p => if c then r p else l p := by
  split
  · exact hx
  · exact hy

theorem Agrees.nameOr (wrap : String → Value) (name? : Option Token) {key : Eval Value}
    {r : List String → Except EvalError Value} (h : Agrees bodies progress key r) :
    Agrees bodies progress (Eval.nameOr wrap name? key) fun p => Eval.nameOr wrap name? (r p) := by
  cases name? with
  | none => exact h
  | some t => exact .ok _

theorem Agrees.decideBy (op : LogicalOp) (operator : Token) (l : Value) {right : Eval Value}
    {r : List String → Except EvalError Value} (hr : Mono r)
    (h : Agrees bodies progress right r) :
    Agrees bodies progress (Eval.decideBy op operator l right) fun p =>
      Reference.decideBy op operator l (r p) := by
  unfold Eval.decideBy Reference.decideBy
  cases l.boolean? with
  | none => exact .error _ operator
  | some b => exact .ite (.ok _) (h.bind hr fun v => .ite (.error _ operator) (.ok v))

/-- A warning leaves the table alone. -/
theorem Agrees.warnIf_bind (found : Bool) (cause : WarningCause) (t : Token) {x : Eval α}
    {r : List String → Except EvalError α} (h : Agrees bodies progress x r) :
    Agrees bodies progress (Eval.warnIf found cause t >>= fun _ => x) r := by
  intro s hs
  cases found with
  | false => exact h s hs
  | true =>
    have hw := h { s with warnings := s.warnings ++ [⟨cause, t⟩] } hs
    simp only [Eval.warnIf, Eval.warn, if_true, Eval.modify_bind]
    generalize x _ = result at hw ⊢
    cases hw with
    | ok ht hw ha => exact .ok ht hw ha
    | error ht hw he => exact .error ht hw he

end Steps

section Trees

variable {bodies : Bodies} {progress : List String}

theorem mono_value (e : Expr) : Mono fun p => Reference.value bodies p e :=
  fun _ _ h => Reference.value_mono h e

theorem mono_items (es : List Expr) :
    Mono fun p => Reference.itemsOver (Reference.force bodies p) es :=
  fun _ _ h => Reference.itemsOver_below (Reference.force_mono h) es

theorem mono_entries (t : Table) (es : List Expr) :
    Mono fun p => Reference.entriesOver (Reference.force bodies p) t es :=
  fun _ _ h => Reference.entriesOver_below (Reference.force_mono h) t es

/-- Under these names in progress, forcing gives the reference value of every name. -/
def ForcesSoundly (bodies : Bodies) (progress : List String) (force : Token → Eval Value) : Prop :=
  ∀ t, Agrees bodies progress (force t) fun p => Reference.force bodies p t

variable {force : Token → Eval Value}

mutual

theorem valueOver_agrees (h : ForcesSoundly bodies progress force) (e : Expr) :
    Agrees bodies progress (Eval.valueOver force e) fun p => Reference.value bodies p e := by
  match e with
  | .literal .. | .builder .. => exact .ok _
  | .name t => exact h t
  | .grouping inner => exact valueOver_agrees h inner
  | .unary op operator operand =>
    rw [Eval.valueOver_unary]
    exact .ite (.error _ operator)
      ((valueOver_agrees h operand).bind (mono_value operand) fun v => .lift operator _)
  | .binary op operator left right =>
    rw [Eval.valueOver_binary]
    exact (valueOver_agrees h left).bind (mono_value left) fun l =>
      (valueOver_agrees h right).bind (mono_value right) fun r => .lift operator _
  | .logical op operator left right =>
    rw [Eval.valueOver_logical]
    exact (valueOver_agrees h left).bind (mono_value left) fun l =>
      .decideBy op operator l (mono_value right) (valueOver_agrees h right)
  | .binding left colon right =>
    rw [Eval.valueOver_binding]
    refine Agrees.bind (fun p p' hp => ?_)
      (Agrees.nameOr .reference left.name? (valueOver_agrees h left)) fun key =>
        (valueOver_agrees h right).bind (mono_value right) fun v => .ok _
    exact .nameOr _ _ (mono_value left p p' hp)
  | .sequence opening elements =>
    rw [Eval.valueOver_sequence]
    exact .ite ((entriesOver_agrees h [] elements).map (mono_entries [] elements) _)
      ((itemsOver_agrees h elements).map (mono_items elements) _)

theorem itemsOver_agrees (h : ForcesSoundly bodies progress force) (es : List Expr) :
    Agrees bodies progress (Eval.itemsOver force es) fun p =>
      Reference.itemsOver (Reference.force bodies p) es := by
  match es with
  | [] => exact .ok _
  | e :: es =>
    rw [Eval.itemsOver_cons]
    exact .ite (.error _ e.anchor) ((valueOver_agrees h e).bind (mono_value e) fun v =>
      (itemsOver_agrees h es).map (mono_items es) _)

theorem entriesOver_agrees (h : ForcesSoundly bodies progress force) (t : Table) (es : List Expr) :
    Agrees bodies progress (Eval.entriesOver force t es) fun p =>
      Reference.entriesOver (Reference.force bodies p) t es := by
  match es with
  | [] => exact .ok _
  | .binding left colon right :: es =>
    rw [Eval.entriesOver_binding]
    refine Agrees.bind (fun p p' hp => ?_)
      (Agrees.nameOr .string left.name? (valueOver_agrees h left)) fun key =>
        (valueOver_agrees h right).bind (mono_value right) fun v =>
          .warnIf_bind _ _ colon (entriesOver_agrees h (t.insert key v) es)
    exact .nameOr _ _ (mono_value left p p' hp)
  | .literal .. :: es | .name .. :: es | .grouping .. :: es | .unary .. :: es
  | .binary .. :: es | .logical .. :: es | .sequence .. :: es | .builder .. :: es =>
    rw [Eval.entriesOver_other _ _ rfl]
    exact .error _ _

end

/-- Forcing keeps the table tracking and gives the reference value, if it does so with
the name among those in progress. -/
theorem forceOver_agrees {t : Token}
    (h : ∀ body, bodies.lookup t.lexeme = some body → t.lexeme ∉ progress →
      ForcesSoundly bodies (t.lexeme :: progress) force) :
    Agrees bodies progress (Eval.forceOver force t) fun p => Reference.force bodies p t := by
  intro s hs
  cases hm : s.declarations.find? t.lexeme with
  | none =>
    rw [Eval.forceOver_none hm]
    exact .error hs (fun _ h => h) (Reference.force_none ((hs.absent _).1 hm))
  | some memo =>
    cases memo with
    | forcing =>
      rw [Eval.forceOver_forcing hm]
      have hp := (hs.forcing _).1 hm
      cases hb : bodies.lookup t.lexeme with
      | none =>
        rw [(hs.absent _).2 hb] at hm
        cases hm
      | some body => exact .error hs (fun _ h => h) (Reference.force_cyclic hb hp)
    | ready v =>
      rw [Eval.forceOver_ready hm]
      obtain ⟨body, hb, hv⟩ := hs.ready _ _ hm
      have hw : t.lexeme ∉ s.declarations.waiting :=
        Declarations.notMem_waiting hm rfl
      exact .ok hs (fun _ h => h) (by rw [Reference.force_some hb hw, hv])
    | deferred body =>
      have hb := hs.deferred _ _ hm
      have hw : t.lexeme ∈ s.declarations.waiting := Declarations.mem_waiting.2 ⟨_, hm, rfl⟩
      have hp : t.lexeme ∉ progress := by
        intro hp
        rw [(hs.forcing _).2 hp] at hm
        cases hm
      have hrun := valueOver_agrees (h body hb hp) body (Eval.put t.lexeme .forcing s) (hs.start hm)
      rw [Eval.forceOver_deferred hm]
      generalize Eval.valueOver force body (Eval.put t.lexeme .forcing s) = result at hrun ⊢
      -- Behind the run the name still waits, so that no name is added to those that wait.
      have hback : ∀ s' : EvalState, Tracks bodies (t.lexeme :: progress) s'.declarations →
          s'.declarations.waiting ⊆ (Eval.put t.lexeme .forcing s).declarations.waiting →
          ∀ memo, (s'.declarations.set t.lexeme memo).waiting ⊆ s.declarations.waiting := by
        intro s' ht hsub memo n hn
        have hin := ht.progress_subset (List.mem_cons_self ..)
        exact Declarations.waiting_set_subset hw _
          (hsub (Declarations.waiting_set_subset hin memo hn))
      cases hrun with
      | @ok v s' ht hsub hv =>
        obtain ⟨hnew, hval⟩ := ht.finish hp hb hv
        obtain ⟨old, hold, -⟩ :=
          Declarations.mem_waiting.1 (ht.progress_subset (List.mem_cons_self ..))
        have hw' : t.lexeme ∉ (s'.declarations.set t.lexeme (.ready v)).waiting :=
          Declarations.notMem_waiting (Declarations.find?_set_self hold _) rfl
        exact .ok hnew (hback s' ht hsub _) ((Reference.force_some hb hw').trans hval)
      | @error e s' ht hsub he =>
        exact .error (ht.abandon hp hb) (hback s' ht hsub _) ((Reference.force_some hb hp).trans he)

/-- Forcing a name keeps the table tracking and gives the reference value. Each name
that is marked leaves fewer to mark below it. -/
theorem force_agrees (bodies : Bodies) (progress : List String) :
    ForcesSoundly bodies progress Eval.force := by
  intro t s hs
  rw [Eval.force_eq]
  exact forceOver_agrees (fun _ hb hp => force_agrees bodies (t.lexeme :: progress)) s hs
termination_by Reference.idle bodies progress
decreasing_by exact Reference.idle_cons_lt hb hp

theorem value_agrees (bodies : Bodies) (progress : List String) (e : Expr) :
    Agrees bodies progress (Eval.value e) fun p => Reference.value bodies p e :=
  valueOver_agrees (force_agrees bodies progress) e

end Trees

/-! ## Units -/

section Units

variable {bodies : Bodies}

theorem lookup_concat {name : String} (h : bodies.lookup name = none) (body : Expr) (n : String) :
    (bodies ++ [(name, body)]).lookup n = if n = name then some body else bodies.lookup n := by
  rw [List.lookup_append]
  by_cases he : n = name
  · simp [he, h]
  · have hb : (n == name) = false := by simp [he]
    simp [he, List.lookup_cons, hb]

/-- A new name waits, so that no stored value can have come from it. -/
theorem Tracks.declare {d : Declarations Expr Value} {name : String}
    (h : Tracks bodies [] d) (hn : bodies.lookup name = none) (body : Expr) :
    Tracks (bodies ++ [(name, body)]) [] (d.declare name (.deferred body)) := by
  constructor
  · intro n
    rw [Declarations.find?_declare, lookup_concat hn]
    split
    · simp
    · exact h.absent n
  · intro n
    rw [Declarations.find?_declare]
    split
    · simp
    · exact h.forcing n
  · intro n b hb
    rw [Declarations.find?_declare] at hb
    rw [lookup_concat hn]
    split
    · next he =>
      rw [if_pos he] at hb
      cases hb
      rfl
    · next he =>
      rw [if_neg he] at hb
      exact h.deferred n b hb
  · intro n v hv
    rw [Declarations.find?_declare] at hv
    by_cases he : n = name
    · rw [if_pos he] at hv
      cases hv
    · rw [if_neg he] at hv
      obtain ⟨b, hb, hval⟩ := h.ready n v hv
      refine ⟨b, by rw [lookup_concat hn, if_neg he, hb], ?_⟩
      refine Reference.value_mono ?_ b v (Reference.value_append hn body _ b v hval)
      have hwaiting := d.waiting_declare_subset name (.deferred body)
      refine List.cons_subset.2 ⟨by simp, fun m hm => ?_⟩
      rcases List.mem_cons.1 (hwaiting hm) with rfl | hm
      · simp
      · simp [hm]

/-- The unit comes to what the reference comes to, and leaves a table that tracks what
is declared behind it. -/
def UnitAgrees (bodies : Bodies) (u : Item) (x : Eval (Option Value)) : Prop :=
  ∀ s, Tracks bodies [] s.declarations →
    (∀ e ∈ Reference.declared? u, bodies.lookup e.1 = none) →
      Eval.outcome (x s) = Reference.item bodies u ∧
        Tracks (bodies ++ (Reference.declared? u).toList) [] (Eval.final (x s)).declarations

theorem unitAgrees_value {u : Item} {e : Expr} (hd : Reference.declared? u = none)
    (hu : Reference.item bodies u = (Reference.value bodies [] e).map some) :
    UnitAgrees bodies u (Eval.value e >>= fun v => pure (some v)) := by
  intro s hs _
  have h := (value_agrees bodies [] e).map (mono_value e) some s hs
  rw [hd, hu, Option.toList_none, List.append_nil]
  exact ⟨h.outcome_eq fun _ _ hp => (mono_value e _ _ hp).map some, h.tracks⟩

theorem unitAgrees_statement (s : Statement) :
    UnitAgrees bodies (.statement s) (Eval.statement s) := by
  by_cases ht : s.tag.lexeme = Eval.declarationTag
  · obtain ⟨tag, e⟩ := s
    simp only at ht
    intro st hs hnew
    cases hb : e.isBinding with
    | false =>
      rw [Eval.statement_unbound ht hb]
      cases e with
      | binding left colon body => cases hb
      | _ => simpa [Reference.item, Reference.declaration, Reference.declared?, ht, Eval.outcome,
          Eval.final] using hs
    | true =>
      obtain ⟨left, colon, body, rfl⟩ : ∃ left colon body, e = .binding left colon body := by
        cases e with
        | binding left colon body => exact ⟨left, colon, body, rfl⟩
        | _ => cases hb
      cases hn : left.name? with
      | none =>
        rw [Eval.statement_unnamed ht hn]
        simpa [Reference.item, Reference.declaration, Reference.declared?, ht, hn, Eval.outcome,
          Eval.final] using hs
      | some name =>
        have hd : Reference.declared? (.statement ⟨tag, .binding left colon body⟩) =
            some (name.lexeme, body) := by
          simp [Reference.declared?, ht, hn]
        rw [Eval.statement_declare ht hn, hd, Option.toList_some]
        refine ⟨?_, hs.declare (hnew _ hd) body⟩
        simp [Reference.item, Reference.declaration, ht, hn, Eval.outcome]
  · rw [Eval.statement_value ht]
    exact unitAgrees_value (by simp [Reference.declared?, ht]) (by simp [Reference.item, ht])

theorem item_isReference {u : Item} {v : Value} (h : Reference.item bodies u = .ok (some v)) :
    Reference.isReference v = false := by
  have hvalue : ∀ e, (Reference.value bodies [] e).map some = .ok (some v) →
      Reference.isReference v = false := by
    intro e he
    cases hr : Reference.value bodies [] e with
    | error err => rw [hr] at he; cases he
    | ok w =>
      rw [hr] at he
      cases he
      exact Reference.value_isReference hr
  cases u with
  | expression e => exact hvalue e h
  | statement s =>
    simp only [Reference.item] at h
    split at h
    · unfold Reference.declaration at h
      split at h
      · split at h <;> cases h
      · cases h
    · exact hvalue s.value h

/-- The prompt finds no reference to follow. -/
theorem UnitAgrees.shown {u : Item} {x : Eval (Option Value)} (h : UnitAgrees bodies u x)
    (anchor : Token) : UnitAgrees bodies u (x >>= Eval.shown anchor) := by
  intro s hs hnew
  obtain ⟨hout, hstate⟩ := h s hs hnew
  simp only [bind, EStateM.bind]
  generalize x s = result at hout hstate ⊢
  cases result with
  | error e s' => exact ⟨hout, hstate⟩
  | ok v s' =>
    cases v with
    | none => exact ⟨hout, hstate⟩
    | some v =>
      have hv := item_isReference hout.symm
      simp only [Eval.shown, Reference.dereference_of_not_reference anchor hv]
      exact ⟨hout, hstate⟩

theorem unitAgrees_item (u : Item) : UnitAgrees bodies u (Eval.item u) := by
  cases u with
  | statement s =>
    rw [Eval.item_statement]
    exact (unitAgrees_statement s).shown _
  | expression e =>
    rw [Eval.item_expression]
    exact (unitAgrees_value rfl rfl).shown _

theorem unitAgrees_evaluate (mode : Mode) (u : Item) : UnitAgrees bodies u (mode.evaluate u) := by
  cases mode with
  | interactive => exact unitAgrees_item u
  | batch =>
    cases u with
    | statement s => exact unitAgrees_statement s
    | expression e => exact unitAgrees_value rfl rfl

end Units

/-! ## Runs -/

section Runs

variable {bodies : Bodies}

theorem lookup_eq_none_of_notMem {name : String} (h : name ∉ bodies.map Prod.fst) :
    bodies.lookup name = none := by
  rw [List.lookup_eq_none_iff]
  intro e he
  rw [bne_iff_ne]
  rintro rfl
  exact h (List.mem_map_of_mem he)

/-- A run of units that declare new names comes to what the reference comes to. -/
theorem all_agrees (us : List Item) (run : Item → Eval (Option Value))
    (hrun : ∀ bodies u, UnitAgrees bodies u (run u)) (s : EvalState)
    (hs : Tracks bodies [] s.declarations)
    (hnew : ((bodies ++ us.filterMap Reference.declared?).map Prod.fst).Nodup) :
    (Eval.all (us.map run) s).1 = Reference.items bodies us ∧
      Tracks (bodies ++ us.filterMap Reference.declared?) []
        (Eval.all (us.map run) s).2.declarations := by
  induction us generalizing bodies s with
  | nil => simpa [Eval.all, Reference.items] using hs
  | cons u us ih =>
    rw [Reference.append_declared] at hnew ⊢
    have hfresh : ∀ e ∈ Reference.declared? u, bodies.lookup e.1 = none := by
      intro e he
      apply lookup_eq_none_of_notMem
      rw [List.map_append, List.map_append] at hnew
      have := (List.nodup_append.1 (List.nodup_append.1 hnew).1).2.2
      intro hm
      exact this _ hm _ (by rw [Option.mem_def.1 he]; simp) rfl
    obtain ⟨hout, hstate⟩ := hrun bodies u s hs hfresh
    obtain ⟨hrest, hlast⟩ := ih _ hstate hnew
    rw [List.map_cons, Eval.all_cons, Reference.items, hout, hrest]
    exact ⟨rfl, hlast⟩

theorem evaluate_agrees (p : Program) (d : Declarations Expr Value) (hd : Tracks bodies [] d)
    (hnew : ((bodies ++ p.items.filterMap Reference.declared?).map Prod.fst).Nodup) :
    (p.evaluate d).1.results = Reference.items bodies p.items ∧
      Tracks (bodies ++ p.items.filterMap Reference.declared?) [] (p.evaluate d).2 := by
  have h := all_agrees p.items p.mode.evaluate (fun _ => unitAgrees_evaluate p.mode)
    { declarations := d } hd hnew
  rwa [← Program.units_eq] at h

theorem tracks_empty : Tracks [] [] ∅ where
  absent _ := ⟨fun _ => rfl, fun _ => rfl⟩
  forcing _ := by simp [Declarations.find?, EmptyCollection.emptyCollection]
  deferred _ _ h := by cases h
  ready _ _ h := by cases h

theorem evaluateAll_agrees (ps : List Program) (d : Declarations Expr Value)
    (hd : Tracks bodies [] d)
    (hnew : ((bodies ++ (ps.flatMap Program.items).filterMap Reference.declared?).map
      Prod.fst).Nodup) :
    (evaluateAll ps d).1.map Evaluation.results = Reference.programs bodies ps := by
  induction ps generalizing bodies d with
  | nil => rfl
  | cons p ps ih =>
    rw [List.flatMap_cons, List.filterMap_append, ← List.append_assoc] at hnew
    have hfirst : ((bodies ++ p.items.filterMap Reference.declared?).map Prod.fst).Nodup := by
      rw [List.map_append] at hnew
      exact (List.nodup_append.1 hnew).1
    obtain ⟨hresults, hstate⟩ := evaluate_agrees p d hd hfirst
    rw [evaluateAll, Reference.programs, List.map_cons, hresults, ih _ hstate hnew]

end Runs

/-- **Memos do not show.** In every session that declares no name twice, each unit comes
to what it comes to without memos. -/
theorem evaluateAll_eq_reference (ps : List Program)
    (h : (((ps.flatMap Program.items).filterMap Reference.declared?).map Prod.fst).Nodup) :
    (evaluateAll ps ∅).1.map Evaluation.results = Reference.programs [] ps :=
  evaluateAll_agrees ps ∅ tracks_empty h

def word (lexeme : String) : Token := { kind := .identifier, lexeme, start := .start }

/-- A declaration that fails at first, because the name in it is declared only later. -/
def retried : List Program :=
  [.batch [⟨word "decl", .binding (.name (word "a")) (word ":") (.name (word "b"))⟩,
      ⟨word "show", .name (word "a")⟩],
    .interactive [.statement ⟨word "decl", .binding (.name (word "b")) (word ":")
        (.literal (.integer 1) (word "1"))⟩,
      .expression (.name (word "a")), .expression (.name (word "a"))]]

theorem evaluateAll_retried :
    (((retried.flatMap Program.items).filterMap Reference.declared?).map Prod.fst).Nodup ∧
      (evaluateAll retried ∅).1.map Evaluation.results =
        [[.ok none, .error ⟨.unknownName "b", word "b"⟩],
          [.ok none, .ok (some (.integer 1)), .ok (some (.integer 1))]] :=
  ⟨by decide, (evaluateAll_eq_reference retried (by decide)).trans (by cbv)⟩

end LazyDecl.Memoization
