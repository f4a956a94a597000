import LazyDecl.Proofs.Declarations
import LazyDecl.Proofs.Eval.Expression
import LazyDecl.Proofs.Expr

/-!
Two runs of the evaluator side by side, on a tree and on the same tree with other
tokens (`valueOver_simulates`). The runs go alike whenever the lookups of names do, and
lookups do on a table with the same other tokens (`force_moved`). With tokens that stay
as they are this compares a run with itself: the evaluator that forces names is a fixed
point of the one over given lookups (`force_eq`).
-/

namespace LazyDecl

namespace Eval

/-- Both results are the same value, or failures for the same cause at tokens in
`T`; the states behind them are in `R`. -/
inductive Alike {α : Type} (R : EvalState → EvalState → Prop) (T : Token → Token → Prop) :
    EStateM.Result EvalError EvalState α → EStateM.Result EvalError EvalState α → Prop
  | ok {a : α} {s s' : EvalState} : R s s' → Alike R T (.ok a s) (.ok a s')
  | error {cause : EvalCause} {t t' : Token} {s s' : EvalState} : T t t' → R s s' →
      Alike R T (.error ⟨cause, t⟩ s) (.error ⟨cause, t'⟩ s')

/-- From states in `R`, two computations have alike results. -/
def Simulates {α : Type} (R : EvalState → EvalState → Prop) (T : Token → Token → Prop)
    (x x' : Eval α) : Prop :=
  ∀ s s', R s s' → Alike R T (x s) (x' s')

section Steps

variable {α β : Type} {R : EvalState → EvalState → Prop} {T : Token → Token → Prop}

theorem Simulates.pure (a : α) : Simulates R T (pure a) (pure a) :=
  fun _ _ h => .ok h

theorem Simulates.fail {t t' : Token} (h : T t t') (cause : EvalCause) :
    Simulates R T (fail cause t : Eval α) (fail cause t') :=
  fun _ _ hs => .error h hs

theorem Simulates.bind {x x' : Eval α} {k k' : α → Eval β} (hx : Simulates R T x x')
    (hk : ∀ a, Simulates R T (k a) (k' a)) : Simulates R T (x >>= k) (x' >>= k') := by
  intro s s' hs
  have h := hx s s' hs
  simp only [Bind.bind, EStateM.bind]
  revert h
  generalize x s = r
  generalize x' s' = r'
  intro h
  cases h with
  | ok hs => exact hk _ _ _ hs
  | error ht hs => exact .error ht hs

theorem Simulates.lift {t t' : Token} (h : T t t') (r : Except EvalCause α) :
    Simulates R T (lift t r) (lift t' r) := by
  cases r with
  | ok a => exact .pure a
  | error cause => exact .fail h cause

theorem Simulates.ite {c : Prop} [Decidable c] {x x' y y' : Eval α} (hx : Simulates R T x x')
    (hy : Simulates R T y y') :
    Simulates R T (if c then x else y) (if c then x' else y') := by
  split
  · exact hx
  · exact hy

theorem Simulates.nameOr (wrap : String → Value) {f : Token → Token}
    (hf : ∀ t, (f t).lexeme = t.lexeme) (name? : Option Token) {key key' : Eval Value}
    (h : Simulates R T key key') :
    Simulates R T (nameOr wrap name? key) (nameOr wrap (name?.map f) key') := by
  cases name? with
  | none => exact h
  | some t =>
    simp only [Eval.nameOr, Option.map_some, hf]
    exact .pure _

theorem Simulates.decideBy {t t' : Token} (h : T t t') (hl : t'.lexeme = t.lexeme)
    (op : LogicalOp) (l : Value) {right right' : Eval Value} (hr : Simulates R T right right') :
    Simulates R T (decideBy op t l right) (decideBy op t' l right') := by
  unfold Eval.decideBy
  rw [hl]
  cases l.boolean? with
  | none => exact .fail h _
  | some b =>
    refine .ite (.pure _) (hr.bind fun r => ?_)
    unfold settle
    rw [hl]
    exact .ite (.fail h _) (.pure _)

end Steps

/-- What two evaluations over lookups of names need in order to go alike: `f` gives
the tokens of the second tree, and keeps their lexemes. -/
structure Parallel (R : EvalState → EvalState → Prop) (T : Token → Token → Prop)
    (force force' : Token → Eval Value) (f : Token → Token) : Prop where
  lexeme : ∀ t, (f t).lexeme = t.lexeme
  warn : ∀ cause t, T t (f t) → Simulates R T (warn cause t) (warn cause (f t))
  force : ∀ t, T t (f t) → Simulates R T (force t) (force' (f t))

section Runs

variable {R : EvalState → EvalState → Prop} {T : Token → Token → Prop}
  {force force' : Token → Eval Value} {f : Token → Token}

mutual

/-- Where lookups go alike, so does the evaluation of a tree with other tokens. -/
theorem valueOver_simulates (h : Parallel R T force force' f) (e : Expr)
    (he : ∀ t ∈ e.tokens, T t (f t)) :
    Simulates R T (valueOver force e) (valueOver force' (e.map f)) := by
  match e with
  | .literal value token => exact .pure _
  | .name token => exact h.force token (he token (by simp [Expr.tokens]))
  | .grouping inner => exact valueOver_simulates h inner he
  | .unary op operator operand =>
    simp only [Expr.tokens, List.mem_cons, forall_eq_or_imp] at he
    rw [Expr.map, valueOver_unary, valueOver_unary]
    exact .ite (.fail he.1 _) ((valueOver_simulates h operand he.2).bind fun v => .lift he.1 _)
  | .binary op operator left right =>
    simp only [Expr.tokens, List.mem_append, List.mem_cons, or_imp, forall_and,
      forall_eq] at he
    rw [Expr.map, valueOver_binary, valueOver_binary, h.lexeme]
    exact (valueOver_simulates h left he.1).bind fun l =>
      (valueOver_simulates h right he.2.2).bind fun r => .lift he.2.1 _
  | .logical op operator left right =>
    simp only [Expr.tokens, List.mem_append, List.mem_cons, or_imp, forall_and,
      forall_eq] at he
    rw [Expr.map, valueOver_logical, valueOver_logical]
    exact (valueOver_simulates h left he.1).bind fun l =>
      .decideBy he.2.1 (h.lexeme _) op l (valueOver_simulates h right he.2.2)
  | .binding left colon right =>
    simp only [Expr.tokens, List.mem_append, List.mem_cons, or_imp, forall_and,
      forall_eq] at he
    rw [Expr.map, valueOver_binding, valueOver_binding, Expr.name?_map]
    exact (Simulates.nameOr _ h.lexeme _ (valueOver_simulates h left he.1)).bind fun key =>
      (valueOver_simulates h right he.2.2).bind fun v => .pure _
  | .sequence opening elements =>
    simp only [Expr.tokens, List.mem_cons, forall_eq_or_imp] at he
    have hb : (mapElements f elements).head?.any Expr.isBinding =
        elements.head?.any Expr.isBinding := by
      cases elements <;> simp [mapElements]
    rw [Expr.map, valueOver_sequence, valueOver_sequence, hb]
    exact .ite ((entriesOver_simulates h [] elements he.2).bind fun t => .pure _)
      ((itemsOver_simulates h elements he.2).bind fun vs => .pure _)
  | .builder kind body =>
    simp only [Expr.map, valueOver, h.lexeme]
    exact .pure _

theorem itemsOver_simulates (h : Parallel R T force force' f) (es : List Expr)
    (he : ∀ t ∈ elementTokens es, T t (f t)) :
    Simulates R T (itemsOver force es) (itemsOver force' (mapElements f es)) := by
  match es with
  | [] => exact .pure _
  | e :: es =>
    simp only [elementTokens, List.mem_append, or_imp, forall_and] at he
    rw [mapElements, itemsOver_cons, itemsOver_cons, Expr.isBinding_map, Expr.anchor_map]
    exact .ite (.fail (he.1 _ e.anchor_mem) _) ((valueOver_simulates h e he.1).bind fun v =>
      (itemsOver_simulates h es he.2).bind fun vs => .pure _)

theorem entriesOver_simulates (h : Parallel R T force force' f) (t : Table) (es : List Expr)
    (he : ∀ t ∈ elementTokens es, T t (f t)) :
    Simulates R T (entriesOver force t es) (entriesOver force' t (mapElements f es)) := by
  match es with
  | [] => exact .pure _
  | .binding left colon right :: es =>
    simp only [elementTokens, Expr.tokens, List.mem_append, List.mem_cons, or_imp, forall_and,
      forall_eq] at he
    rw [mapElements, Expr.map, entriesOver_binding, entriesOver_binding, Expr.name?_map]
    refine (Simulates.nameOr _ h.lexeme _ (valueOver_simulates h left he.1.1)).bind fun key =>
      (valueOver_simulates h right he.1.2.2).bind fun v => Simulates.bind ?_ fun _ =>
        entriesOver_simulates h (t.insert key v) es he.2
    exact .ite (h.warn _ _ he.1.2.1) (.pure _)
  | .literal .. :: es | .name .. :: es | .grouping .. :: es | .unary .. :: es
  | .binary .. :: es | .logical .. :: es | .sequence .. :: es | .builder .. :: es =>
    simp only [elementTokens, List.mem_append, or_imp, forall_and] at he
    rw [mapElements, entriesOver_other _ _ rfl,
      entriesOver_other _ _ ((Expr.isBinding_map _ _).trans rfl), Expr.anchor_map]
    exact .fail (he.1 _ (Expr.anchor_mem _)) _

end

end Runs

/-! ## Forcing by name -/

section Lookup

variable {force : Token → Eval Value} {t : Token} {s : EvalState}

theorem forceOver_none (h : s.declarations.find? t.lexeme = none) :
    forceOver force t s = .error ⟨.unknownName t.lexeme, t⟩ s := by
  simp only [forceOver, get_bind, h]
  rfl

theorem forceOver_some {memo : Memo Expr Value} (h : s.declarations.find? t.lexeme = some memo) :
    forceOver force t s =
      memo.force (put t.lexeme) ⟨.cyclicDeclaration t.lexeme, t⟩ (valueOver force) s := by
  simp only [forceOver, get_bind, h]

theorem forceOver_ready {v : Value} (h : s.declarations.find? t.lexeme = some (.ready v)) :
    forceOver force t s = .ok v s := by
  rw [forceOver_some h]
  rfl

theorem forceOver_forcing (h : s.declarations.find? t.lexeme = some .forcing) :
    forceOver force t s = .error ⟨.cyclicDeclaration t.lexeme, t⟩ s := by
  rw [forceOver_some h]
  rfl

theorem forceOver_deferred {body : Expr}
    (h : s.declarations.find? t.lexeme = some (.deferred body)) :
    forceOver force t s =
      match valueOver force body (put t.lexeme .forcing s) with
      | .ok v s' => .ok v (put t.lexeme (.ready v) s')
      | .error e s' => .error e (put t.lexeme (.deferred body) s') := by
  rw [forceOver_some h, Memo.force]
  dsimp only
  cases valueOver force body (put t.lexeme .forcing s) <;> rfl

/-- Marking a memo as being forced leaves fewer to force. -/
theorem pending_put_lt {name : String} {body : Expr}
    (h : s.declarations.find? name = some (.deferred body)) :
    (put name .forcing s).declarations.pending < s.declarations.pending := by
  have := Declarations.pending_set h .forcing
  simp only [Memo.isDeferred, Bool.toNat_true, Bool.toNat_false] at this
  simp only [put]
  omega

end Lookup

/-! ## Moved states -/

end Eval

def EvalWarning.map (f : Token → Token) (w : EvalWarning) : EvalWarning :=
  { w with token := f w.token }

/-- The state with other tokens, and with the warnings `ws` before its own. -/
def EvalState.moved (ws : List EvalWarning) (f : Token → Token) (s : EvalState) : EvalState where
  declarations := s.declarations.mapBodies (Expr.map f)
  warnings := ws ++ s.warnings.map (EvalWarning.map f)

namespace Eval

section Moved

variable {ws : List EvalWarning} {f : Token → Token} {n : Nat} {force force' : Token → Eval Value}

theorem moved_id (s : EvalState) : s.moved [] id = s := by
  have hd : s.declarations.mapBodies (Expr.map id) = s.declarations :=
    Declarations.mapBodies_eq_self fun _ body _ => body.map_id
  have hw : s.warnings.map (EvalWarning.map id) = s.warnings := List.map_id s.warnings
  rw [EvalState.moved, hd, hw]
  rfl

theorem put_moved (name : String) (memo : Memo Expr Value) (s : EvalState) :
    put name (memo.mapBody (Expr.map f)) (s.moved ws f) = (put name memo s).moved ws f := by
  simp only [put, EvalState.moved, Declarations.set_mapBodies]

/-- The second state is the first one moved, and at most `n` declarations are pending. -/
def MovedWithin (ws : List EvalWarning) (f : Token → Token) (n : Nat) (s s' : EvalState) : Prop :=
  s' = s.moved ws f ∧ s.declarations.pending ≤ n

/-- The second token is what becomes of the first one. -/
def Carried (f : Token → Token) (t t' : Token) : Prop := t' = f t

theorem parallel_moved (hf : ∀ t, (f t).lexeme = t.lexeme)
    (h : ∀ t, Simulates (MovedWithin ws f n) (Carried f) (force t) (force' (f t))) :
    Parallel (MovedWithin ws f n) (Carried f) force force' f where
  lexeme := hf
  warn cause t _ := by
    rintro s _ ⟨rfl, hs⟩
    exact .ok ⟨by simp [EvalState.moved, EvalWarning.map], hs⟩
  force t _ := h t

/-- Lookups that go alike on tables with fewer pending declarations let the memo of a name
on this one be forced alike. -/
theorem force_memo (hf : ∀ t, (f t).lexeme = t.lexeme)
    (h : ∀ k < n, ∀ t, Simulates (MovedWithin ws f k) (Carried f) (force t) (force' (f t)))
    {s : EvalState} (hn : s.declarations.pending ≤ n) {name : String} {memo : Memo Expr Value}
    (hm : s.declarations.find? name = some memo) (t : Token) :
    Alike (MovedWithin ws f n) (Carried f)
      (memo.force (put name) ⟨.cyclicDeclaration name, t⟩ (valueOver force) s)
      ((memo.mapBody (Expr.map f)).force (put name) ⟨.cyclicDeclaration name, f t⟩
        (valueOver force') (s.moved ws f)) := by
  cases memo with
  | ready value => exact .ok ⟨rfl, hn⟩
  | forcing => exact .error rfl ⟨rfl, hn⟩
  | deferred body =>
    have hp := pending_put_lt hm
    have hrun := valueOver_simulates (parallel_moved hf (h (n - 1) (by omega))) body
      (fun _ _ => rfl) (put name .forcing s) _ ⟨rfl, by omega⟩
    rw [← put_moved] at hrun
    simp only [Memo.force, Memo.mapBody] at hrun ⊢
    generalize valueOver force body (put name .forcing s) = r at hrun ⊢
    generalize valueOver force' (body.map f) (put name .forcing (s.moved ws f)) = r' at hrun ⊢
    cases hrun with
    | @ok v s' _ hs =>
      obtain ⟨rfl, hle⟩ := hs
      have := Declarations.pending_set_le s'.declarations name (.ready v)
      simp only [Memo.isDeferred, Bool.toNat_false] at this
      exact .ok ⟨put_moved name (.ready v) s', by simp only [put]; omega⟩
    | @error cause u _ s' _ hu hs =>
      obtain ⟨rfl, hle⟩ := hs
      have := Declarations.pending_set_le s'.declarations name (.deferred body)
      simp only [Memo.isDeferred, Bool.toNat_true] at this
      exact .error hu ⟨put_moved name (.deferred body) s', by simp only [put]; omega⟩

theorem forceOver_moved (hf : ∀ t, (f t).lexeme = t.lexeme)
    (h : ∀ k < n, ∀ t, Simulates (MovedWithin ws f k) (Carried f) (force t) (force' (f t)))
    (t : Token) :
    Simulates (MovedWithin ws f n) (Carried f) (forceOver force t) (forceOver force' (f t)) := by
  rintro s _ ⟨rfl, hn⟩
  have hfind : (s.moved ws f).declarations.find? (f t).lexeme =
      (s.declarations.find? t.lexeme).map (Memo.mapBody (Expr.map f)) := by
    rw [hf]
    exact Declarations.find?_mapBodies ..
  cases hm : s.declarations.find? t.lexeme with
  | none =>
    rw [hm] at hfind
    rw [forceOver_none hm, forceOver_none hfind, hf]
    exact .error rfl ⟨rfl, hn⟩
  | some memo =>
    rw [hm] at hfind
    rw [forceOver_some hm, forceOver_some hfind, hf]
    exact force_memo hf h hn hm t

end Moved

theorem force_moved {ws : List EvalWarning} {f : Token → Token}
    (hf : ∀ t, (f t).lexeme = t.lexeme) (n : Nat) (t : Token) :
    Simulates (MovedWithin ws f n) (Carried f) (force t) (force (f t)) := by
  induction n using Nat.strongRecOn generalizing t with
  | _ n ih =>
    rintro s _ ⟨rfl, hn⟩
    rw [force, force]
    refine forceOver_moved hf (n := n) (fun k hk u => ?_) t s _ ⟨rfl, hn⟩
    rintro s' _ ⟨rfl, hk'⟩
    simp only [EvalState.moved, Declarations.pending_mapBodies, hf]
    split
    · exact ih k hk u _ _ ⟨rfl, hk'⟩
    · exact .error rfl ⟨rfl, hk'⟩

/-- A name is forced over the forcing of names: the table never runs out of pending
declarations on the way. -/
theorem force_eq (t : Token) (s : EvalState) : force t s = forceOver force t s := by
  rw [force]
  generalize hg : (fun u s' => if s'.declarations.pending < s.declarations.pending then force u s'
    else .error ⟨.cyclicDeclaration u.lexeme, u⟩ s') = guarded
  have h : Alike (MovedWithin [] id s.declarations.pending) (Carried id) (forceOver guarded t s)
      (forceOver force t s) := by
    refine forceOver_moved (fun _ => rfl) (fun k hk u => ?_) t s s
      ⟨(moved_id s).symm, Nat.le_refl _⟩
    rintro s' _ ⟨rfl, hk'⟩
    simp only [← hg, if_pos (Nat.lt_of_le_of_lt hk' hk)]
    exact force_moved (fun _ => rfl) k u _ _ ⟨rfl, hk'⟩
  generalize forceOver guarded t s = r at h ⊢
  generalize forceOver force t s = r' at h ⊢
  cases h with
  | ok hs => rw [hs.1, moved_id]
  | error ht hs => rw [hs.1, moved_id, ht]; rfl

end Eval

end LazyDecl
