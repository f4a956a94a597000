import LazyDecl.Proofs.Input

/-!
A cursor that is an index in the whole list of tokens, with each access checked (`Pointer`). It
shows and takes the tokens that the input ahead of it does, so no access is out of bounds
(`Pointer.Stands.peek?`, `Pointer.Stands.peekNext?`, `Pointer.Stands.step`). `Pointer.Step` tells
where a step takes its token and which tokens it leaves out.
-/

namespace LazyDecl

namespace View

/-- The tokens in front of the first one that the view shows. -/
def stepsOver (v : View) (ts : List Token) : List Token :=
  match v with
  | visible => ts.takeWhile (·.hidden)
  | hidden => []

variable {v : View} {t : Token} {ts : List Token}

theorem stepsOver_append_ahead (v : View) (ts : List Token) :
    v.stepsOver ts ++ v.ahead ts = ts := by
  cases v with
  | visible => exact List.takeWhile_append_dropWhile
  | hidden => rfl

theorem stepsOver_ahead (v : View) (ts : List Token) : v.stepsOver (v.ahead ts) = [] := by
  have h := congrArg List.length (v.stepsOver_append_ahead (v.ahead ts))
  rw [ahead_ahead, List.length_append] at h
  exact List.eq_nil_of_length_eq_zero (Nat.add_eq_right.1 h)

theorem hidden_of_mem_stepsOver (h : t ∈ v.stepsOver ts) : t.hidden = true := by
  cases v with
  | visible => exact List.mem_takeWhile_imp (p := fun t : Token => t.hidden) h
  | hidden => cases h

theorem skips_iff : v.skips ts = true ↔ v.stepsOver ts ≠ [] := by
  cases v with
  | visible =>
    rw [skips_visible, stepsOver]
    cases ts with
    | nil => simp
    | cons t ts => cases h : t.hidden <;> simp [h]
  | hidden => simp [stepsOver]

/-- What the visible view shows is not hidden, unless it is a hidden mark at the end. -/
theorem hidden_headD_ahead {final : Token} (h : final.hidden = false) (ts : List Token) :
    ((visible.ahead ts).headD final).hidden = false := by
  have hhead := List.head?_dropWhile_not (fun t : Token => t.hidden) ts
  rw [ahead_visible]
  cases hts : ts.dropWhile (·.hidden) with
  | nil => exact h
  | cons t us =>
    rw [hts] at hhead
    exact hhead

end View

namespace Input

variable {v : View} {i : Input}

/-- All tokens ahead with the final end mark. -/
def all (i : Input) : List Token := i.rest ++ [i.final]

theorem advance_end (h : (i.peek v).kind = .eof) :
    i.advance v = (i.peek v, { i with rest := v.ahead i.rest, skipped := false }) := by
  unfold peek at h ⊢
  cases hts : v.ahead i.rest with
  | nil => exact advance_nil hts
  | cons t ts =>
    rw [hts, List.headD_cons] at h
    rw [advance_cons hts, if_pos h, List.headD_cons]

theorem hidden_peek (h : i.final.hidden = false) : (i.peek .visible).hidden = false :=
  View.hidden_headD_ahead h i.rest

theorem hidden_peekNext (h : i.final.hidden = false) : (i.peekNext .visible).hidden = false := by
  have hpeek := hidden_peek h
  unfold peek at hpeek
  unfold peekNext
  split
  · exact h
  · rename_i t ts hts
    rw [hts] at hpeek
    split
    · exact hpeek
    · exact View.hidden_headD_ahead h ts

end Input

/-! ## A cursor as an index -/

/-- A cursor as an index in a list. -/
structure Pointer where
  tokens : List Token
  current : Nat := 0
  /-- Where the token stands that was taken last. -/
  taken? : Option Nat := none

namespace Pointer

/-- The tokens with an end mark just behind the last one, if that is none itself. -/
def closed (ts : List Token) : List Token :=
  match ts.getLast? with
  | none => [.eof .start]
  | some t =>
    if t.kind = .eof then ts
    else ts ++ [.eof { t.start with column := t.start.column + t.lexeme.length }]

def ofTokens (ts : List Token) : Pointer := { tokens := closed ts }

/-- The first index at which the token is not hidden, or `last`; none if an index on the way is
out of bounds. -/
def skipHidden? (tokens : List Token) (last index : Nat) : Option Nat :=
  match tokens[index]? with
  | none => none
  | some t => if t.hidden ∧ index < last then skipHidden? tokens last (index + 1) else some index
termination_by last - index

/-- The index of the token that the view shows; without any token there is none. -/
def resolve? (p : Pointer) (index : Nat) (v : View) : Option Nat :=
  match p.tokens.length with
  | 0 => none
  | last + 1 =>
    match v with
    | .visible => skipHidden? p.tokens last (min index last)
    | .hidden => some (min index last)

def peek? (p : Pointer) (v : View) : Option Token := do
  let here ← p.resolve? p.current v
  p.tokens[here]?

def peekNext? (p : Pointer) (v : View) : Option Token := do
  let here ← p.resolve? p.current v
  let t ← p.tokens[here]?
  if t.kind = .eof then some t
  else
    let next ← p.resolve? (here + 1) v
    p.tokens[next]?

/-- Where a step comes to rest: a visible one goes on to the token that its view shows. -/
def settle? (p : Pointer) (index : Nat) (v : View) : Option Nat :=
  match v with
  | .visible => p.resolve? index .visible
  | .hidden => some index

/-- The token at one index is taken, and the cursor comes to rest at another. -/
def moved (p : Pointer) (index current : Nat) : Pointer := { p with current, taken? := some index }

@[simp] theorem current_moved (p : Pointer) (index current : Nat) :
    (p.moved index current).current = current := rfl

def advance? (p : Pointer) (v : View) : Option (Token × Pointer) := do
  let here ← p.resolve? p.current v
  let t ← p.tokens[here]?
  let current ← p.settle? (if t.kind = .eof then here else here + 1) v
  some (t, p.moved here current)

def previous? (p : Pointer) : Option Token :=
  match p.taken? with
  | some index => p.tokens[index]?
  | none => p.peek? .hidden

/-- Whether a hidden token is in the slice between the token taken last and the cursor. Outside
of the list there is no slice. -/
def skipped (p : Pointer) : Bool :=
  match p.taken? with
  | none => false
  | some index =>
    index + 1 ≤ p.current ∧ p.current ≤ p.tokens.length ∧
      ((p.tokens.take p.current).drop (index + 1)).any (·.hidden)

/-! ## Where the cursor stands -/

/-- The tokens before the cursor are `front`, and those ahead are the ones of the input. -/
structure Stands (p : Pointer) (front : List Token) (i : Input) : Prop where
  tokens_eq : p.tokens = front ++ i.all
  current_eq : p.current = front.length

variable {p q : Pointer} {v : View} {front rest : List Token} {final t : Token} {i : Input}

theorem skipHidden?_eq (front rest : List Token) (final : Token) :
    skipHidden? (front ++ (rest ++ [final])) (front ++ rest).length front.length =
      some (front ++ rest.takeWhile (·.hidden)).length := by
  induction rest generalizing front with
  | nil =>
    rw [skipHidden?]
    simp
  | cons t rest ih =>
    have hnext := ih (front ++ [t])
    simp only [List.append_assoc, List.singleton_append] at hnext
    rw [skipHidden?]
    simp only [List.cons_append, List.getElem?_append_right (Nat.le_refl _), Nat.sub_self,
      List.getElem?_cons_zero]
    cases h : t.hidden with
    | false => simp [h]
    | true =>
      rw [if_pos ⟨rfl, by simp⟩, List.takeWhile_cons_of_pos h]
      simpa using hnext

/-- An index that is in bounds resolves to one that is in bounds: the one of the first token
that the view shows. -/
theorem resolve?_eq (h : p.tokens = front ++ (rest ++ [final])) (v : View) :
    p.resolve? front.length v = some (front ++ v.stepsOver rest).length := by
  have hlength : p.tokens.length = (front ++ rest).length + 1 := by
    rw [h, ← List.append_assoc, List.length_append, List.length_singleton]
  have hmin : min front.length (front ++ rest).length = front.length :=
    Nat.min_eq_left (List.length_append ▸ Nat.le_add_right _ _)
  simp only [resolve?, hlength, hmin]
  cases v with
  | visible => exact h ▸ skipHidden?_eq front rest final
  | hidden => rw [View.stepsOver, List.append_nil]

/-- The tokens that the view steps over, put with those before the cursor. -/
theorem tokens_resolved (h : p.tokens = front ++ (rest ++ [final])) (v : View) :
    p.tokens = (front ++ v.stepsOver rest) ++ (v.ahead rest ++ [final]) := by
  rw [h, List.append_assoc, ← List.append_assoc (v.stepsOver rest), v.stepsOver_append_ahead]

theorem getElem?_resolved (h : p.tokens = front ++ (rest ++ [final])) (v : View) :
    p.tokens[(front ++ v.stepsOver rest).length]? = some ((v.ahead rest).headD final) := by
  rw [tokens_resolved h v, List.getElem?_append_right (Nat.le_refl _), Nat.sub_self]
  cases v.ahead rest <;> rfl

/-- The tokens with the shown one put with those before the cursor. -/
theorem tokens_passed {ts : List Token} (h : p.Stands front i)
    (hts : v.ahead i.rest = t :: ts) :
    p.tokens = (front ++ v.stepsOver i.rest ++ [t]) ++ (ts ++ [i.final]) := by
  rw [tokens_resolved h.tokens_eq v, hts]
  simp

theorem Stands.peek? (h : p.Stands front i) (v : View) : p.peek? v = some (i.peek v) := by
  simp only [Pointer.peek?, h.current_eq, resolve?_eq h.tokens_eq v, Option.bind_eq_bind,
    Option.bind_some]
  exact getElem?_resolved h.tokens_eq v

theorem Stands.peekNext? (h : p.Stands front i) (v : View) :
    p.peekNext? v = some (i.peekNext v) := by
  simp only [Pointer.peekNext?, h.current_eq, resolve?_eq h.tokens_eq v, Option.bind_eq_bind,
    Option.bind_some, getElem?_resolved h.tokens_eq v]
  unfold Input.peekNext
  cases hts : v.ahead i.rest with
  | nil => rw [List.headD_nil, if_pos i.final_eof]
  | cons t ts =>
    rw [List.headD_cons]
    dsimp only
    by_cases hend : t.kind = .eof
    · rw [if_pos hend, if_pos hend]
    · have hnext := tokens_passed h hts
      rw [if_neg hend, if_neg hend, ← List.length_singleton (a := t), ← List.length_append,
        resolve?_eq hnext v]
      exact getElem?_resolved hnext v

/-! ## One step -/

/-- Where a step in a view takes its token, and which tokens it leaves out. -/
structure Step (v : View) (p : Pointer) (t : Token) (index : Nat) (q : Pointer) : Prop where
  tokens_eq : q.tokens = p.tokens
  taken : q.taken? = some index
  token : p.tokens[index]? = some t
  le_index : p.current ≤ index
  before : ∀ m < index, p.current ≤ m → ∀ u, p.tokens[m]? = some u → u.hidden = true
  end_stays : t.kind = .eof → q.current = index
  passed : t.kind ≠ .eof → index < q.current
  behind : ∀ m < q.current, index < m → ∀ u, p.tokens[m]? = some u → u.hidden = true
  in_bounds : q.current < q.tokens.length
  hidden_next : v = .hidden → q.current ≤ index + 1

/-- An index of the middle part is that of a token there. -/
theorem mem_middle {before middle after : List Token} {m : Nat}
    (h : before.length ≤ m) (h' : m < (before ++ middle).length)
    (ht : (before ++ (middle ++ after))[m]? = some t) : t ∈ middle := by
  rw [List.length_append] at h'
  rw [List.getElem?_append_right h,
    List.getElem?_append_left (Nat.sub_lt_left_of_lt_add h h')] at ht
  exact List.mem_of_getElem? ht

theorem settle?_eq (h : p.tokens = front ++ (rest ++ [final])) (v : View) :
    p.settle? front.length v = some (front ++ v.stepsOver rest).length := by
  cases v with
  | visible => exact resolve?_eq h .visible
  | hidden => rw [settle?, View.stepsOver, List.append_nil]

/-- The shown token is an end mark: the cursor stays in front of it. -/
theorem Stands.advance?_end (h : p.Stands front i) (hend : (i.peek v).kind = .eof) :
    p.advance? v = some (i.peek v,
      p.moved (front ++ v.stepsOver i.rest).length (front ++ v.stepsOver i.rest).length) := by
  have hsettle := settle?_eq (tokens_resolved h.tokens_eq v) v
  rw [v.stepsOver_ahead, List.append_nil] at hsettle
  have hhere : p.tokens[_]? = some (i.peek v) := getElem?_resolved h.tokens_eq v
  simp only [Pointer.advance?, h.current_eq, resolve?_eq h.tokens_eq v, Option.bind_eq_bind,
    Option.bind_some, hhere, if_pos hend, hsettle]

theorem Stands.advance?_live {ts : List Token} (h : p.Stands front i)
    (hts : v.ahead i.rest = t :: ts) (hlive : t.kind ≠ .eof) :
    p.advance? v = some (t, p.moved (front ++ v.stepsOver i.rest).length
      (front ++ v.stepsOver i.rest ++ [t] ++ v.stepsOver ts).length) := by
  have hlength : (front ++ v.stepsOver i.rest ++ [t]).length =
      (front ++ v.stepsOver i.rest).length + 1 := by
    rw [List.length_append, List.length_singleton]
  have hsettle := settle?_eq (tokens_passed h hts) v
  rw [hlength] at hsettle
  have hhere := getElem?_resolved h.tokens_eq v
  rw [hts, List.headD_cons] at hhere
  simp only [Pointer.advance?, h.current_eq, resolve?_eq h.tokens_eq v, Option.bind_eq_bind,
    Option.bind_some, hhere, if_neg hlive, hsettle]

namespace Step

variable {index : Nat}

/-- The slice has a hidden token just if it has any token. -/
theorem skipped_iff (h : Step v p t index q) :
    q.skipped = true ↔
      ∃ m, index < m ∧ m < q.current ∧ ∃ u, p.tokens[m]? = some u ∧ u.hidden = true := by
  have hbound := h.in_bounds
  simp only [skipped, h.taken, h.tokens_eq, decide_eq_true_eq, List.any_eq_true] at hbound ⊢
  constructor
  · rintro ⟨hle, -, u, hu, hidden⟩
    obtain ⟨k, hk⟩ := List.mem_iff_getElem?.1 hu
    rw [List.getElem?_drop, List.getElem?_take] at hk
    split at hk
    · exact ⟨index + 1 + k, by omega, ‹_›, u, hk, hidden⟩
    · cases hk
  · rintro ⟨m, hm, hm', u, hu, hidden⟩
    refine ⟨by omega, by omega, u, List.mem_iff_getElem?.2 ⟨m - (index + 1), ?_⟩, hidden⟩
    rw [List.getElem?_drop, List.getElem?_take, if_pos (by omega), ← hu]
    congr 1
    omega

theorem skipped_iff_lt (h : Step v p t index q) : q.skipped = true ↔ index + 1 < q.current := by
  rw [h.skipped_iff]
  have hbound := h.in_bounds
  rw [h.tokens_eq] at hbound
  constructor
  · rintro ⟨m, hm, hm', -⟩
    omega
  · intro hlt
    have hu := List.getElem?_eq_getElem (hlt.trans hbound)
    exact ⟨index + 1, by omega, hlt, _, hu, h.behind _ hlt (by omega) _ hu⟩

end Step

theorem Stands.le_resolved (h : p.Stands front i) :
    p.current ≤ (front ++ v.stepsOver i.rest).length := by
  rw [h.current_eq, List.length_append]
  exact Nat.le_add_right _ _

theorem Stands.before (h : p.Stands front i) :
    ∀ m < (front ++ v.stepsOver i.rest).length, p.current ≤ m →
      ∀ u, p.tokens[m]? = some u → u.hidden = true := by
  intro m hm hle u hu
  rw [tokens_resolved h.tokens_eq v, List.append_assoc] at hu
  exact View.hidden_of_mem_stepsOver (mem_middle (h.current_eq ▸ hle) hm hu)

theorem Stands.step_end (h : p.Stands front i) (hend : (i.peek v).kind = .eof) :
    Step v p (i.peek v) (front ++ v.stepsOver i.rest).length
      (p.moved (front ++ v.stepsOver i.rest).length (front ++ v.stepsOver i.rest).length) where
  tokens_eq := rfl
  taken := rfl
  token := getElem?_resolved h.tokens_eq v
  le_index := h.le_resolved
  before := h.before
  end_stays _ := rfl
  passed hlive := absurd hend hlive
  behind _ hm hm' := absurd hm (Nat.lt_asymm hm')
  in_bounds := (List.getElem?_eq_some_iff.1 (getElem?_resolved h.tokens_eq v)).1
  hidden_next _ := Nat.le_succ _

theorem Stands.step_live {ts : List Token} (h : p.Stands front i)
    (hts : v.ahead i.rest = t :: ts) (hlive : t.kind ≠ .eof) :
    Step v p t (front ++ v.stepsOver i.rest).length
      (p.moved (front ++ v.stepsOver i.rest).length
        (front ++ v.stepsOver i.rest ++ [t] ++ v.stepsOver ts).length) where
  tokens_eq := rfl
  taken := rfl
  token := by
    rw [getElem?_resolved h.tokens_eq v, hts, List.headD_cons]
  le_index := h.le_resolved
  before := h.before
  end_stays hend := absurd hend hlive
  passed _ := by
    simp only [current_moved, List.length_append, List.length_singleton]
    omega
  behind m hm hm' u hu := by
    rw [tokens_resolved (tokens_passed h hts) v, List.append_assoc] at hu
    refine View.hidden_of_mem_stepsOver (mem_middle ?_ hm hu)
    rw [List.length_append, List.length_singleton]
    exact hm'
  in_bounds := (List.getElem?_eq_some_iff.1 (getElem?_resolved (tokens_passed h hts) v)).1
  hidden_next hv := by
    rw [hv, View.stepsOver, View.stepsOver, List.append_nil, List.append_nil, List.length_append]
    exact Nat.le_refl _

/-- **One call of `advance`.** All its accesses are in bounds, and the cursor with the input
does the same. -/
theorem Stands.step (h : p.Stands front i) (v : View) :
    ∃ q index front', p.advance? v = some (i.peek v, q) ∧ Step v p (i.peek v) index q ∧
      q.Stands front' (i.advance v).2 ∧ q.skipped = (i.advance v).2.skipped := by
  by_cases hend : (i.peek v).kind = .eof
  · refine ⟨_, _, front ++ v.stepsOver i.rest, h.advance?_end hend, h.step_end hend, ?_, ?_⟩
    · rw [Input.advance_end hend]
      exact ⟨tokens_resolved h.tokens_eq v, rfl⟩
    · rw [Input.advance_end hend, ← Bool.not_eq_true, (h.step_end hend).skipped_iff_lt]
      exact Nat.not_lt.2 (Nat.le_succ _)
  · obtain ⟨-, ts, hts, hnext⟩ := Input.takes_iff.1 (Input.takes_peek hend)
    rw [hnext]
    refine ⟨_, _, front ++ v.stepsOver i.rest ++ [i.peek v] ++ v.stepsOver ts,
      h.advance?_live hts hend, h.step_live hts hend, ?_, ?_⟩
    · exact ⟨tokens_resolved (tokens_passed h hts) v, rfl⟩
    · rw [Bool.eq_iff_iff, (h.step_live hts hend).skipped_iff_lt, View.skips_iff,
        ← List.length_pos_iff]
      simp only [current_moved, List.length_append, List.length_singleton]
      omega

end Pointer

end LazyDecl
