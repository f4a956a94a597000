import LazyDecl.Cursor
import LazyDecl.Proofs.Grammar.Chunks
import LazyDecl.Proofs.Pointer

/-!
The cursor in any mix of views. It answers as the one that is an index in the list
(`Pointer.Tracks.advance`), so positions can be read off. By induction over the calls of `advance`
the order of all tokens that are taken follows from the steps (`Pointer.Trail`).
-/

namespace LazyDecl

namespace Pointer

variable {p : Pointer}

/-! ## The cursor beside it -/

/-- Whatever is asked, both answer the same, and the visible view shows no hidden token. -/
structure Answers (p : Pointer) (c : Cursor) : Prop where
  position : p.current = c.position
  previous : p.previous? = some c.previous
  skipped : p.skipped = c.skipped
  peek : ∀ v, p.peek? v = some (c.peek v)
  peekNext : ∀ v, p.peekNext? v = some (c.peekNext v)
  shown : (c.peek .visible).hidden = false
  shownNext : (c.peekNext .visible).hidden = false

/-- What two cursors need for the same answers now and after each call. -/
structure Tracks (p : Pointer) (c : Cursor) : Prop where
  stands : ∃ front, p.Stands front c.toInput
  position : p.current = c.position
  previous : p.previous? = some c.previous
  skipped : p.skipped = c.skipped

variable {c : Cursor} {ts : List Token}

theorem closed_eq (ts : List Token) : closed ts = (Input.ofTokens ts).all := by
  rcases List.eq_nil_or_concat ts with rfl | ⟨ts, t, rfl⟩
  · rfl
  · rw [List.concat_eq_append]
    by_cases h : t.kind = .eof
    · rw [Input.ofTokens_concat ts h, closed, List.getLast?_concat]
      exact if_pos h
    · rw [Input.ofTokens_concat_live ts h, closed, List.getLast?_concat]
      exact if_neg h

theorem tracks_ofTokens (ts : List Token) : Tracks (ofTokens ts) (Cursor.ofTokens ts) := by
  have hstands : (ofTokens ts).Stands [] (Cursor.ofTokens ts).toInput := ⟨closed_eq ts, rfl⟩
  exact
    { stands := ⟨[], hstands⟩
      position := rfl
      previous := hstands.peek? .hidden
      skipped := (Input.skipped_ofTokens ts).symm }

theorem Tracks.answers (h : Tracks p c) (hp : EndsShown p.tokens) : Answers p c := by
  obtain ⟨front, hstands⟩ := h.stands
  have hfinal : c.final.hidden = false :=
    hp c.final (hstands.tokens_eq ▸ by simp [Input.all]) c.final_eof
  exact
    { position := h.position
      previous := h.previous
      skipped := h.skipped
      peek := hstands.peek?
      peekNext := hstands.peekNext?
      shown := Input.hidden_peek hfinal
      shownNext := Input.hidden_peekNext hfinal }

/-- **Each call of `advance` keeps them together.** -/
theorem Tracks.advance (h : Tracks p c) (v : View) :
    ∃ q index, p.advance? v = some ((c.advance v).1, q) ∧ Step v p (c.advance v).1 index q ∧
      Tracks q (c.advance v).2 := by
  obtain ⟨front, hstands⟩ := h.stands
  obtain ⟨q, index, front', hadvance, hstep, hstands', hskipped⟩ := hstands.step v
  rw [← Input.advance_fst] at hadvance hstep
  refine ⟨q, index, hadvance, hstep, ⟨front', hstands'⟩, ?_, ?_, hskipped⟩
  · have hlength := congrArg List.length (hstep.tokens_eq.symm.trans hstands'.tokens_eq)
    have hposition := h.position
    rw [hstands.tokens_eq] at hlength
    rw [hstands.current_eq] at hposition
    have hle := Input.size_advance_le v c.toInput
    rw [hstands'.current_eq]
    simp only [Cursor.advance, Input.size, Input.all, List.length_append,
      List.length_singleton] at hlength hle ⊢
    omega
  · rw [previous?, hstep.taken, hstep.tokens_eq]
    exact hstep.token

end Pointer

/-! ## Calls one after the other -/

/-- A call of `advance` with what it returns. -/
structure Call (S : Type) where
  view : View
  before : S
  token : Token
  after : S

/-- Calls `advance` in these views. -/
def Cursor.calls (c : Cursor) : List View → List (Call Cursor)
  | [] => []
  | v :: views =>
    let (t, next) := c.advance v
    ⟨v, c, t, next⟩ :: next.calls views

namespace Pointer

/-- Calls `advance` in these views; none if an access is out of bounds. -/
def calls? (p : Pointer) : List View → Option (List (Call Pointer))
  | [] => some []
  | v :: views => do
    let (t, next) ← p.advance? v
    let calls ← next.calls? views
    some (⟨v, p, t, next⟩ :: calls)

end Pointer

namespace Call

/-- Where the token stands that was taken. -/
def index (call : Call Pointer) : Nat := call.after.taken?.getD 0

/-- The same call on the one and on the other cursor. -/
structure Answers (call : Call Pointer) (call' : Call Cursor) : Prop where
  view : call.view = call'.view
  token : call.token = call'.token
  before : call.before.Answers call'.before
  after : call.after.Answers call'.after

/-- What a call in a list of tokens comes to, whatever came before it. -/
structure Sound (tokens : List Token) (call : Call Pointer) : Prop where
  taken : call.after.taken? = some call.index
  token : tokens[call.index]? = some call.token
  peeked : call.before.peek? call.view = some call.token
  shown : call.view = .visible → call.token.hidden = false
  skipped : call.after.skipped = true ↔
    ∃ m, call.index < m ∧ m < call.after.current ∧ ∃ t, tokens[m]? = some t ∧ t.hidden = true
  all_taken : call.view = .hidden → call.after.skipped = false

/-- A call returns a token further on than an earlier one, unless that has come to an end mark:
then it returns the same mark. -/
def Follows (call next : Call Pointer) : Prop :=
  if call.token.kind = .eof then next.index = call.index ∧ next.token = call.token
  else call.index < next.index

end Call

namespace Pointer

/-- Steps one after the other. -/
inductive Trail : Pointer → List (Call Pointer) → Prop
  | nil (p : Pointer) : Trail p []
  | cons {v : View} {p q : Pointer} {t : Token} {index : Nat} {calls : List (Call Pointer)} :
      Step v p t index q → Trail q calls → Trail p (⟨v, p, t, q⟩ :: calls)

namespace Step

variable {v : View} {p q : Pointer} {t : Token} {index : Nat} {calls : List (Call Pointer)}

theorem index_eq (h : Step v p t index q) : Call.index ⟨v, p, t, q⟩ = index := by
  rw [Call.index, h.taken, Option.getD_some]

theorem index_le (h : Step v p t index q) : index ≤ q.current := by
  by_cases hend : t.kind = .eof
  · exact (h.end_stays hend).ge
  · exact (h.passed hend).le

/-- In front of an end mark that is not hidden there is nothing to step over. -/
theorem at_end {e : Token} (h : Step v p t index q) (he : p.tokens[p.current]? = some e)
    (hshown : e.hidden = false) : index = p.current ∧ t = e := by
  have hindex : index = p.current := by
    by_contra hne
    have hlt : p.current < index := lt_of_le_of_ne h.le_index (Ne.symm hne)
    rw [h.before p.current hlt (Nat.le_refl _) e he] at hshown
    cases hshown
  have ht := h.token
  rw [hindex, he] at ht
  exact ⟨hindex, (Option.some.inj ht).symm⟩

theorem sound (h : Step v p t index q) (hpeek : p.peek? v = some t)
    (hshown : v = .visible → t.hidden = false) : Call.Sound p.tokens ⟨v, p, t, q⟩ where
  taken := h.index_eq ▸ h.taken
  token := h.index_eq ▸ h.token
  peeked := hpeek
  shown := hshown
  skipped := h.index_eq ▸ h.skipped_iff
  all_taken hv := by
    rw [← Bool.not_eq_true, h.skipped_iff_lt]
    exact Nat.not_lt.2 (h.hidden_next hv)

end Step

namespace Trail

variable {p : Pointer} {calls : List (Call Pointer)}

theorem le_index (h : Trail p calls) : ∀ call ∈ calls, p.current ≤ call.index := by
  induction h with
  | nil => simp
  | cons hstep htrail ih =>
    refine List.forall_mem_cons.2 ⟨?_, fun call hcall => ?_⟩
    · rw [hstep.index_eq]
      exact hstep.le_index
    · exact (hstep.le_index.trans hstep.index_le).trans (ih call hcall)

/-- From an end mark on, only this mark is taken. -/
theorem at_end {e : Token} (h : Trail p calls) (hkind : e.kind = .eof) (hshown : e.hidden = false)
    (he : p.tokens[p.current]? = some e) :
    ∀ call ∈ calls, call.index = p.current ∧ call.token = e := by
  induction h with
  | nil => simp
  | @cons v p q t index calls hstep htrail ih =>
    obtain ⟨rfl, rfl⟩ := hstep.at_end he hshown
    have hstay := hstep.end_stays hkind
    refine List.forall_mem_cons.2 ⟨⟨hstep.index_eq, rfl⟩, ?_⟩
    rw [← hstay]
    exact ih (by rw [hstep.tokens_eq, hstay, he])

/-- **Tokens are taken in the order of the list.** -/
theorem pairwise_follows (h : Trail p calls) (hp : EndsShown p.tokens) :
    calls.Pairwise Call.Follows := by
  induction h with
  | nil => exact .nil
  | @cons v p q t index calls hstep htrail ih =>
    refine List.pairwise_cons.2 ⟨fun next hnext => ?_, ih (hstep.tokens_eq ▸ hp)⟩
    unfold Call.Follows
    rw [hstep.index_eq]
    split
    · rename_i hend
      have hstay := hstep.end_stays hend
      have ht : q.tokens[q.current]? = some t := by
        rw [hstep.tokens_eq, hstay, hstep.token]
      have hshown := hp t (List.mem_of_getElem? hstep.token) hend
      exact hstay ▸ htrail.at_end hend hshown ht next hnext
    · rename_i hlive
      exact (hstep.passed hlive).trans_le (htrail.le_index next hnext)

/-- **A token that is left out is hidden.** -/
theorem hidden_or_taken (h : Trail p calls) {call : Call Pointer} (hcall : call ∈ calls) {m : Nat}
    (hm : m < call.index) (hle : p.current ≤ m) {u : Token} (hu : p.tokens[m]? = some u) :
    u.hidden = true ∨ ∃ earlier ∈ calls, earlier.index = m := by
  induction h with
  | nil => cases hcall
  | @cons v p q t index calls hstep htrail ih =>
    rcases Nat.lt_trichotomy m index with hlt | rfl | hgt
    · exact .inl (hstep.before m hlt hle u hu)
    · exact .inr ⟨_, List.mem_cons_self, hstep.index_eq⟩
    rcases Nat.lt_or_ge m q.current with hlt | hge
    · exact .inl (hstep.behind m hlt hgt u hu)
    -- The token is behind the first call, and so is the call in question.
    rcases List.mem_cons.1 hcall with rfl | hcall
    · rw [hstep.index_eq] at hm
      exact absurd hm (Nat.lt_asymm hgt)
    · rcases ih hcall hge (hstep.tokens_eq ▸ hu) with hidden | ⟨earlier, hmem, heq⟩
      · exact .inl hidden
      · exact .inr ⟨earlier, List.mem_cons_of_mem _ hmem, heq⟩

end Trail

variable {p : Pointer} {c : Cursor}

/-- **A run of both cursors.** All accesses of the first are in bounds. -/
theorem Tracks.calls? (h : Tracks p c) (hp : EndsShown p.tokens) (views : List View) :
    ∃ calls, p.calls? views = some calls ∧ Trail p calls ∧
      List.Forall₂ Call.Answers calls (c.calls views) ∧ ∀ call ∈ calls, call.Sound p.tokens := by
  induction views generalizing p c with
  | nil => exact ⟨[], rfl, .nil p, .nil, by simp⟩
  | cons v views ih =>
    obtain ⟨q, index, hadvance, hstep, hnext⟩ := h.advance v
    have hq : EndsShown q.tokens := hstep.tokens_eq ▸ hp
    obtain ⟨calls, hcalls, htrail, hanswers, hsound⟩ := ih hnext hq
    have hanswer := h.answers hp
    have hcall : Call.Sound p.tokens ⟨v, p, (c.advance v).1, q⟩ := by
      have htoken : (c.advance v).1 = c.peek v := Input.advance_fst v c.toInput
      refine hstep.sound (htoken ▸ hanswer.peek v) fun hv => ?_
      rw [htoken, hv]
      exact hanswer.shown
    refine ⟨_, ?_, .cons hstep htrail, .cons ⟨rfl, rfl, hanswer, hnext.answers hq⟩ hanswers,
      List.forall_mem_cons.2 ⟨hcall, hstep.tokens_eq ▸ hsound⟩⟩
    simp only [Pointer.calls?, hadvance, hcalls, Option.bind_eq_bind, Option.bind_some]

theorem endsShown_closed {ts : List Token} (h : EndsShown ts) : EndsShown (closed ts) := by
  intro t ht hend
  unfold closed at ht
  split at ht
  · rw [List.mem_singleton.1 ht]
    rfl
  · split at ht
    · exact h t ht hend
    · rcases List.mem_append.1 ht with ht | ht
      · exact h t ht hend
      · rw [List.mem_singleton.1 ht]
        rfl

end Pointer

/-! ## Hidden calls alone -/

theorem Input.peek_hidden {i : Input} {t : Token} {ts : List Token} (h : i.all = t :: ts) :
    i.peek .hidden = t := by
  unfold all at h
  rw [peek, View.ahead_hidden]
  cases hrest : i.rest with
  | nil =>
    rw [hrest] at h
    exact (List.cons.inj h).1
  | cons u us =>
    rw [hrest] at h
    exact (List.cons.inj h).1

/-- Somewhere an end mark stands. -/
theorem Input.exists_end (i : Input) : ∃ front e behind, i.all = front ++ e :: behind ∧
    (∀ t ∈ front, t.kind ≠ .eof) ∧ e.kind = .eof := by
  have hsome : (i.all.find? (·.kind = .eof)).isSome := by
    rw [List.find?_isSome]
    exact ⟨i.final, by simp [all], decide_eq_true i.final_eof⟩
  obtain ⟨e, he⟩ := Option.isSome_iff_exists.1 hsome
  obtain ⟨hend, front, behind, heq, hfront⟩ := List.find?_eq_some_iff_append.1 he
  exact ⟨front, e, behind, heq, fun t ht => by simpa using hfront t ht, of_decide_eq_true hend⟩

theorem Input.all_advance_end {i : Input} (h : (i.peek .hidden).kind = .eof) :
    (i.advance .hidden).2.all = i.all := by
  rw [advance_end h]
  rfl

theorem Input.all_advance_live {i : Input} {t : Token} {ts : List Token} (h : i.all = t :: ts)
    (hlive : t.kind ≠ .eof) : (i.advance .hidden).2.all = ts := by
  obtain ⟨-, us, hus, hnext⟩ := takes_iff.1 (takes_peek (peek_hidden h ▸ hlive))
  rw [View.ahead_hidden] at hus
  rw [all, hus] at h
  rw [hnext]
  exact (List.cons.inj h).2

/-- **The hidden view leaves nothing out.** -/
theorem Cursor.calls_hidden {c : Cursor} {front behind : List Token} {e : Token}
    (h : c.all = front ++ e :: behind) (hfront : ∀ t ∈ front, t.kind ≠ .eof)
    (he : e.kind = .eof) (n : Nat) :
    (c.calls (List.replicate n .hidden)).map (·.token) =
      front.take n ++ List.replicate (n - front.length) e := by
  induction n generalizing c front with
  | zero => simp [calls]
  | succ n ih =>
    have htoken : (c.advance .hidden).1 = c.peek .hidden := Input.advance_fst .hidden c.toInput
    rw [List.replicate_succ, calls, List.map_cons, htoken]
    cases front with
    | nil =>
      have hpeek : c.peek .hidden = e := Input.peek_hidden h
      have hnext : (c.advance .hidden).2.all = [] ++ e :: behind :=
        (Input.all_advance_end (hpeek ▸ he)).trans h
      rw [ih hnext hfront, hpeek]
      simp [List.replicate_succ]
    | cons t front =>
      obtain ⟨hlive, hfront⟩ := List.forall_mem_cons.1 hfront
      have hpeek : c.peek .hidden = t := Input.peek_hidden h
      have hnext : (c.advance .hidden).2.all = front ++ e :: behind :=
        Input.all_advance_live h hlive
      rw [ih hnext hfront, hpeek]
      simp

/-! ## Any mix of views -/

/-- **The cursor in any mix of views.** In a list without a hidden end mark, whether it has end
marks or not and wherever they stand, whatever the views in which `advance` is called:

* all accesses of the cursor that is an index are in bounds, and after each call it answers as
  the other one does, in the visible view never with a hidden token;
* a call returns the token that `peek` shows, in the visible view no hidden one, and hidden
  tokens have been skipped just if one stands between this token and the cursor (`Call.Sound`);
* the tokens are taken in the order of the list up to the first end mark that is returned, which
  is returned ever after (`Call.Follows`), and each token that is left out is hidden;
* in the hidden view alone all tokens up to the first end mark are returned. -/
theorem cursor_mixed_views {ts : List Token} (hts : EndsShown ts) :
    (∀ views, ∃ calls, (Pointer.ofTokens ts).calls? views = some calls ∧
      (Pointer.ofTokens ts).Answers (.ofTokens ts) ∧
      List.Forall₂ Call.Answers calls ((Cursor.ofTokens ts).calls views) ∧
      (∀ call ∈ calls, call.Sound (Pointer.closed ts)) ∧
      calls.Pairwise Call.Follows ∧
      ∀ call ∈ calls, ∀ m < call.index, ∀ t, (Pointer.closed ts)[m]? = some t →
        t.hidden = true ∨ ∃ earlier ∈ calls, earlier.index = m) ∧
    ∃ front e behind, Pointer.closed ts = front ++ e :: behind ∧
      (∀ t ∈ front, t.kind ≠ .eof) ∧ e.kind = .eof ∧
      ∀ n, ((Cursor.ofTokens ts).calls (List.replicate n .hidden)).map (·.token) =
        front.take n ++ List.replicate (n - front.length) e := by
  have htracks := Pointer.tracks_ofTokens ts
  have hends : EndsShown (Pointer.ofTokens ts).tokens := Pointer.endsShown_closed hts
  constructor
  · intro views
    obtain ⟨calls, hcalls, htrail, hanswers, hsound⟩ := htracks.calls? hends views
    exact ⟨calls, hcalls, htracks.answers hends, hanswers, hsound, htrail.pairwise_follows hends,
      fun _ hcall m hm _ ht => htrail.hidden_or_taken hcall hm (Nat.zero_le m) ht⟩
  · obtain ⟨front, e, behind, heq, hfront, he⟩ := (Input.ofTokens ts).exists_end
    exact ⟨front, e, behind, (Pointer.closed_eq ts).trans heq, hfront, he,
      Cursor.calls_hidden heq hfront he⟩

/-- A line end, a name, a line end, an end mark and a further name. -/
def endInside : List Token :=
  [{ kind := .eol, lexeme := "\n", start := .start, hidden := true },
    { kind := .identifier, lexeme := "a", start := .start },
    { kind := .eol, lexeme := "\n", start := .start, hidden := true },
    .eof .start,
    { kind := .identifier, lexeme := "b", start := .start }]

/-- The visible view takes the first name, the hidden one the end mark behind it. -/
theorem cursor_mixed_views_endInside :
    EndsShown endInside ∧
      ∃ calls, (Pointer.ofTokens endInside).calls? [.visible, .hidden, .visible] = some calls ∧
        calls.Pairwise Call.Follows ∧
        ((Cursor.ofTokens endInside).calls [.visible, .hidden, .visible]).map (·.token.kind) =
          [.identifier, .eof, .eof] := by
  have hends : EndsShown endInside := by simp [EndsShown, endInside, Token.eof]
  obtain ⟨calls, hcalls, -, -, -, hfollows, -⟩ :=
    (cursor_mixed_views hends).1 [.visible, .hidden, .visible]
  exact ⟨hends, calls, hcalls, hfollows, by decide⟩

end LazyDecl
