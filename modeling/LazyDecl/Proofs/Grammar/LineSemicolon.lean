import LazyDecl.Proofs.Grammar.Progress

/-!
Semicolons at the ends of lines. Where a line end follows a semicolon, it mostly makes no
difference to a program whether the semicolon is there, because the line end separates units as
well.

* `Drops watched ts' ts`: `ts` is `ts'` without some semicolons that end lines. They, and the
  tokens that can be seen behind them, are `watched`;
* `Input.Near`: inputs of such tokens between two units. One may have stepped over the line end
  already, in front of which the other one still has the semicolon to come;
* `Input.Sees`: what they show, which is the same token, but for a semicolon that is missing.
-/

namespace LazyDecl

/-! ## Tokens without semicolons -/

/-- Tokens that do not open with a semicolon. -/
def Parted (ts : List Token) : Prop := ∀ t ∈ ts.head?, t.kind ≠ .semicolon

/-- The semicolon `m` ends a line in front of the tokens `ts`, with which no expression goes on.
It is watched, and so is the next token that can be seen. -/
structure EndsLine (watched : Token → Prop) (m e : Token) (ts : List Token) : Prop where
  semicolon : m.kind = .semicolon
  shown : m.hidden = false
  eol : e.kind = .eol
  hidden : e.hidden = true
  mark : watched m
  next : ∀ t ∈ ts.find? (!·.hidden), watched t ∧ t.kind.Fresh
  parted : Parted ts

/-- The second tokens are the first ones without some semicolons that end lines. -/
inductive Drops (watched : Token → Prop) : List Token → List Token → Prop where
  | nil : Drops watched [] []
  | keep {t : Token} {ts' ts : List Token} : t.kind ≠ .eof → (t.hidden = true ↔ t.kind = .eol) →
      (t.hidden = true → Parted ts') → Drops watched ts' ts → Drops watched (t :: ts') (t :: ts)
  | drop {m e : Token} {ts' ts : List Token} : EndsLine watched m e ts' → Drops watched ts' ts →
      Drops watched (m :: e :: ts') (e :: ts)

/-- The same token stands in front of both, or none does. -/
inductive Abreast (watched : Token → Prop) : List Token → List Token → Prop where
  | ended : Abreast watched [] []
  | same {t : Token} {ts' ts : List Token} : t.hidden = false → t.kind ≠ .eof →
      t.kind ≠ .eol → Drops watched ts' ts → Abreast watched (t :: ts') (t :: ts)

namespace Drops

variable {watched : Token → Prop} {ts' ts : List Token}

theorem plain_left (h : Drops watched ts' ts) : Plain ts' := by
  induction h with
  | nil => exact nofun
  | keep live hidden _ _ ih => exact List.forall_mem_cons.2 ⟨⟨live, hidden⟩, ih⟩
  | drop hm _ ih =>
    refine List.forall_mem_cons.2 ⟨?_, List.forall_mem_cons.2 ⟨?_, ih⟩⟩
    · simp [hm.semicolon, hm.shown]
    · simp [hm.eol, hm.hidden]

theorem plain_right (h : Drops watched ts' ts) : Plain ts := by
  induction h with
  | nil => exact nofun
  | keep live hidden _ _ ih => exact List.forall_mem_cons.2 ⟨⟨live, hidden⟩, ih⟩
  | drop hm _ ih => exact List.forall_mem_cons.2 ⟨by simp [hm.eol, hm.hidden], ih⟩

/-- Either a semicolon that is missing comes next, or the same token is in front once hidden
tokens are stepped over. -/
theorem next_cases (h : Drops watched ts' ts) :
    (∃ m e us' us, EndsLine watched m e us' ∧ Drops watched us' us ∧ ts' = m :: e :: us' ∧
      ts = e :: us) ∨
      Abreast watched (View.visible.ahead ts') (View.visible.ahead ts) := by
  induction h with
  | nil => exact .inr .ended
  | @keep t ts' ts live hidden parted h ih =>
    right
    cases hh : t.hidden with
    | true =>
      rw [View.ahead_visible, View.ahead_visible, List.dropWhile_cons_of_pos hh,
        List.dropWhile_cons_of_pos hh]
      refine ih.resolve_left ?_
      rintro ⟨m, e, us', us, hm, -, rfl, -⟩
      exact parted hh m rfl hm.semicolon
    | false =>
      have hneg : ¬t.hidden = true := by simp [hh]
      rw [View.ahead_visible, View.ahead_visible, List.dropWhile_cons_of_neg hneg,
        List.dropWhile_cons_of_neg hneg]
      exact .same hh live (fun hk => hneg (hidden.2 hk)) h
  | drop hm h => exact .inl ⟨_, _, _, _, hm, h, rfl, rfl⟩

theorem abreast (h : Drops watched ts' ts) (hp : Parted ts') :
    Abreast watched (View.visible.ahead ts') (View.visible.ahead ts) := by
  refine h.next_cases.resolve_left ?_
  rintro ⟨m, e, us', us, hm, -, rfl, -⟩
  exact hp m rfl hm.semicolon

/-- One more semicolon is missing at the end of a line. -/
theorem drop_front {m e : Token} (hm : EndsLine watched m e ts')
    (h : Drops watched (e :: ts') ts) : Drops watched (m :: e :: ts') ts := by
  cases h with
  | keep _ _ _ h => exact .drop hm h
  | drop he _ => exact absurd (hm.eol.symm.trans he.semicolon) nofun

theorem of_abreast (h : Abreast watched ts' ts) : Drops watched ts' ts := by
  cases h with
  | ended => exact .nil
  | same hh live hk h => exact .keep live (by simp [hh, hk]) (by simp [hh]) h

end Drops

theorem Abreast.head?_eq {watched : Token → Prop} {ts' ts : List Token}
    (h : Abreast watched ts' ts) : ts'.head? = ts.head? := by
  cases h <;> rfl

namespace EndsLine

variable {watched : Token → Prop} {m e : Token} {ts' ts : List Token}

/-- Behind the line end both go on with the same token. -/
theorem abreast (hm : EndsLine watched m e ts') (h : Drops watched ts' ts) :
    Abreast watched (View.visible.ahead ts') (View.visible.ahead ts) :=
  h.abreast hm.parted

theorem next_watched (hm : EndsLine watched m e ts') :
    ∀ t ∈ (View.visible.ahead ts').head?, watched t ∧ t.kind.Fresh := by
  intro t ht
  refine hm.next t ?_
  rwa [List.find?_not_eq_head?_dropWhile]

/-- An expression does not go on behind the line end. -/
theorem next_fresh (hm : EndsLine watched m e ts') (h : Drops watched ts' ts) {i : Input}
    (hr : View.visible.ahead i.rest = View.visible.ahead ts) :
    (i.peek .visible).kind.Fresh := by
  rw [Input.peek, hr]
  cases hts : View.visible.ahead ts with
  | nil => exact TokenKind.fresh_of_name (.inr i.final_eof)
  | cons t us =>
    refine (hm.next_watched t ?_).2
    rw [(hm.abreast h).head?_eq, hts]
    rfl

end EndsLine

/-! ## Inputs -/

namespace Input

variable (watched : Token → Prop)

/-- The two inputs are at the same place, or the first one is at a semicolon that the second one
lacks, behind a token that both have taken. -/
inductive Tight : Input → Input → Prop where
  | level {i' i : Input} : i'.final = i.final → i'.skipped = i.skipped →
      Drops watched i'.rest i.rest → Tight i' i
  | mark {i' i : Input} {m e : Token} {ts' ts : List Token} : i'.final = i.final →
      EndsLine watched m e ts' → Drops watched ts' ts → i'.rest = m :: e :: ts' →
      i'.skipped = false → i.rest = View.visible.ahead ts → i.skipped = true → Tight i' i

/-- Nothing can be seen any more. -/
structure Ended (i' i : Input) : Prop where
  final_eq : i'.final = i.final
  left : View.visible.ahead i'.rest = []
  right : View.visible.ahead i.rest = []

theorem Ended.peek_left {i' i : Input} (h : Ended i' i) : i'.peek .visible = i'.final := by
  rw [peek, h.left]
  rfl

theorem Ended.peek_eq {i' i : Input} (h : Ended i' i) : i.peek .visible = i'.peek .visible := by
  rw [h.peek_left, h.final_eq, peek, h.right]
  rfl

/-- The two inputs are at the same place but for hidden tokens, and what can be seen next is
watched. -/
structure Loose (i' i : Input) : Prop where
  final_eq : i'.final = i.final
  abreast : Abreast watched (View.visible.ahead i'.rest) (View.visible.ahead i.rest)
  next : ∀ t ∈ (View.visible.ahead i'.rest).head?, watched t

/-- The inputs between two units, or between two parts of one. -/
def Near (i' i : Input) : Prop := Tight watched i' i ∨ Loose watched i' i

/-- What both inputs show: no token, the same one, or in the first one a semicolon, with which
nothing goes on in the second one either. -/
inductive Sees (i' i : Input) : Prop where
  | ended : Ended i' i → Sees i' i
  | same {t : Token} {j' j : Input} : i'.Takes .visible t j' → i.Takes .visible t j →
      Tight watched j' j → Sees i' i
  | blocked : (i'.peek .visible).kind = .semicolon → watched (i'.peek .visible) →
      (i.peek .visible).kind.Fresh → Sees i' i

variable {watched} {i' i : Input}

/-- Both inputs behind a token that they share. -/
theorem tight_behind {ts' ts : List Token} (hf : i'.final = i.final) (h : Drops watched ts' ts) :
    Tight watched
      { i' with rest := View.visible.ahead ts', skipped := View.visible.skips ts' }
      { i with rest := View.visible.ahead ts, skipped := View.visible.skips ts } := by
  cases h with
  | nil => exact .level hf rfl .nil
  | @keep t ts' ts live hidden parted h =>
    refine .level hf rfl ?_
    cases hh : t.hidden with
    | true =>
      simp only [View.ahead_visible, List.dropWhile_cons_of_pos hh]
      exact .of_abreast (h.abreast (parted hh))
    | false =>
      have hneg : ¬t.hidden = true := by simp [hh]
      simp only [View.ahead_visible, List.dropWhile_cons_of_neg hneg]
      exact .keep live hidden parted h
  | @drop m e ts' ts hm h =>
    have hneg : ¬m.hidden = true := by simp [hm.shown]
    refine .mark hf hm h ?_ ?_ ?_ ?_
    · exact List.dropWhile_cons_of_neg hneg
    · simp [hm.shown]
    · exact List.dropWhile_cons_of_pos hm.hidden
    · simp [hm.hidden]

theorem sees_of_abreast (hf : i'.final = i.final)
    (h : Abreast watched (View.visible.ahead i'.rest) (View.visible.ahead i.rest)) :
    Sees watched i' i := by
  generalize hts' : View.visible.ahead i'.rest = ts' at h
  generalize hts : View.visible.ahead i.rest = ts at h
  cases h with
  | ended => exact .ended ⟨hf, hts', hts⟩
  | same hh live hk h =>
    exact .same (takes_iff.2 ⟨live, _, hts', rfl⟩) (takes_iff.2 ⟨live, _, hts, rfl⟩)
      (tight_behind hf h)

theorem Loose.sees (h : Loose watched i' i) : Sees watched i' i :=
  sees_of_abreast h.final_eq h.abreast

/-- In front of a semicolon that ends a line the second input does not show the semicolon. -/
theorem sees_of_endsLine {m e : Token} {ts' ts : List Token} (hm : EndsLine watched m e ts')
    (h : Drops watched ts' ts) (hr' : i'.rest = m :: e :: ts')
    (hr : View.visible.ahead i.rest = View.visible.ahead ts) : Sees watched i' i := by
  have hneg : ¬m.hidden = true := by simp [hm.shown]
  have hpeek : i'.peek .visible = m := by
    simp [peek, hr', List.dropWhile_cons_of_neg hneg]
  exact .blocked (hpeek ▸ hm.semicolon) (hpeek ▸ hm.mark) (hm.next_fresh h hr)

theorem Tight.sees (h : Tight watched i' i) : Sees watched i' i := by
  cases h with
  | level hf hs h =>
    rcases h.next_cases with ⟨m, e, us', us, hm, h, hr', hr⟩ | h
    · refine sees_of_endsLine hm h hr' ?_
      rw [hr]
      exact List.dropWhile_cons_of_pos hm.hidden
    · exact sees_of_abreast hf h
  | mark hf hm h hr' hs' hr hs =>
    refine sees_of_endsLine hm h hr' ?_
    rw [hr]
    exact List.dropWhile_idempotent _ _

/-- Both inputs show the same token, or the first one a semicolon that is watched. -/
theorem Sees.peek_cases (h : Sees watched i' i) :
    i'.peek .visible = i.peek .visible ∨
      ((i'.peek .visible).kind = .semicolon ∧ watched (i'.peek .visible)) := by
  cases h with
  | ended h => exact .inl h.peek_eq.symm
  | same ht' ht _ => exact .inl (ht'.peek_eq.trans ht.peek_eq.symm)
  | blocked hsemi hw _ => exact .inr ⟨hsemi, hw⟩

theorem Near.final_eq (h : Near watched i' i) : i'.final = i.final := by
  rcases h with (⟨hf, -, -⟩ | ⟨hf, -, -, -, -, -, -⟩) | ⟨hf, -, -⟩
  · exact hf
  · exact hf
  · exact hf

theorem Near.sees (h : Near watched i' i) : Sees watched i' i :=
  h.elim Tight.sees Loose.sees

end Input

end LazyDecl
