import LazyDecl.Proofs.Grammar.SideBySide

/-!
The units of a program without the semicolons that end its lines (`units_near`): they are the
same units and errors, if no error stands at such a semicolon or at the token behind it.

* `moved_parserAt`, `moved_statement`: what starts with a token it can open with fails only behind
  that token;
* `recover_near`: recovery from an error leaves inputs near each other again;
* `turn_near`: so does every turn.
-/

namespace LazyDecl.Grammar

open LazyDecl.Parser LazyDecl.Input

variable {watched : Token → Prop} {i' i k' k : Input} {mode : Mode} {t : Token}

/-! ## Where a unit fails -/

section Moved

variable {α β : Type} {p : Parser α}

theorem moved_bind {q : α → Parser β} (hp : Forward p) (hq : ∀ a, Forward (q a))
    (hi : EndsShown i.rest) (h : (left (p i)).size < i.size) :
    (left ((p >>= q) i)).size < i.size := by
  have hreach := hp i hi
  rw [bind_apply]
  cases hr : p i with
  | error e j =>
    rw [hr] at h
    exact h
  | ok a j =>
    rw [hr] at h hreach
    exact Nat.lt_of_le_of_lt (hq a j (hreach.endsShown hi)).suffix.length_le h

theorem moved_advance {q : Token → Parser β} (hq : ∀ t, Forward (q t)) (hi : EndsShown i.rest)
    (live : (i.peek .visible).kind ≠ .eof) :
    (left ((advance .visible >>= q) i)).size < i.size := by
  refine moved_bind (.advance .visible) hq hi ?_
  rw [advance_apply]
  exact (takes_peek live).size_lt

/-- What a token opens that neither is a literal nor stands in front of an operand. -/
theorem opens_cases (h : opensExpression t.kind = true) (hop : prefixOp? t.kind = none)
    (hl : literal? t = none) :
    t.kind = .identifier ∨ t.kind = .leftParen ∨ t.kind = .leftBracket := by
  cases hk : t.kind <;> simp_all [opensExpression, prefixOp?, literal?]

theorem moved_primaryOver {p : Parser Expr} (hp : Forward p) (hi : EndsShown i.rest)
    (h : opensExpression (i.peek .visible).kind = true)
    (hop : prefixOp? (i.peek .visible).kind = none) :
    (left (primaryOver p i)).size < i.size := by
  have live : (i.peek .visible).kind ≠ .eof := fun he => by simp [he, opensExpression] at h
  cases hl : literal? (i.peek .visible) with
  | some read =>
    rw [primaryOver_literal _ hl]
    refine moved_advance (fun _ => ?_) hi live
    cases read with
    | ok value => exact .pure _
    | error cause => exact .fail cause _
  | none =>
    rcases opens_cases h hop hl with hk | hk | hk
    · rw [primaryOver_identifier _ hk]
      exact moved_advance (fun _ => goesForward.nameOver hp _) hi live
    · rw [primaryOver_leftParen _ hk]
      refine moved_advance (fun _ => ?_) hi live
      exact .bind (goesForward.expressionOver hp) fun _ =>
        .bind (goesForward.expect _ rfl) fun _ => .pure _
    · rw [primaryOver_leftBracket _ hk]
      exact moved_advance (fun _ => goesForward.sequenceOver hp _) hi live

theorem parserAt_forward (ls : List Level) : Forward (parserAt ls) := by
  induction ls with
  | nil => exact goesForward.operand
  | cons l ls ih => exact goesForward.infixLevel ih l

/-- An expression that opens fails only behind its first token. -/
theorem moved_parserAt (ls : List Level) (hi : EndsShown i.rest)
    (h : opensExpression (i.peek .visible).kind = true) :
    (left (parserAt ls i)).size < i.size := by
  induction ls with
  | nil =>
    show (left (operand i)).size < i.size
    rw [operand_eq]
    unfold operandOver
    cases hop : prefixOp? (i.peek .visible).kind with
    | some op =>
      have live : (i.peek .visible).kind ≠ .eof := fun he => by simp [he, opensExpression] at h
      have htake := (take?_eq_some prefixOp?_eof).2 ⟨hop, takes_peek live⟩
      refine moved_bind (goesForward.take? .visible prefixOp?) (fun found? => ?_) hi ?_
      · cases found? with
        | some found => exact .bind goesForward.operand fun _ => .pure _
        | none => exact goesForward.bindingOver goesForward.operand
      · rw [htake]
        exact (takes_peek live).size_lt
    | none =>
      rw [bind_apply, take?_eq_none.2 ⟨hop, rfl⟩]
      refine moved_bind (goesForward.primaryOver goesForward.operand) (fun left => ?_) hi
        (moved_primaryOver goesForward.operand hi h hop)
      refine .bind (goesForward.accept _) fun colon? => ?_
      cases colon? with
      | some colon => exact .bind goesForward.expression fun _ => .pure _
      | none => exact .pure _
  | cons l ls ih =>
    refine moved_bind (parserAt_forward ls) (fun first => ?_) hi ih
    exact .bind (goesForward.many (goesForward.joinStep (parserAt_forward ls) l)) fun _ => .pure _

end Moved

/-! ## Recovery -/

/-- Behind the next boundary both inputs stand at the same token, or at the next one that can be
seen behind a semicolon that is missing. -/
theorem pastBoundary_near {ts' ts : List Token} (hf : i'.final = i.final)
    (h : Drops watched ts' ts) :
    Near watched { i' with rest := pastBoundary ts', skipped := false }
      { i with rest := pastBoundary ts, skipped := false } := by
  induction h with
  | nil => exact .inl (.level hf rfl .nil)
  | @keep t ts' ts live hidden parted h ih =>
    unfold pastBoundary
    rw [if_neg live, if_neg live]
    split
    · exact .inl (.level hf rfl h)
    · exact ih
  | @drop m e ts' ts hm h ih =>
    unfold pastBoundary
    simp only [hm.semicolon, hm.eol, decide_true, Bool.or_true, Bool.true_or, if_true]
    exact .inr (loose_behind hm h hf (List.dropWhile_cons_of_pos hm.hidden) rfl)

/-- Recovery from an error at `k`, behind the first token of a unit. -/
theorem recover_moved {start : Input} (h : k.size < start.size) :
    recover start k =
      if k.skipped then k else { k with rest := pastBoundary k.rest, skipped := false } := by
  unfold recover
  rw [decide_eq_true (Nat.ne_of_lt h), Bool.true_and]

theorem ahead_nil_of_suffix {ts us : List Token} (h : View.visible.ahead ts = [])
    (hs : us <:+ ts) : View.visible.ahead us = [] := by
  rw [View.ahead_visible, List.dropWhile_eq_nil_iff] at h ⊢
  exact fun t ht => h t (hs.mem ht)

/-- Recovery from an error leaves inputs near each other. -/
theorem recover_near {start' start : Input} (h' : k'.size < start'.size) (h : k.size < start.size)
    (hk : Tight watched k' k ∨ Ended k' k) :
    Near watched (recover start' k') (recover start k) := by
  rcases hk with hk | hk
  · rw [recover_moved h', recover_moved h]
    cases hk with
    | level hf hs hd =>
      rw [hs]
      split
      · exact .inl (.level hf hs hd)
      · exact pastBoundary_near hf hd
    | @mark m e ts' ts hf hm hd hr' hs' hr hs =>
      -- the first input has the line end still to come that the second one has stepped over
      rw [hs', hs, hr']
      unfold pastBoundary
      simp only [hm.semicolon, decide_true, Bool.or_true, if_true, Bool.false_eq_true, if_false]
      refine .inr (loose_behind hm hd hf (List.dropWhile_cons_of_pos hm.hidden) ?_)
      rw [hr]
      exact List.dropWhile_idempotent _ _
  · have hleft := ahead_nil_of_suffix hk.left (reaches_recover start' k').suffix
    have hright := ahead_nil_of_suffix hk.right (reaches_recover start k).suffix
    refine .inr ⟨?_, ?_, ?_⟩
    · rw [(reaches_recover start' k').final_eq, (reaches_recover start k).final_eq, hk.final_eq]
    · rw [hleft, hright]
      exact .ended
    · simp [hleft]

/-- So does recovery from an error at the first token of a unit, which is taken then. -/
theorem recover_start (i : Input) :
    recover i i = { i with rest := pastBoundary i.rest, skipped := false } := by
  simp [recover]

/-! ## Statements and items -/

theorem peek_unitStart (mode : Mode) (h : EndsShown i.rest) :
    (unitStart mode i).peek .visible = i.peek .visible := by
  cases mode with
  | batch => rfl
  | interactive =>
    rw [unitStart_interactive h]
    exact i.peek_clear

/-- Inputs in front of the same token, but for hidden ones, which are the same unless the token is
watched. -/
structure Even (watched : Token → Prop) (i' i : Input) : Prop where
  final_eq : i'.final = i.final
  abreast : Abreast watched (View.visible.ahead i'.rest) (View.visible.ahead i.rest)
  rest : Drops watched i'.rest i.rest ∨ ∀ t ∈ (View.visible.ahead i'.rest).head?, watched t

theorem near_cases (h : Near watched i' i) :
    ((i'.peek .visible).kind = .semicolon ∧ watched (i'.peek .visible)) ∨ Even watched i' i := by
  have hmark {m e : Token} {ts' us : List Token} (hm : EndsLine watched m e ts')
      (hr : i'.rest = m :: us) :
      (i'.peek .visible).kind = .semicolon ∧ watched (i'.peek .visible) := by
    have hpeek : i'.peek .visible = m := by simp [Input.peek, hr, hm.shown]
    exact hpeek ▸ ⟨hm.semicolon, hm.mark⟩
  rcases h with (⟨hf, hs, hd⟩ | ⟨hf, hm, hd, hr', -, -, -⟩) | ⟨hf, ha, hnext⟩
  · rcases hd.next_cases with ⟨m, e, us', us, hm, -, hr', -⟩ | ha
    · exact .inl (hmark hm hr')
    · exact .inr ⟨hf, ha, .inl hd⟩
  · exact .inl (hmark hm hr')
  · exact .inr ⟨hf, ha, .inr hnext⟩

namespace Even

theorem near (h : Even watched i' i) (hs : i'.skipped = i.skipped) : Near watched i' i :=
  h.rest.elim (fun hd => .inl (.level h.final_eq hs hd)) fun hw =>
    .inr ⟨h.final_eq, h.abreast, hw⟩

theorem peek_eq (h : Even watched i' i) : i'.peek .visible = i.peek .visible := by
  rw [Input.peek, Input.peek, List.headD_eq_head?_getD, List.headD_eq_head?_getD,
    h.abreast.head?_eq, h.final_eq]

/-- At the start of a unit both inputs stay in front of that token. -/
theorem unitStart (h : Even watched i' i) (mode : Mode) (hp' : EndsShown i'.rest)
    (hp : EndsShown i.rest) :
    Even watched (unitStart mode i') (unitStart mode i) ∧ (mode = .interactive →
      Abreast watched (Grammar.unitStart mode i').rest (Grammar.unitStart mode i).rest) := by
  cases mode with
  | batch => exact ⟨⟨h.final_eq, h.abreast, h.rest⟩, nofun⟩
  | interactive =>
    rw [unitStart_interactive hp', unitStart_interactive hp]
    refine ⟨⟨h.final_eq, ?_, .inl (.of_abreast h.abreast)⟩, fun _ => h.abreast⟩
    rw [visible_clear, visible_clear]
    exact h.abreast

/-- A unit that fails at this token is given up, unless the token is watched. -/
theorem recover (h : Even watched i' i) (live : (i'.peek .visible).kind ≠ .eof) :
    watched (i'.peek .visible) ∨ Near watched (recover i' i') (recover i i) := by
  rcases h.rest with hd | hw
  · rw [recover_start, recover_start]
    exact .inr (pastBoundary_near h.final_eq hd)
  · left
    unfold Input.peek at live ⊢
    cases hr : View.visible.ahead i'.rest with
    | nil =>
      rw [hr] at live
      exact absurd i'.final_eof live
    | cons t ts => exact hw t (by rw [hr]; rfl)

end Even

/-- The units of a mode: the kinds that they open with, the error at others, and what they make
of inputs that are near each other. -/
structure Opens (watched : Token → Prop) (mode : Mode) {α : Type} (unit : Parser α)
    (opens : TokenKind → Bool) (cause : SyntaxCause) : Prop where
  not_semicolon : opens .semicolon = false
  stuck : ∀ {i : Input}, opens (i.peek .visible).kind = false →
    unit i = .error ⟨cause, i.peek .visible⟩ i
  moved : ∀ {i : Input}, EndsShown i.rest → opens (i.peek .visible).kind = true →
    (left (unit i)).size < i.size
  goes : ∀ {i' i : Input}, Near watched i' i →
    (mode = .interactive → Abreast watched i'.rest i.rest) →
      Goes watched (fun _ => Near watched) (unit i') (unit i)

theorem statement_goes (h : Near watched i' i) :
    Goes watched (fun _ => Near watched) (statement i') (statement i) :=
  (statementOver_starts false (operand_starts _) (Nat.le_refl _) h.sees).settle h

theorem moved_statement (hi : EndsShown i.rest) (hk : (i.peek .visible).kind = .identifier) :
    (left (statement i)).size < i.size := by
  have ht := takes_peek (i := i) (v := .visible) (by rw [hk]; decide)
  refine moved_bind (goesForward.expect _ rfl) (fun tag => ?_) hi ?_
  · exact .bind goesForward.expression fun _ =>
      .bind (goesForward.unitEnd false rfl) fun _ => .pure _
  · rw [(expect_eq_ok (by decide)).2 ⟨hk, ht⟩]
    exact ht.size_lt

theorem opens_statement :
    Opens watched .batch statement (fun kind => decide (kind = .identifier)) .expectedTag where
  not_semicolon := rfl
  stuck h := statementOver_stray false (of_decide_eq_false h)
  moved hi h := moved_statement hi (of_decide_eq_true h)
  goes h _ := statement_goes h

/-- At the prompt both inputs take the same unit for a statement: in front of a line end as in
front of a semicolon a name stands alone. -/
theorem opensStatement_abreast (hf : i'.final = i.final) (h : Abreast watched i'.rest i.rest) :
    opensStatement i' = opensStatement i := by
  generalize hr' : i'.rest = ts' at h
  generalize hr : i.rest = ts at h
  cases h with
  | ended =>
    simp [opensStatement, Input.check, Input.isAtEnd, Input.peek, hr', hr, i'.final_eof,
      i.final_eof]
  | @same t ts' ts hh live hk h =>
    have hcheck : i'.check .visible .identifier = i.check .visible .identifier := by
      simp [Input.check, Input.isAtEnd, Input.peek, hr', hr, hh]
    have hnext' : i'.peekNext .hidden = ts'.headD i'.final := by
      simp [Input.peekNext, hr', live]
    have hnext : i.peekNext .hidden = ts.headD i.final := by
      simp [Input.peekNext, hr, live]
    unfold opensStatement
    rw [hcheck, hnext', hnext]
    cases h with
    | nil => rw [List.headD_nil, List.headD_nil, hf]
    | keep => rfl
    | drop hm h => rw [List.headD_cons, List.headD_cons, hm.semicolon, hm.eol]

theorem opensStatement_kind (h : opensStatement i = true) :
    (i.peek .visible).kind = .identifier := by
  simp only [opensStatement, Bool.and_eq_true] at h
  exact (check_iff (by decide)).1 h.1

theorem opens_item :
    Opens watched .interactive item opensExpression .expectedExpression where
  not_semicolon := rfl
  stuck {i} h := by
    have hname : opensStatement i = false := by
      rw [← Bool.not_eq_true]
      intro ho
      rw [opensStatement_kind ho] at h
      cases h
    have hstuck : expression i = .error ⟨.expectedExpression, i.peek .visible⟩ i :=
      parserAt_stuck levels h
    rw [item_apply, hname, if_neg (by decide), bind_apply, hstuck]
  moved {i} hi h := by
    rw [item_apply]
    split
    · rename_i ho
      exact moved_bind statement_forward (fun _ => .pure _) hi
        (moved_statement hi (opensStatement_kind ho))
    · refine moved_bind (parserAt_forward levels) (fun _ => ?_) hi (moved_parserAt levels hi h)
      exact .bind (goesForward.unitEnd false rfl) fun _ => .pure _
  goes {i' i} h ha := by
    rw [item_apply, item_apply, opensStatement_abreast h.final_eq (ha rfl)]
    split
    · exact (statement_goes h).bind fun _ _ _ _ hj => .ok hj
    · refine ((operand_starts (i'.size + 1)).expression.goes (Nat.lt_succ_self _) h).bind ?_
      intro e j' j _ hj
      exact (unitEnd_goes false _ hj).bind fun _ _ _ _ hk => .ok hk

/-! ## Turns -/

variable {α : Type} {unit : Parser α} {opens : TokenKind → Bool} {cause : SyntaxCause}
  {map : (Token → Token) → α → α}

theorem turn_stuck (hu : Opens watched mode unit opens cause) (hp : EndsShown i.rest)
    (h : opens (i.peek .visible).kind = false) :
    turn unit (unitStart mode i) =
      (.error ⟨cause, i.peek .visible⟩, recover (unitStart mode i) (unitStart mode i)) := by
  have hpeek := peek_unitStart mode hp
  rw [← hpeek] at h ⊢
  rw [turn, hu.stuck h]

/-- **A turn gives the same result** and leaves inputs near each other, if it does not fail at a
watched token. -/
theorem turn_near (hu : Opens watched mode unit opens cause) (h : Near watched i' i)
    (hp' : EndsShown i'.rest) (hp : EndsShown i.rest) (hend : i'.isAtEnd .visible = false) :
    (∃ e, (turn unit (unitStart mode i')).1 = .error e ∧ watched e.token) ∨
      ((turn unit (unitStart mode i')).1 = (turn unit (unitStart mode i)).1 ∧
        Near watched (turn unit (unitStart mode i')).2 (turn unit (unitStart mode i)).2) := by
  rcases near_cases h with ⟨hsemi, hw⟩ | heven
  · refine .inl ⟨⟨cause, i'.peek .visible⟩, ?_, hw⟩
    rw [turn_stuck hu hp' (by rw [hsemi, hu.not_semicolon])]
  have hpeek := heven.peek_eq
  obtain ⟨hstart, ha⟩ := heven.unitStart mode hp' hp
  cases hopens : opens (i'.peek .visible).kind with
  | false =>
    rw [turn_stuck hu hp' hopens, turn_stuck hu hp (hpeek ▸ hopens), hpeek]
    have hpeek' : (unitStart mode i').peek .visible = i.peek .visible :=
      (peek_unitStart mode hp').trans hpeek
    have hrecover := hstart.recover (by rw [hpeek', ← hpeek]; exact of_decide_eq_false hend)
    rw [hpeek'] at hrecover
    exact hrecover.imp (fun hw => ⟨_, rfl, hw⟩) fun hnear => ⟨rfl, hnear⟩
  | true =>
    have hmoved' := hu.moved ((reaches_unitStart mode i').endsShown hp')
      (by rw [peek_unitStart mode hp', hopens])
    have hmoved := hu.moved ((reaches_unitStart mode i).endsShown hp)
      (by rw [peek_unitStart mode hp, ← hpeek, hopens])
    have hgoes := hu.goes (hstart.near (by cases mode <;> rfl)) ha
    unfold turn
    generalize unit (unitStart mode i') = r' at hgoes hmoved' ⊢
    generalize unit (unitStart mode i) = r at hgoes hmoved ⊢
    cases hgoes with
    | ok hj => exact .inr ⟨rfl, hj⟩
    | error hk => exact .inr ⟨rfl, recover_near hmoved' hmoved hk⟩
    | excused hw => exact .inl ⟨_, rfl, hw⟩

/-- **The units are the same** without the semicolons, and so are the errors, if none of them is
at a watched token. -/
theorem units_near (hu : Opens watched mode unit opens cause) (hunit : UnitParser mode unit map)
    (hf : Forward unit) (h : Near watched i' i) (hp' : EndsShown i'.rest) (hp : EndsShown i.rest) :
    (∃ e ∈ rejected (units mode unit i'), watched e.token) ∨
      units mode unit i' = units mode unit i := by
  induction i' using units_induction mode unit generalizing i with
  | next i' ih =>
    rcases near_cases h with ⟨hsemi, hw⟩ | heven
    · have hend : i'.isAtEnd .visible = false := decide_eq_false (by simp [hsemi])
      have hstuck := turn_stuck hu hp' (by rw [hsemi, hu.not_semicolon])
      rw [units_cons hend (turn_passes hunit hf hp' hend).2, hstuck]
      exact .inl ⟨_, List.mem_cons_self, hw⟩
    have hends : i'.isAtEnd .visible = i.isAtEnd .visible := by
      rw [isAtEnd, isAtEnd, heven.peek_eq]
    cases hend : i.isAtEnd .visible with
    | true =>
      rw [units_nil (hends.trans hend), units_nil hend]
      exact .inr rfl
    | false =>
      have hend' := hends.trans hend
      obtain ⟨hreach', hlt'⟩ := turn_passes hunit hf hp' hend'
      obtain ⟨hreach, hlt⟩ := turn_passes hunit hf hp hend
      rw [units_cons hend' hlt', units_cons hend hlt]
      rcases turn_near hu h hp' hp hend' with ⟨e, he, hw⟩ | ⟨hsame, hnear⟩
      · rw [he]
        exact .inl ⟨e, List.mem_cons_self, hw⟩
      rcases ih hlt' hnear (hreach'.endsShown hp') (hreach.endsShown hp) with ⟨e, he, hw⟩ | ih
      · refine .inl ⟨e, ?_, hw⟩
        rw [← List.singleton_append, rejected_append]
        exact List.mem_append_right _ he
      · rw [hsame, ih]
        exact .inr rfl

/-- **The program is the same** without the semicolons, if no error is at a watched token. -/
theorem program_drops {ts' ts : List Token} {final : Token} (mode : Mode)
    (h : Drops watched ts' ts) (heof : final.kind = .eof)
    (hw : ∀ e ∈ (program mode (ts' ++ [final])).2, ¬watched e.token) :
    program mode (ts' ++ [final]) = program mode (ts ++ [final]) := by
  have hp' := h.plain_left.endsShown
  have hp := h.plain_right.endsShown
  have hnear : Near watched { rest := ts', final := final, final_eof := heof }
      { rest := ts, final := final, final_eof := heof } := .inl (.level rfl rfl h)
  cases mode with
  | batch =>
    simp only [program, ofTokens_concat _ heof] at hw ⊢
    rcases units_near opens_statement unitParser_statement statement_forward hnear hp' hp with
      ⟨e, he, hwatched⟩ | hunits
    · exact absurd hwatched (hw e he)
    · rw [hunits]
  | interactive =>
    simp only [program, ofTokens_concat _ heof] at hw ⊢
    rcases units_near opens_item unitParser_item item_forward hnear hp' hp with
      ⟨e, he, hwatched⟩ | hunits
    · exact absurd hwatched (hw e he)
    · rw [hunits]

end LazyDecl.Grammar
