import LazyDecl.Proofs.Grammar.LineSemicolon

/-!
The grammar on two inputs side by side, the second one without some semicolons that end lines.

* `Parser.Goes`: both results are the same, and what is left is side by side again; but nothing
  is said of the second one where the first one is an error at a watched token;
* `Grammar.operand_starts`: so do all parsers of the grammar go, where the inputs show the same.
-/

namespace LazyDecl

/-! ## Results -/

namespace Parser

open Input

variable {watched : Token → Prop} {α β : Type} {i' i : Input}

/-- The second result is the first one, with `J` between what they leave; but it can be any if
the first one is an error at a watched token. -/
inductive Goes (watched : Token → Prop) (J : α → Input → Input → Prop) :
    EStateM.Result SyntaxError Input α → EStateM.Result SyntaxError Input α → Prop where
  | ok {a : α} {j' j : Input} : J a j' j → Goes watched J (.ok a j') (.ok a j)
  | error {e : SyntaxError} {k' k : Input} : Tight watched k' k ∨ Ended k' k →
      Goes watched J (.error e k') (.error e k)
  | excused {e : SyntaxError} {k' : Input} {r : EStateM.Result SyntaxError Input α} :
      watched e.token → Goes watched J (.error e k') r

/-- The results go alike, or both are the same error at the token that comes next. -/
def Starts (watched : Token → Prop) (i' i : Input) (J : α → Input → Input → Prop)
    (r' r : EStateM.Result SyntaxError Input α) : Prop :=
  Goes watched J r' r ∨
    ∃ e : SyntaxError, e.token = i'.peek .visible ∧ r' = .error e i' ∧ r = .error e i

variable {J : α → Input → Input → Prop} {K : β → Input → Input → Prop}

theorem Goes.bind {p : Parser α} {k : α → Parser β} (hp : Goes watched J (p i') (p i))
    (hk : ∀ a j' j, p i' = .ok a j' → J a j' j → Goes watched K (k a j') (k a j)) :
    Goes watched K ((p >>= k) i') ((p >>= k) i) := by
  rw [bind_apply, bind_apply]
  generalize hr' : p i' = r' at hp hk
  generalize p i = r at hp
  cases hp with
  | ok h => exact hk _ _ _ rfl h
  | error h => exact .error h
  | excused h => exact .excused h

theorem Starts.bind {p : Parser α} {k : α → Parser β} (hp : Starts watched i' i J (p i') (p i))
    (hk : ∀ a j' j, p i' = .ok a j' → J a j' j → Goes watched K (k a j') (k a j)) :
    Starts watched i' i K ((p >>= k) i') ((p >>= k) i) := by
  rcases hp with hp | ⟨e, he, hr', hr⟩
  · exact .inl (hp.bind hk)
  · refine .inr ⟨e, he, ?_, ?_⟩
    · rw [bind_apply, hr']
    · rw [bind_apply, hr]

/-- Where the inputs are near each other, an error at the next token is no exception: both go on
from there, or the token is watched. -/
theorem Starts.settle {r' r : EStateM.Result SyntaxError Input α} (hn : Near watched i' i)
    (h : Starts watched i' i J r' r) : Goes watched J r' r := by
  rcases h with h | ⟨e, he, rfl, rfl⟩
  · exact h
  rcases hn with ht | hl
  · exact .error (.inl ht)
  obtain ⟨hf, habreast, hnext⟩ := hl
  generalize hts' : View.visible.ahead i'.rest = ts' at habreast hnext
  generalize hts : View.visible.ahead i.rest = ts at habreast
  cases habreast with
  | ended => exact .error (.inr ⟨hf, hts', hts⟩)
  | @same t us' us _ _ _ _ =>
    have hpeek : i'.peek .visible = t := by rw [Input.peek, hts']; rfl
    exact .excused (he ▸ hpeek ▸ hnext t rfl)

/-- What a round of a loop leaves: `R` if the loop goes on, `S` if it ends. -/
def Looped (R S : Input → Input → Prop) : Option α → Input → Input → Prop
  | some _ => R
  | none => S

theorem Goes.many {step : Parser (Option α)} {n : Nat} {R S : Input → Input → Prop}
    (hlt : ∀ j a k, step j = .ok (some a) k → k.size < j.size)
    (hstep : ∀ j' j, j'.size < n → R j' j → Goes watched (Looped R S) (step j') (step j))
    (hn : i'.size < n) (h : R i' i) :
    Goes watched (fun _ => S) (many step i') (many step i) := by
  generalize hm : i'.size = m
  induction m using Nat.strongRecOn generalizing i' i with
  | _ m ih =>
    have hs := hstep i' i hn h
    rw [Parser.many, Parser.many]
    generalize hr' : step i' = r' at hs
    generalize hr : step i = r at hs
    cases hs with
    | error h => exact .error h
    | excused h => exact .excused h
    | @ok a? j' j hj =>
      cases a? with
      | none => exact .ok hj
      | some a =>
        have hlt' := hlt i' a j' hr'
        simp only [if_pos hlt', if_pos (hlt i a j hr)]
        have hrest := ih j'.size (hm ▸ hlt') (Nat.lt_trans hlt' hn) hj rfl
        generalize Parser.many step j' = r' at hrest
        generalize Parser.many step j = r at hrest
        cases hrest with
        | ok h => exact .ok h
        | error h => exact .error h
        | excused h => exact .excused h

end Parser

/-! ## The grammar -/

namespace Grammar

open LazyDecl.Parser LazyDecl.Input

variable {watched : Token → Prop} {i' i : Input} {n : Nat}

theorem not_opens {kind : TokenKind} (h : opensExpression kind = false) :
    prefixOp? kind = none ∧ kind ≠ .identifier ∧ kind ≠ .leftParen ∧ kind ≠ .leftBracket ∧
      ∀ t : Token, t.kind = kind → literal? t = none := by
  cases kind <;> simp_all [opensExpression, prefixOp?, literal?]

theorem parserAt_nil (i : Input) : parserAt [] i = operandOver (parserAt []) i := operand_eq i

/-- A token that opens no expression stays. -/
theorem parserAt_stuck (ls : List Level) (h : opensExpression (i.peek .visible).kind = false) :
    parserAt ls i = .error ⟨.expectedExpression, i.peek .visible⟩ i := by
  induction ls with
  | nil =>
    obtain ⟨hop, hname, hparen, hbracket, hliteral⟩ := not_opens h
    have htake : take? .visible prefixOp? i = .ok none i := take?_eq_none.2 ⟨hop, rfl⟩
    have hprimary : primaryOver operand i = .error ⟨.expectedExpression, i.peek .visible⟩ i :=
      primaryOver_unexpected operand (hliteral _ rfl) hname hparen hbracket
    have hbinding : bindingOver operand i = .error ⟨.expectedExpression, i.peek .visible⟩ i := by
      unfold bindingOver
      rw [bind_apply, hprimary]
    show operand i = .error ⟨.expectedExpression, i.peek .visible⟩ i
    rw [operand_eq]
    unfold operandOver
    rw [bind_apply, htake]
    exact hbinding
  | cons l ls ih =>
    show infixLevel l (parserAt ls) i = .error ⟨.expectedExpression, i.peek .visible⟩ i
    unfold infixLevel
    rw [bind_apply, ih]

/-! ### Single tokens -/

/-- Neither input has the token. -/
theorem expect_missing {kind : TokenKind} (hlive : kind ≠ .eof) (cause : SyntaxCause)
    (hpeek : i.peek .visible = i'.peek .visible) (hne : (i'.peek .visible).kind ≠ kind) :
    Starts watched i' i (fun _ => Tight watched) (expect kind cause i') (expect kind cause i) := by
  refine .inr ⟨_, rfl, expect_eq_error hlive cause hne, ?_⟩
  rw [← hpeek] at hne ⊢
  exact expect_eq_error hlive cause hne

theorem expect_starts (kind : TokenKind) (hlive : kind ≠ .eof) (hk : kind ≠ .semicolon)
    (cause : SyntaxCause) (h : Sees watched i' i) :
    Starts watched i' i (fun _ => Tight watched) (expect kind cause i') (expect kind cause i) := by
  cases h with
  | ended h =>
    have hne : (i'.peek .visible).kind ≠ kind := by
      rw [h.peek_left, i'.final_eof]
      exact hlive.symm
    exact expect_missing hlive cause h.peek_eq hne
  | @same t j' j ht' ht hj =>
    by_cases hkind : t.kind = kind
    · rw [(expect_eq_ok hlive).2 ⟨hkind, ht'⟩, (expect_eq_ok hlive).2 ⟨hkind, ht⟩]
      exact .inl (.ok hj)
    · have hpeek : i.peek .visible = i'.peek .visible := by rw [ht'.peek_eq, ht.peek_eq]
      exact expect_missing hlive cause hpeek (by rwa [ht'.peek_eq])
  | blocked hsemi hw _ =>
    rw [expect_eq_error hlive cause (hsemi ▸ hk.symm)]
    exact .inl (.excused hw)

/-- Either both inputs have the token, or neither has it; where the first one shows a semicolon,
only so much is clear that the second one is fresh. -/
theorem accept_sees (kind : TokenKind) (hlive : kind ≠ .eof) (hk : kind ≠ .semicolon)
    (h : Sees watched i' i) :
    (accept kind i' = .ok none i' ∧ (accept kind i = .ok none i ∨
      (i'.peek .visible).kind = .semicolon ∧ watched (i'.peek .visible) ∧
        (i.peek .visible).kind.Fresh)) ∨
      ∃ t j' j, t.kind = kind ∧ accept kind i' = .ok (some t) j' ∧
        accept kind i = .ok (some t) j ∧ i'.Takes .visible t j' ∧ Tight watched j' j := by
  cases h with
  | ended h =>
    have hne : (i'.peek .visible).kind ≠ kind := by
      rw [h.peek_left, i'.final_eof]
      exact hlive.symm
    exact .inl ⟨(accept_eq_none hlive).2 ⟨hne, rfl⟩,
      .inl ((accept_eq_none hlive).2 ⟨h.peek_eq ▸ hne, rfl⟩)⟩
  | @same t j' j ht' ht hj =>
    by_cases hkind : t.kind = kind
    · exact .inr ⟨t, j', j, hkind, (accept_eq_some hlive).2 ⟨hkind, ht'⟩,
        (accept_eq_some hlive).2 ⟨hkind, ht⟩, ht', hj⟩
    · exact .inl ⟨(accept_eq_none hlive).2 ⟨by rwa [ht'.peek_eq], rfl⟩,
        .inl ((accept_eq_none hlive).2 ⟨by rwa [ht.peek_eq], rfl⟩)⟩
  | blocked hsemi hw hfresh =>
    exact .inl ⟨(accept_eq_none hlive).2 ⟨hsemi ▸ hk.symm, rfl⟩, .inr ⟨hsemi, hw, hfresh⟩⟩

/-! ### Operators -/

theorem joinStep_takes {level : Level} {p : Parser Expr} {t : Token} {j : Input}
    {node : Token → Expr → Expr → Expr} (ht : i.Takes .visible t j)
    (hnode : infixNode? level t.kind = some node) :
    joinStep level p i = (p >>= fun right => pure (some (node t, right))) j := by
  unfold joinStep
  rw [bind_apply, (take?_eq_some (infixNode?_eof level)).2 ⟨hnode, ht⟩]

/-- Operands of the levels `ls` go alike on less than `n` tokens. -/
def Alike (watched : Token → Prop) (n : Nat) (ls : List Level) : Prop :=
  ∀ i' i : Input, i'.size < n → Sees watched i' i →
    Starts watched i' i (fun _ => Tight watched) (parserAt ls i') (parserAt ls i)

theorem Alike.goes {ls : List Level} (h : Alike watched n ls) (hn : i'.size < n)
    (hnear : Near watched i' i) :
    Goes watched (fun _ => Tight watched) (parserAt ls i') (parserAt ls i) :=
  (h i' i hn hnear.sees).settle hnear

theorem joinStep_goes {level : Level} {ls : List Level} (hp : Alike watched n ls)
    (hn : i'.size < n) (h : Tight watched i' i) :
    Goes watched (Looped (Tight watched) (Tight watched)) (joinStep level (parserAt ls) i')
      (joinStep level (parserAt ls) i) := by
  cases h.sees with
  | ended hend =>
    have hnone : infixNode? level (i'.peek .visible).kind = none := by
      rw [hend.peek_left, i'.final_eof]
      exact infixNode?_eof level
    rw [joinStep_eq_none.2 ⟨hnone, rfl⟩, joinStep_eq_none.2 ⟨hend.peek_eq ▸ hnone, rfl⟩]
    exact .ok h
  | @same t j' j ht' ht hj =>
    cases hnode : infixNode? level t.kind with
    | none =>
      rw [joinStep_eq_none.2 ⟨ht'.peek_eq ▸ hnode, rfl⟩,
        joinStep_eq_none.2 ⟨ht.peek_eq ▸ hnode, rfl⟩]
      exact .ok h
    | some node =>
      rw [joinStep_takes ht' hnode, joinStep_takes ht hnode]
      exact (hp.goes (ht'.size_lt.trans hn) (.inl hj)).bind fun _ _ _ _ hk => .ok hk
  | blocked hsemi _ hfresh =>
    have hnone : infixNode? level (i'.peek .visible).kind = none := by
      rw [hsemi]
      cases level <;> rfl
    rw [joinStep_eq_none.2 ⟨hnone, rfl⟩, joinStep_eq_none.2 ⟨hfresh.no_infix level, rfl⟩]
    exact .ok h

theorem Alike.level {level : Level} {ls : List Level} (hp : Alike watched n ls) :
    Alike watched n (level :: ls) := by
  intro i' i hn h
  refine (hp i' i hn h).bind fun first j' j hfirst hj => ?_
  have hlt : j'.size < n := (size_lt_of_parserAt hfirst).trans hn
  refine (Goes.many (fun _ _ _ => joinStep_size_lt) (fun _ _ => joinStep_goes hp) hlt hj).bind ?_
  exact fun _ _ _ _ hk => .ok hk

theorem Alike.expression (hp : Alike watched n []) : Alike watched n levels :=
  hp.level.level.level.level.level.level

/-! ### Statements and builders -/

/-- Behind the line end that a semicolon ends the inputs are near each other, however many hidden
tokens have been stepped over. -/
theorem loose_behind {m e : Token} {ts' ts : List Token} {j' j : Input}
    (hm : EndsLine watched m e ts') (h : Drops watched ts' ts) (hf : j'.final = j.final)
    (hr' : View.visible.ahead j'.rest = View.visible.ahead ts')
    (hr : View.visible.ahead j.rest = View.visible.ahead ts) : Loose watched j' j where
  final_eq := hf
  abreast := by
    rw [hr', hr]
    exact hm.abreast h
  next := by
    rw [hr']
    exact fun t ht => (hm.next_watched t ht).1

theorem endUnit_skipped (inBuilder : Bool) (h : i.skipped = true) :
    endUnit inBuilder i = some i := by
  simp [endUnit, h]

theorem endUnit_nil (inBuilder : Bool) (h : i.rest = []) : endUnit inBuilder i = some i := by
  simp [endUnit, Input.isAtEnd, Input.peek, h, i.final_eof]

theorem endUnit_cons (inBuilder : Bool) {t : Token} {ts : List Token} (h : i.rest = t :: ts)
    (live : t.kind ≠ .eof) (hs : i.skipped = false) :
    endUnit inBuilder i =
      if t.kind = .semicolon || t.kind = .eol then some { i with rest := ts, skipped := false }
      else if inBuilder && t.kind = .rightBrace then some i else none := by
  have hpeek : i.peek .hidden = t := by simp [Input.peek, h]
  have hadvance : (i.advance .hidden).2 = { i with rest := ts, skipped := false } := by
    rw [Input.advance_cons (v := .hidden) h, if_neg live]
    rfl
  simp [endUnit, Input.isAtEnd, hpeek, hadvance, live, hs]

/-- Where the first input ends its unit with the semicolon, the second one does with the line
end. -/
theorem unitEnd_goes (inBuilder : Bool) (cause : SyntaxCause) (h : Tight watched i' i) :
    Goes watched (fun _ => Near watched) (unitEnd inBuilder cause i')
      (unitEnd inBuilder cause i) := by
  rw [unitEnd_apply, unitEnd_apply]
  cases h with
  | level hf hs h =>
    cases hskip : i.skipped with
    | true =>
      rw [endUnit_skipped inBuilder (hs.trans hskip), endUnit_skipped inBuilder hskip]
      exact .ok (.inl (.level hf hs h))
    | false =>
      have hskip' := hs.trans hskip
      have hlevel := Tight.level hf hs h
      generalize hr' : i'.rest = ts' at h
      generalize hr : i.rest = ts at h
      cases h with
      | nil =>
        rw [endUnit_nil inBuilder hr', endUnit_nil inBuilder hr]
        exact .ok (.inl hlevel)
      | @keep t ts' ts live hidden parted h =>
        rw [endUnit_cons inBuilder hr' live hskip', endUnit_cons inBuilder hr live hskip]
        by_cases hmark : (t.kind = .semicolon || t.kind = .eol) = true
        · rw [if_pos hmark, if_pos hmark]
          exact .ok (.inl (.level hf rfl h))
        rw [if_neg hmark, if_neg hmark]
        by_cases hbrace : (inBuilder && t.kind = .rightBrace) = true
        · rw [if_pos hbrace, if_pos hbrace]
          exact .ok (.inl hlevel)
        · rw [if_neg hbrace, if_neg hbrace]
          have hpeek' : i'.peek .hidden = t := by simp [Input.peek, hr']
          have hpeek : i.peek .hidden = t := by simp [Input.peek, hr]
          rw [hpeek', hpeek]
          exact .error (.inl hlevel)
      | @drop m e ts' ts hm h =>
        rw [endUnit_cons inBuilder hr' (by simp [hm.semicolon]) hskip',
          endUnit_cons inBuilder hr (by simp [hm.eol]) hskip]
        simp only [hm.semicolon, hm.eol, decide_true, Bool.true_or, Bool.or_true, if_true]
        exact .ok (.inr (loose_behind hm h hf (List.dropWhile_cons_of_pos hm.hidden) rfl))
  | @mark m e ts' ts hf hm h hr' hs' hr hs =>
    rw [endUnit_cons inBuilder hr' (by simp [hm.semicolon]) hs', endUnit_skipped inBuilder hs]
    simp only [hm.semicolon, decide_true, Bool.true_or, if_true]
    refine .ok (.inr (loose_behind hm h hf (List.dropWhile_cons_of_pos hm.hidden) ?_))
    rw [hr]
    exact List.dropWhile_idempotent _ _

theorem advance_goes {t : Token} {j' j : Input} (ht' : i'.Takes .visible t j')
    (ht : i.Takes .visible t j) (hj : Tight watched j' j) :
    Goes watched (fun _ => Tight watched) (advance .visible i') (advance .visible i) := by
  rw [advance_apply, advance_apply, ht'.peek_eq, ht.peek_eq, ht'.advance, ht.advance]
  exact .ok hj

theorem statementOver_starts (inBuilder : Bool) (hp : Alike watched n []) (hn : i'.size ≤ n)
    (h : Sees watched i' i) :
    Starts watched i' i (fun _ => Near watched) (statementOver (parserAt []) inBuilder i')
      (statementOver (parserAt []) inBuilder i) := by
  refine (expect_starts .identifier (by decide) (by decide) _ h).bind fun tag j' j htag hj => ?_
  have hlt : j'.size < n := ((expect_eq_ok (by decide)).1 htag).2.size_lt.trans_le hn
  refine (hp.expression.goes hlt (.inl hj)).bind fun value k' k _ hk => ?_
  exact (unitEnd_goes inBuilder _ hk).bind fun _ _ _ _ hm => .ok hm

theorem bodyStep_goes (hp : Alike watched n []) (hn : i'.size < n) (h : Near watched i' i) :
    Goes watched (Looped (Near watched) (Near watched)) (bodyStep (parserAt []) i')
      (bodyStep (parserAt []) i) := by
  cases h.sees with
  | ended hend =>
    have hkind : (i'.peek .visible).kind = .eof := hend.peek_left ▸ i'.final_eof
    rw [bodyStep_eq_none.2 ⟨.inr hkind, rfl⟩,
      bodyStep_eq_none.2 ⟨.inr (hend.peek_eq ▸ hkind), rfl⟩]
    exact .ok h
  | @same t j' j ht' ht hj =>
    by_cases hbrace : t.kind = .rightBrace
    · rw [bodyStep_eq_none.2 ⟨.inl (ht'.peek_eq ▸ hbrace), rfl⟩,
        bodyStep_eq_none.2 ⟨.inl (ht.peek_eq ▸ hbrace), rfl⟩]
      exact .ok h
    · have hstays {m k : Input} (hm : m.Takes .visible t k) :
          ¬(m.check .visible .rightBrace || m.isAtEnd .visible) = true := by
        simp [Input.check, Input.isAtEnd, hm.peek_eq, hbrace, ht.live]
      rw [bodyStep_apply, bodyStep_apply, if_neg (hstays ht'), if_neg (hstays ht)]
      exact ((statementOver_starts true hp hn.le h.sees).settle h).bind fun _ _ _ _ hk => .ok hk
  | blocked hsemi hw _ =>
    have hstays : ¬(i'.check .visible .rightBrace || i'.isAtEnd .visible) = true := by
      simp [Input.check, Input.isAtEnd, hsemi]
    rw [bodyStep_apply, if_neg hstays, bind_apply, statementOver_stray _ (by simp [hsemi])]
    exact .excused hw

/-- A brace on the same line follows in both inputs or in neither. -/
theorem brace_cases (h : Tight watched i' i) :
    ((!i'.skipped && i'.check .hidden .leftBrace) = false ∧
      (!i.skipped && i.check .hidden .leftBrace) = false) ∨
    ((!i'.skipped && i'.check .hidden .leftBrace) = true ∧
      (!i.skipped && i.check .hidden .leftBrace) = true ∧
        ∃ t j' j, i'.Takes .visible t j' ∧ i.Takes .visible t j ∧ Tight watched j' j) := by
  cases h with
  | level hf hs h =>
    rw [hs]
    cases hskip : i.skipped with
    | true => exact .inl ⟨rfl, rfl⟩
    | false =>
      generalize hr' : i'.rest = ts' at h
      generalize hr : i.rest = ts at h
      cases h with
      | nil => simp [Input.check, Input.isAtEnd, Input.peek, hr', hr, i'.final_eof, i.final_eof]
      | @keep t ts' ts live hidden parted h =>
        by_cases hbrace : t.kind = .leftBrace
        · right
          have hneg : ¬t.hidden = true := fun hh => by simp [hidden.1 hh] at hbrace
          refine ⟨?_, ?_, t, _, _, takes_iff.2 ⟨live, ts', ?_, rfl⟩,
            takes_iff.2 ⟨live, ts, ?_, rfl⟩, tight_behind hf h⟩
          · simp [Input.check, Input.isAtEnd, Input.peek, hr', hbrace]
          · simp [Input.check, Input.isAtEnd, Input.peek, hr, hbrace]
          · rw [hr']
            exact List.dropWhile_cons_of_neg hneg
          · rw [hr]
            exact List.dropWhile_cons_of_neg hneg
        · left
          simp [Input.check, Input.peek, hr', hr, hbrace]
      | drop hm h =>
        left
        simp [Input.check, Input.peek, hr', hr, hm.semicolon, hm.eol]
  | mark hf hm h hr' hs' hr hs =>
    left
    simp [Input.check, Input.peek, hr', hs, hm.semicolon]

theorem builderOver_goes (hp : Alike watched n []) (hn : i'.size < n) (kind : Token) {t : Token}
    {j' j : Input} (ht' : i'.Takes .visible t j') (ht : i.Takes .visible t j)
    (hj : Tight watched j' j) :
    Goes watched (fun _ => Tight watched) (builderOver (parserAt []) kind i')
      (builderOver (parserAt []) kind i) := by
  refine (advance_goes ht' ht hj).bind fun _ k' k htake hk => ?_
  have hlt : k'.size < n := by
    rw [advance_apply] at htake
    cases htake
    exact (i'.size_advance_le .visible).trans_lt hn
  have hbody := Goes.many (fun _ _ _ => bodyStep_size_lt) (fun _ _ => bodyStep_goes hp) hlt
    (.inl hk)
  refine hbody.bind fun body m' m _ hm => ?_
  have hclose := expect_starts .rightBrace (by decide) (by decide) .expectedCloseBrace
    hm.sees
  exact (hclose.settle hm).bind fun _ _ _ _ hk => .ok hk

theorem nameOver_goes (hp : Alike watched n []) (hn : i'.size < n) (t : Token)
    (h : Tight watched i' i) :
    Goes watched (fun _ => Tight watched) (nameOver (parserAt []) t i')
      (nameOver (parserAt []) t i) := by
  rw [nameOver_apply, nameOver_apply]
  rcases brace_cases h with ⟨hb', hb⟩ | ⟨hb', hb, u, j', j, ht', ht, hj⟩
  · rw [hb', hb]
    exact .ok h
  · rw [if_pos hb', if_pos hb]
    exact builderOver_goes hp hn t ht' ht hj

/-! ### Sequences -/

theorem drops_separators {ts' ts : List Token} (h : Drops watched ts' ts) :
    Drops watched (ts'.dropWhile (isSeparator ·.kind)) (ts.dropWhile (isSeparator ·.kind)) := by
  induction h with
  | nil => exact .nil
  | @keep t ts' ts live hidden parted h ih =>
    rw [List.dropWhile_cons, List.dropWhile_cons]
    split
    · exact ih
    · exact .keep live hidden parted h
  | @drop m e ts' ts hm h ih =>
    have hsm : isSeparator m.kind = true := by simp [hm.semicolon, isSeparator]
    have hse : isSeparator e.kind = true := by simp [hm.eol, isSeparator]
    simp only [List.dropWhile_cons, hsm, hse, if_true]
    exact ih

/-- Hidden tokens are separators. -/
theorem dropWhile_ahead {ts : List Token} (h : Plain ts) :
    (View.visible.ahead ts).dropWhile (isSeparator ·.kind) =
      ts.dropWhile (isSeparator ·.kind) := by
  rw [View.ahead_visible]
  induction ts with
  | nil => rfl
  | cons t ts ih =>
    obtain ⟨ht, hts⟩ := List.forall_mem_cons.1 h
    cases hh : t.hidden with
    | false => rw [List.dropWhile_cons_of_neg (by simp [hh])]
    | true =>
      have hsep : isSeparator t.kind = true := by simp [ht.2.1 hh, isSeparator]
      simp only [List.dropWhile_cons, hh, hsep, if_true]
      exact ih hts

theorem separated_of {i : Input} (h : isSeparator (i.peek .hidden).kind = true) :
    separated i =
      (true, { i with rest := i.rest.dropWhile (isSeparator ·.kind), skipped := false }) :=
  if_pos h

theorem separated_of_not {i : Input} (h : isSeparator (i.peek .hidden).kind = false) :
    separated i = (i.skipped, i) :=
  if_neg (by simp [h])

/-- A semicolon that is missing stands in front of another separator. -/
theorem isSeparator_peek (hf : i'.final = i.final) (h : Drops watched i'.rest i.rest) :
    isSeparator (i'.peek .hidden).kind = isSeparator (i.peek .hidden).kind := by
  rw [Input.peek, Input.peek, View.ahead_hidden, View.ahead_hidden]
  generalize i'.rest = ts' at h
  generalize i.rest = ts at h
  cases h with
  | nil => exact congrArg (isSeparator ·.kind) hf
  | keep => rfl
  | drop hm h =>
    rw [List.headD_cons, List.headD_cons, hm.semicolon, hm.eol]
    rfl

/-- In front of a token that is no separator there are none to drop. -/
theorem dropWhile_abreast {ts' ts : List Token} {final : Token}
    (h : Abreast watched ts' ts) (hsep : isSeparator (ts.headD final).kind = false) :
    ts'.dropWhile (isSeparator ·.kind) = ts' := by
  cases h with
  | ended => rfl
  | same hh live hk h => exact List.dropWhile_cons_of_neg (by simpa using hsep)

/-- Both inputs have separators, or neither has; a semicolon that is missing stands in front of
one. -/
theorem separated_near (h : Tight watched i' i) :
    (separated i').1 = (separated i).1 ∧ Near watched (separated i').2 (separated i).2 := by
  have hsemi : isSeparator .semicolon = true := rfl
  have heol : isSeparator .eol = true := rfl
  cases h with
  | level hf hs h =>
    have hlevel := Tight.level hf hs h
    have hbehind : Tight watched
        { i' with rest := i'.rest.dropWhile (isSeparator ·.kind), skipped := false }
        { i with rest := i.rest.dropWhile (isSeparator ·.kind), skipped := false } :=
      .level hf rfl (drops_separators h)
    have hpeek := isSeparator_peek hf h
    cases hsep : isSeparator (i.peek .hidden).kind with
    | true =>
      rw [separated_of (hpeek.trans hsep), separated_of hsep]
      exact ⟨rfl, .inl hbehind⟩
    | false =>
      rw [separated_of_not (hpeek.trans hsep), separated_of_not hsep]
      exact ⟨hs, .inl hlevel⟩
  | @mark m e ts' ts hf hm h hr' hs' hr hs =>
    have hdrop : i'.rest.dropWhile (isSeparator ·.kind) =
        (View.visible.ahead ts').dropWhile (isSeparator ·.kind) := by
      rw [hr', dropWhile_ahead h.plain_left]
      simp only [List.dropWhile_cons, hm.semicolon, hm.eol, hsemi, heol, if_true]
    have hpeek' : isSeparator (i'.peek .hidden).kind = true := by
      simp [Input.peek, hr', hm.semicolon, hsemi]
    rw [separated_of hpeek', hdrop]
    cases hsep : isSeparator (i.peek .hidden).kind with
    | true =>
      rw [separated_of hsep, hr]
      refine ⟨rfl, .inl (.level hf rfl ?_)⟩
      rw [dropWhile_ahead h.plain_left, dropWhile_ahead h.plain_right]
      exact drops_separators h
    | false =>
      -- the second input stands behind the line end, in front of the next token already
      rw [separated_of_not hsep]
      refine ⟨hs.symm, .inr (loose_behind hm h hf ?_ ?_)⟩
      · rw [Input.peek, View.ahead_hidden, hr] at hsep
        rw [dropWhile_abreast (hm.abreast h) hsep]
        exact List.dropWhile_idempotent _ _
      · rw [hr]
        exact List.dropWhile_idempotent _ _

theorem elementOver_goes (hp : Alike watched n []) (hn : i'.size < n) (first : Expr)
    (h : Near watched i' i) :
    Goes watched (fun _ => Tight watched) (elementOver (parserAt []) first i')
      (elementOver (parserAt []) first i) := by
  refine (hp.expression.goes hn h).bind fun e j' j _ hj => ?_
  split
  · exact .error (.inl hj)
  split
  · exact .error (.inl hj)
  · exact .ok hj

theorem elementOver_stuck (first : Expr) (h : opensExpression (i.peek .visible).kind = false) :
    elementOver (parserAt []) first i = .error ⟨.expectedExpression, i.peek .visible⟩ i := by
  have hstuck : expressionOver (parserAt []) i = .error ⟨.expectedExpression, i.peek .visible⟩ i :=
    parserAt_stuck levels h
  unfold elementOver
  rw [bind_apply, hstuck]

theorem elementStep_goes (hp : Alike watched n []) (hn : i'.size < n) (first : Expr)
    (h : Tight watched i' i) :
    Goes watched (Looped (Tight watched) (Near watched)) (elementStep (parserAt []) first i')
      (elementStep (parserAt []) first i) := by
  obtain ⟨hfound, hnear⟩ := separated_near h
  have hlt : (separated i').2.size < n := (separated_size_le i').trans_lt hn
  rw [elementStep_apply, elementStep_apply, hfound]
  cases (separated i).1 with
  | false => exact .ok hnear
  | true =>
    rw [Bool.true_and, Bool.true_and]
    rcases hnear.sees.peek_cases with hpeek | ⟨hsemi, hw⟩
    · have hcheck : (separated i').2.check .visible .rightBracket =
          (separated i).2.check .visible .rightBracket := by
        rw [Input.check, Input.check, Input.isAtEnd, Input.isAtEnd, hpeek]
      rw [hcheck]
      split
      · exact (elementOver_goes hp hlt first hnear).bind fun _ _ _ _ hj => .ok hj
      · exact .ok hnear
    · have hopen : (separated i').2.check .visible .rightBracket = false :=
        (Input.check_eq_false (by decide)).2 (by simp [hsemi])
      rw [hopen, Bool.not_false, if_pos rfl, bind_apply,
        elementOver_stuck first (by rw [hsemi]; rfl)]
      exact .excused hw

theorem sequenceOver_goes (hp : Alike watched n []) (hn : i'.size < n) (opening : Token)
    (h : Tight watched i' i) :
    Goes watched (fun _ => Tight watched) (sequenceOver (parserAt []) opening i')
      (sequenceOver (parserAt []) opening i) := by
  have hseq (m : Input) : sequenceOver (parserAt []) opening m =
      (accept .rightBracket >>= fun closing =>
        if closing.isSome then pure (.sequence opening []) else
          expressionOver (parserAt []) >>= fun first => many (elementStep (parserAt []) first) >>=
            fun others => expect .rightBracket .expectedCloseBracket >>= fun _ =>
              pure (.sequence opening (first :: others))) m := rfl
  rw [hseq, hseq]
  rcases accept_sees .rightBracket (by decide) (by decide) h.sees with
    ⟨ha', ha⟩ | ⟨t, j', j, -, ha', ha, -, hj⟩
  · rw [bind_apply, ha']
    rcases ha with ha | ⟨hsemi, hw, -⟩
    · rw [bind_apply, ha]
      refine (hp.expression.goes hn (.inl h)).bind fun first k' k hfirst hk => ?_
      have hlt : k'.size < n := (size_lt_of_expression hfirst).trans hn
      have hothers := Goes.many (fun _ _ _ => elementStep_size_lt)
        (fun _ _ hm => elementStep_goes hp hm first) hlt hk
      refine hothers.bind fun others m' m _ hm => ?_
      have hclose := expect_starts .rightBracket (by decide) (by decide)
        .expectedCloseBracket hm.sees
      exact (hclose.settle hm).bind fun _ _ _ _ hk => .ok hk
    · have hstuck : expressionOver (parserAt []) i' =
          .error ⟨.expectedExpression, i'.peek .visible⟩ i' :=
        parserAt_stuck levels (by rw [hsemi]; rfl)
      show Goes watched _ ((expressionOver (parserAt []) >>= _) i') _
      rw [bind_apply, hstuck]
      exact .excused hw
  · rw [bind_apply, ha', bind_apply, ha]
    exact .ok hj

/-! ### Operands -/

/-- Primaries start alike where the inputs show the same token. -/
theorem primaryOver_starts {t : Token} {j' j : Input} (hp : Alike watched n [])
    (hn : i'.size ≤ n) (ht' : i'.Takes .visible t j') (ht : i.Takes .visible t j)
    (hj : Tight watched j' j) :
    Starts watched i' i (fun _ => Tight watched) (primaryOver (parserAt []) i')
      (primaryOver (parserAt []) i) := by
  have hpeek' := ht'.peek_eq
  have hpeek := ht.peek_eq
  have htake := advance_goes ht' ht hj
  have hlt (a : Token) {k : Input} (h : advance .visible i' = .ok a k) : k.size < n := by
    rw [advance_apply, ht'.advance] at h
    cases h
    exact ht'.size_lt.trans_le hn
  cases hl : literal? t with
  | some read =>
    rw [primaryOver_literal _ (hpeek'.symm ▸ hl), primaryOver_literal _ (hpeek.symm ▸ hl), hpeek',
      hpeek]
    refine .inl (htake.bind fun _ k' k _ hk => ?_)
    cases read with
    | ok value => exact .ok hk
    | error cause => exact .error (.inl hk)
  | none =>
    by_cases hname : t.kind = .identifier
    · rw [primaryOver_identifier _ (hpeek'.symm ▸ hname),
        primaryOver_identifier _ (hpeek.symm ▸ hname), hpeek', hpeek]
      exact .inl (htake.bind fun a k' k ha hk => nameOver_goes hp (hlt a ha) t hk)
    by_cases hparen : t.kind = .leftParen
    · rw [primaryOver_leftParen _ (hpeek'.symm ▸ hparen),
        primaryOver_leftParen _ (hpeek.symm ▸ hparen)]
      refine .inl (htake.bind fun a k' k ha hk => ?_)
      refine (hp.expression.goes (hlt a ha) (.inl hk)).bind fun inner m' m _ hm => ?_
      have hclose := expect_starts .rightParen (by decide) (by decide)
        .expectedCloseParen hm.sees
      exact (hclose.settle (.inl hm)).bind fun _ _ _ _ hk => .ok hk
    by_cases hbracket : t.kind = .leftBracket
    · rw [primaryOver_leftBracket _ (hpeek'.symm ▸ hbracket),
        primaryOver_leftBracket _ (hpeek.symm ▸ hbracket), hpeek', hpeek]
      exact .inl (htake.bind fun a k' k ha hk => sequenceOver_goes hp (hlt a ha) t hk)
    · refine .inr ⟨⟨.expectedExpression, t⟩, hpeek'.symm, ?_, ?_⟩
      · rw [primaryOver_unexpected _ (hpeek'.symm ▸ hl) (hpeek'.symm ▸ hname)
          (hpeek'.symm ▸ hparen) (hpeek'.symm ▸ hbracket), hpeek']
        rfl
      · rw [primaryOver_unexpected _ (hpeek.symm ▸ hl) (hpeek.symm ▸ hname)
          (hpeek.symm ▸ hparen) (hpeek.symm ▸ hbracket), hpeek]
        rfl

theorem bindingOver_starts {t : Token} {j' j : Input} (hp : Alike watched n [])
    (hn : i'.size ≤ n) (ht' : i'.Takes .visible t j') (ht : i.Takes .visible t j)
    (hj : Tight watched j' j) :
    Starts watched i' i (fun _ => Tight watched) (bindingOver (parserAt []) i')
      (bindingOver (parserAt []) i) := by
  refine (primaryOver_starts hp hn ht' ht hj).bind fun left k' k hleft hk => ?_
  have hlt : k'.size < i'.size := ((soundBelow _).primary (Nat.le_refl _) hleft).size_lt
  rcases accept_sees .colon (by decide) (by decide) hk.sees with
    ⟨ha', ha⟩ | ⟨colon, m', m, -, ha', ha, hm', hm⟩
  · have ha : accept .colon k = .ok none k := ha.elim id fun ⟨_, _, hfresh⟩ =>
      (accept_eq_none (by decide)).2 ⟨hfresh.not_colon, rfl⟩
    rw [bind_apply, ha', bind_apply, ha]
    exact .ok hk
  · rw [bind_apply, ha', bind_apply, ha]
    have hvalue := hp.expression.goes (hm'.size_lt.trans (hlt.trans_le hn)) (.inl hm)
    exact hvalue.bind fun _ _ _ _ hk => .ok hk

/-- **The grammar reads the same** whether or not a semicolon stands at the end of a line. -/
theorem operand_starts (n : Nat) : Alike watched n [] := by
  induction n with
  | zero => exact fun _ _ hn _ => absurd hn (Nat.not_lt_zero _)
  | succ n hp =>
    intro i' i hn h
    have hn := Nat.le_of_lt_succ hn
    cases h with
    | ended hend =>
      have hclosed : opensExpression (i'.peek .visible).kind = false := by
        rw [hend.peek_left, i'.final_eof]
        rfl
      refine .inr ⟨_, rfl, parserAt_stuck [] hclosed, ?_⟩
      rw [← hend.peek_eq] at hclosed ⊢
      exact parserAt_stuck [] hclosed
    | @same t j' j ht' ht hj =>
      rw [parserAt_nil, parserAt_nil]
      unfold operandOver
      cases hop : prefixOp? t.kind with
      | some op =>
        rw [bind_apply, (take?_eq_some prefixOp?_eof).2 ⟨hop, ht'⟩, bind_apply,
          (take?_eq_some prefixOp?_eof).2 ⟨hop, ht⟩]
        have hinner := hp.goes (ht'.size_lt.trans_le hn) (.inl hj)
        exact .inl (hinner.bind fun _ _ _ _ hk => .ok hk)
      | none =>
        rw [bind_apply, take?_eq_none.2 ⟨ht'.peek_eq.symm ▸ hop, rfl⟩, bind_apply,
          take?_eq_none.2 ⟨ht.peek_eq.symm ▸ hop, rfl⟩]
        exact bindingOver_starts hp hn ht' ht hj
    | blocked hsemi hw _ =>
      rw [parserAt_stuck [] (by rw [hsemi]; rfl)]
      exact .inl (.excused hw)

end Grammar

end LazyDecl
