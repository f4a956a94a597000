import LazyDecl.Grammar.Units
import LazyDecl.Proofs.Input

/-!
What each parser of the grammar returns, given what the parsers in it return. From
here on a parser is known by its results: a token that it takes is one step of
`Input.Takes`, and a chain of parsers succeeds where all of its links do.
-/

namespace LazyDecl

namespace Parser

variable {α β : Type} {i j : Input}

theorem bind_apply (p : Parser α) (k : α → Parser β) (i : Input) :
    (p >>= k) i = match p i with
      | .ok a j => k a j
      | .error e j => .error e j := by
  simp only [bind, EStateM.bind]
  cases p i <;> rfl

theorem bind_eq_ok {p : Parser α} {k : α → Parser β} {b : β} :
    (p >>= k) i = .ok b j ↔ ∃ a m, p i = .ok a m ∧ k a m = .ok b j := by
  rw [bind_apply]
  cases p i with
  | ok a m =>
    constructor
    · intro h
      exact ⟨a, m, rfl, h⟩
    · rintro ⟨_, _, h, h'⟩
      cases h
      exact h'
  | error e m => simp

theorem pure_eq_ok {a b : α} : (pure a : Parser α) i = .ok b j ↔ b = a ∧ j = i := by
  constructor
  · intro h
    cases h
    exact ⟨rfl, rfl⟩
  · rintro ⟨rfl, rfl⟩
    rfl

theorem fail_ne_ok {cause : SyntaxCause} {t : Token} {a : α} :
    (fail cause t : Parser α) i ≠ .ok a j := nofun

/-! ## Single tokens -/

theorem advance_apply (v : View) (i : Input) :
    advance v i = .ok (i.peek v) (i.advance v).2 := by
  rw [← Input.advance_fst]
  rfl

theorem peek_bind_apply (v : View) (k : Token → Parser α) (i : Input) :
    (peek v >>= k) i = k (i.peek v) i := rfl

theorem advance_bind_apply (v : View) (k : Token → Parser α) (i : Input) :
    (advance v >>= k) i = k (i.peek v) (i.advance v).2 := by
  rw [bind_apply, advance_apply]

theorem take?_apply (v : View) (f : TokenKind → Option α) (i : Input) :
    take? v f i = match f (i.peek v).kind with
      | some a => .ok (some (a, i.peek v)) (i.advance v).2
      | none => .ok none i := by
  have h : take? v f i = (match f (i.peek v).kind with
      | some a => advance v >>= fun t => pure (some (a, t))
      | none => pure none : Parser (Option (α × Token))) i := rfl
  rw [h]
  cases f (i.peek v).kind with
  | none => rfl
  | some a =>
    dsimp only
    rw [advance_bind_apply]
    rfl

theorem take?_eq_some {v : View} {f : TokenKind → Option α} (hf : f .eof = none) {a : α}
    {t : Token} : take? v f i = .ok (some (a, t)) j ↔ f t.kind = some a ∧ i.Takes v t j := by
  rw [take?_apply]
  constructor
  · intro h
    cases hk : f (i.peek v).kind with
    | none => simp [hk] at h
    | some b =>
      rw [hk] at h
      cases h
      refine ⟨hk, Input.takes_peek ?_⟩
      intro he
      rw [he, hf] at hk
      cases hk
  · rintro ⟨ht, h⟩
    rw [h.peek_eq, ht, h.advance]

theorem take?_eq_none {v : View} {f : TokenKind → Option α} :
    take? v f i = .ok none j ↔ f (i.peek v).kind = none ∧ j = i := by
  rw [take?_apply]
  cases f (i.peek v).kind with
  | none =>
    constructor
    · intro h
      cases h
      exact ⟨rfl, rfl⟩
    · rintro ⟨-, rfl⟩
      rfl
  | some a => simp

theorem accept_apply (kind : TokenKind) (i : Input) :
    accept kind i = if i.check .visible kind then
      .ok (some (i.peek .visible)) (i.advance .visible).2 else .ok none i := by
  have h : accept kind i = (if i.check .visible kind then
      advance .visible >>= fun t => pure (some t) else pure none : Parser (Option Token)) i := rfl
  rw [h]
  split
  · rw [advance_bind_apply]
    rfl
  · rfl

theorem accept_eq_some {kind : TokenKind} (hk : kind ≠ .eof) {t : Token} :
    accept kind i = .ok (some t) j ↔ t.kind = kind ∧ i.Takes .visible t j := by
  rw [accept_apply]
  constructor
  · intro h
    split at h
    · rename_i hc
      cases h
      have := (Input.check_iff hk).1 hc
      exact ⟨this, Input.takes_peek (this ▸ hk)⟩
    · cases h
  · rintro ⟨rfl, h⟩
    rw [if_pos ((Input.check_iff hk).2 (h.peek_eq ▸ rfl)), h.peek_eq, h.advance]

theorem accept_eq_none {kind : TokenKind} (hk : kind ≠ .eof) :
    accept kind i = .ok none j ↔ (i.peek .visible).kind ≠ kind ∧ j = i := by
  rw [accept_apply, ← Input.check_eq_false hk]
  cases i.check .visible kind with
  | true => simp
  | false =>
    constructor
    · intro h
      cases h
      exact ⟨rfl, rfl⟩
    · rintro ⟨-, rfl⟩
      rfl

theorem expect_eq_ok {kind : TokenKind} (hk : kind ≠ .eof) {cause : SyntaxCause} {t : Token} :
    expect kind cause i = .ok t j ↔ t.kind = kind ∧ i.Takes .visible t j := by
  rw [← accept_eq_some hk, expect, bind_eq_ok]
  constructor
  · rintro ⟨u?, m, h, h'⟩
    cases u? with
    | none => exact absurd h' nofun
    | some u =>
      obtain ⟨rfl, rfl⟩ := pure_eq_ok.1 h'
      exact h
  · intro h
    exact ⟨some t, j, h, rfl⟩

/-- A token that is not the one that is expected is shown in the error and stays. -/
theorem expect_eq_error {kind : TokenKind} (hk : kind ≠ .eof) (cause : SyntaxCause)
    (h : (i.peek .visible).kind ≠ kind) :
    expect kind cause i = .error ⟨cause, i.peek .visible⟩ i := by
  rw [expect, bind_apply, (accept_eq_none hk).2 ⟨h, rfl⟩]
  rfl

/-! ## Repetition -/

theorem many_none {step : Parser (Option α)} (h : step i = .ok none j) :
    many step i = .ok [] j := by
  rw [many, h]

theorem many_some {step : Parser (Option α)} {a : α} (h : step i = .ok (some a) j)
    (hlt : j.size < i.size) {as : List α} {k : Input} :
    many step i = .ok as k ↔ ∃ bs, as = a :: bs ∧ many step j = .ok bs k := by
  rw [many, h]
  simp only [if_pos hlt]
  cases many step j with
  | error e m => simp
  | ok bs m =>
    constructor
    · intro h
      cases h
      exact ⟨bs, rfl, rfl⟩
    · rintro ⟨_, rfl, h⟩
      cases h
      rfl

/-- A repetition either ends at once or goes on behind its first step. -/
theorem many_eq_ok {step : Parser (Option α)} {as : List α} {k : Input}
    (h : many step i = .ok as k) :
    (step i = .ok none k ∧ as = []) ∨ ∃ a j bs, step i = .ok (some a) j ∧ as = a :: bs ∧
      (j.size < i.size → many step j = .ok bs k) := by
  have hm := h
  rw [many] at h
  cases hs : step i with
  | error e j => simp [hs] at h
  | ok a? j =>
    cases a? with
    | none =>
      rw [hs] at h
      cases h
      exact .inl ⟨rfl, rfl⟩
    | some a =>
      by_cases hlt : j.size < i.size
      · obtain ⟨bs, rfl, hbs⟩ := (many_some hs hlt).1 hm
        exact .inr ⟨a, j, bs, rfl, rfl, fun _ => hbs⟩
      · simp only [hs, if_neg hlt] at h
        cases h
        exact .inr ⟨a, _, [], rfl, rfl, fun h => absurd h hlt⟩

end Parser

namespace Grammar

open LazyDecl.Parser

variable {p : Parser Expr} {i j : Input} {e : Expr}

/-! ## Operators -/

/-- One operator of a level with its right operand. -/
def joinStep (level : Level) (p : Parser Expr) : Parser (Option ((Expr → Expr → Expr) × Expr)) := do
  match ← take? .visible (infixNode? level) with
  | some (node, operator) => return some (node operator, ← p)
  | none => return none

/-- The tree of a first operand and of the operators and operands behind it. -/
def joinAll (first : Expr) (joined : List ((Expr → Expr → Expr) × Expr)) : Expr :=
  joined.foldl (fun left (node, right) => node left right) first

theorem infixNode?_eof (level : Level) : infixNode? level .eof = none := by
  cases level <;> rfl

theorem infixLevel_eq_ok {level : Level} :
    infixLevel level p i = .ok e j ↔ ∃ first k joined, p i = .ok first k ∧
      many (joinStep level p) k = .ok joined j ∧ e = joinAll first joined := by
  have h : infixLevel level p = p >>= fun first => many (joinStep level p) >>= fun joined =>
      pure (joinAll first joined) := rfl
  rw [h, bind_eq_ok]
  constructor
  · rintro ⟨first, k, hf, hk⟩
    obtain ⟨joined, m, hm, hr⟩ := bind_eq_ok.1 hk
    obtain ⟨rfl, rfl⟩ := pure_eq_ok.1 hr
    exact ⟨first, k, joined, hf, hm, rfl⟩
  · rintro ⟨first, k, joined, hf, hm, rfl⟩
    exact ⟨first, k, hf, bind_eq_ok.2 ⟨joined, j, hm, rfl⟩⟩

theorem joinStep_eq_none {level : Level} :
    joinStep level p i = .ok none j ↔ infixNode? level (i.peek .visible).kind = none ∧ j = i := by
  rw [← take?_eq_none (v := .visible), joinStep, bind_eq_ok]
  constructor
  · rintro ⟨_ | ⟨node, t⟩, m, ht, hm⟩
    · obtain ⟨-, rfl⟩ := pure_eq_ok.1 hm
      exact ht
    · obtain ⟨_, _, -, h⟩ := bind_eq_ok.1 hm
      exact absurd (pure_eq_ok.1 h).1 nofun
  · intro h
    exact ⟨none, j, h, rfl⟩

theorem joinStep_eq_some {level : Level} {node : Expr → Expr → Expr} {right : Expr} :
    joinStep level p i = .ok (some (node, right)) j ↔ ∃ t k nodeOf,
      infixNode? level t.kind = some nodeOf ∧ i.Takes .visible t k ∧ p k = .ok right j ∧
        node = nodeOf t := by
  rw [joinStep, bind_eq_ok]
  constructor
  · rintro ⟨_ | ⟨nodeOf, t⟩, k, ht, hk⟩
    · exact absurd (pure_eq_ok.1 hk).1 nofun
    · obtain ⟨right, m, hp, hm⟩ := bind_eq_ok.1 hk
      obtain ⟨h, rfl⟩ := pure_eq_ok.1 hm
      cases h
      obtain ⟨hn, ht⟩ := (take?_eq_some (infixNode?_eof level)).1 ht
      exact ⟨t, k, nodeOf, hn, ht, hp, rfl⟩
  · rintro ⟨t, k, nodeOf, hn, ht, hp, rfl⟩
    exact ⟨_, k, (take?_eq_some (infixNode?_eof level)).2 ⟨hn, ht⟩,
      bind_eq_ok.2 ⟨right, j, hp, rfl⟩⟩

/-! ## Statements and builders -/

/-- What is left behind the end of a unit, if the unit ends here. -/
def endUnit (inBuilder : Bool) (i : Input) : Option Input :=
  if i.isAtEnd .hidden || i.skipped then some i
  else if (i.peek .hidden).kind = .semicolon || (i.peek .hidden).kind = .eol then
    some (i.advance .hidden).2
  else if inBuilder && (i.peek .hidden).kind = .rightBrace then some i
  else none

/-- The end of a unit takes nothing, or the mark that makes it. -/
theorem endUnit_eq_some {inBuilder : Bool} (h : endUnit inBuilder i = some j) :
    j = i ∨ ∃ t, (t.kind = .semicolon ∨ t.kind = .eol) ∧ i.Takes .hidden t j := by
  unfold endUnit at h
  split at h
  · cases h
    exact .inl rfl
  split at h
  · rename_i hk
    cases h
    simp only [Bool.or_eq_true, decide_eq_true_eq] at hk
    refine .inr ⟨_, hk, Input.takes_peek ?_⟩
    rcases hk with hk | hk <;> simp [hk]
  split at h
  · cases h
    exact .inl rfl
  · cases h

/-- What the end of a unit comes to. -/
theorem unitEnd_apply (inBuilder : Bool) (cause : SyntaxCause) (i : Input) :
    unitEnd inBuilder cause i = match endUnit inBuilder i with
      | some j => .ok () j
      | none => .error ⟨cause, i.peek .hidden⟩ i := by
  have h : unitEnd inBuilder cause i = (if i.isAtEnd .hidden || i.skipped then pure ()
      else if (i.peek .hidden).kind = .semicolon || (i.peek .hidden).kind = .eol then
        advance .hidden >>= fun _ => pure ()
      else if inBuilder && (i.peek .hidden).kind = .rightBrace then pure ()
      else fail cause (i.peek .hidden) : Parser Unit) i := rfl
  rw [h, endUnit]
  split
  · rfl
  split
  · rw [advance_bind_apply]
    rfl
  split
  · rfl
  · rfl

theorem unitEnd_eq_ok {inBuilder : Bool} {cause : SyntaxCause} {u : Unit} :
    unitEnd inBuilder cause i = .ok u j ↔ endUnit inBuilder i = some j := by
  rw [unitEnd_apply]
  cases endUnit inBuilder i with
  | none => simp
  | some k => simp

theorem statementOver_eq_ok {inBuilder : Bool} {s : Statement} :
    statementOver p inBuilder i = .ok s j ↔ ∃ k m, s.tag.kind = .identifier ∧
      i.Takes .visible s.tag k ∧ expressionOver p k = .ok s.value m ∧
        endUnit inBuilder m = some j := by
  have hid : TokenKind.identifier ≠ .eof := by decide
  obtain ⟨tag, value⟩ := s
  rw [statementOver, bind_eq_ok]
  constructor
  · rintro ⟨tag, k, ht, hk⟩
    obtain ⟨value, m, hv, hm⟩ := bind_eq_ok.1 hk
    obtain ⟨_, _, hu, hr⟩ := bind_eq_ok.1 hm
    obtain ⟨h, rfl⟩ := pure_eq_ok.1 hr
    cases h
    obtain ⟨hkind, ht⟩ := (expect_eq_ok hid).1 ht
    exact ⟨k, m, hkind, ht, hv, unitEnd_eq_ok.1 hu⟩
  · rintro ⟨k, m, hkind, ht, hv, hm⟩
    exact ⟨tag, k, (expect_eq_ok hid).2 ⟨hkind, ht⟩, bind_eq_ok.2 ⟨value, m, hv,
      bind_eq_ok.2 ⟨(), j, unitEnd_eq_ok.2 hm, rfl⟩⟩⟩

/-- In front of a token that is no name, a statement fails before it takes anything. -/
theorem statementOver_stray (inBuilder : Bool) (h : (i.peek .visible).kind ≠ .identifier) :
    statementOver p inBuilder i = .error ⟨.expectedTag, i.peek .visible⟩ i := by
  unfold statementOver
  rw [bind_apply, expect_eq_error (by decide) _ h]

/-- One statement of a builder, or none in front of its closing brace. -/
def bodyStep (p : Parser Expr) : Parser (Option Statement) := do
  let i ← get
  if i.check .visible .rightBrace || i.isAtEnd .visible then return none
  else return some (← statementOver p true)

theorem bodyStep_apply (p : Parser Expr) (i : Input) :
    bodyStep p i = if i.check .visible .rightBrace || i.isAtEnd .visible then .ok none i
      else (statementOver p true >>= fun s => pure (some s)) i := by
  have h : bodyStep p i = (if i.check .visible .rightBrace || i.isAtEnd .visible then pure none
      else statementOver p true >>= fun s => pure (some s) : Parser (Option Statement)) i := rfl
  rw [h]
  split <;> rfl

theorem bodyStep_eq_none :
    bodyStep p i = .ok none j ↔
      ((i.peek .visible).kind = .rightBrace ∨ (i.peek .visible).kind = .eof) ∧ j = i := by
  rw [bodyStep_apply, ← Input.check_iff (by decide)]
  have he : i.isAtEnd .visible = true ↔ (i.peek .visible).kind = .eof := decide_eq_true_iff
  rw [← he, ← Bool.or_eq_true]
  split
  · rename_i h
    simp [h, eq_comm]
  · rename_i h
    refine ⟨fun hs => ?_, fun h' => absurd h'.1 h⟩
    obtain ⟨_, _, -, hm⟩ := bind_eq_ok.1 hs
    exact absurd (pure_eq_ok.1 hm).1 nofun

theorem bodyStep_eq_some {s : Statement} :
    bodyStep p i = .ok (some s) j ↔ statementOver p true i = .ok s j := by
  have hs : (statementOver p true >>= fun s => pure (some s)) i = .ok (some s) j ↔
      statementOver p true i = .ok s j := by
    rw [bind_eq_ok]
    constructor
    · rintro ⟨_, _, h, hm⟩
      obtain ⟨h', rfl⟩ := pure_eq_ok.1 hm
      cases h'
      exact h
    · intro h
      exact ⟨s, j, h, rfl⟩
  rw [bodyStep_apply]
  split
  · rename_i h
    refine ⟨nofun, fun h' => ?_⟩
    -- a statement starts with a name, which neither closes a builder nor ends the input
    obtain ⟨k, m, hk, ht, -, -⟩ := statementOver_eq_ok.1 h'
    simp [Input.check, Input.isAtEnd, ht.peek_eq, hk] at h
  · exact hs

theorem builderOver_apply (p : Parser Expr) (kind : Token) (i : Input) :
    builderOver p kind i = (many (bodyStep p) >>= fun body =>
      expect .rightBrace .expectedCloseBrace >>= fun _ => pure (.builder kind body))
        (i.advance .visible).2 :=
  advance_bind_apply .visible _ i

theorem builderOver_eq_ok {kind : Token} :
    builderOver p kind i = .ok e j ↔ ∃ body k t,
      many (bodyStep p) (i.advance .visible).2 = .ok body k ∧ t.kind = .rightBrace ∧
        k.Takes .visible t j ∧ e = .builder kind body := by
  have hbrace : TokenKind.rightBrace ≠ .eof := by decide
  rw [builderOver_apply]
  refine bind_eq_ok.trans ?_
  constructor
  · rintro ⟨body, k, hb, hk⟩
    obtain ⟨t, m, ht, hr⟩ := bind_eq_ok.1 hk
    obtain ⟨rfl, rfl⟩ := pure_eq_ok.1 hr
    obtain ⟨hkind, ht⟩ := (expect_eq_ok hbrace).1 ht
    exact ⟨body, k, t, hb, hkind, ht, rfl⟩
  · rintro ⟨body, k, t, hb, hkind, ht, rfl⟩
    exact ⟨body, k, hb, bind_eq_ok.2 ⟨t, j, (expect_eq_ok hbrace).2 ⟨hkind, ht⟩, rfl⟩⟩

/-! ## Sequences -/

/-- Whether separators come next, and what is left behind them. -/
def separated (i : Input) : Bool × Input :=
  if isSeparator (i.peek .hidden).kind then
    (true, { i with rest := i.rest.dropWhile (isSeparator ·.kind), skipped := false })
  else (i.skipped, i)

theorem dropWhile_separators (h : isSeparator (i.peek .hidden).kind = false) :
    i.rest.dropWhile (isSeparator ·.kind) = i.rest := by
  cases hr : i.rest with
  | nil => rfl
  | cons t ts =>
    have hp : i.peek .hidden = t := by simp [Input.peek, hr]
    simp [← hp, h]

theorem separated_snd (h : i.skipped = false) :
    (separated i).2 =
      { i with rest := i.rest.dropWhile (isSeparator ·.kind), skipped := false } := by
  unfold separated
  split
  · rfl
  · rename_i hs
    rw [dropWhile_separators (Bool.not_eq_true _ ▸ hs), ← h]

theorem many_separators (i : Input) :
    ∃ run, many (take? .hidden fun kind => if isSeparator kind then some () else none) i =
      .ok run (separated i).2 ∧ (i.skipped || !run.isEmpty) = (separated i).1 := by
  generalize hn : i.size = n
  induction n using Nat.strongRecOn generalizing i with
  | _ n ih =>
    cases hs : isSeparator (i.peek .hidden).kind with
    | false =>
      refine ⟨[], ?_, by simp [separated, hs]⟩
      rw [many_none (j := i) (take?_eq_none.2 ⟨by simp [hs], rfl⟩)]
      simp [separated, hs]
    | true =>
      have hlive : (i.peek .hidden).kind ≠ .eof := by
        intro he
        rw [he] at hs
        cases hs
      have ht := Input.takes_peek hlive
      obtain ⟨run, hrun, -⟩ := ih _ (hn ▸ ht.size_lt) _ rfl
      have hstep := (take?_eq_some (a := ())
        (f := fun kind => if isSeparator kind then some () else none) rfl).2 ⟨by simp [hs], ht⟩
      refine ⟨((), i.peek .hidden) :: run, ?_, by simp [separated, hs]⟩
      rw [(many_some hstep ht.size_lt).2 ⟨_, rfl, hrun⟩]
      obtain ⟨-, ts, hts, hj⟩ := Input.takes_iff.1 ht
      rw [View.ahead_hidden] at hts
      rw [hj, separated_snd rfl]
      simp [separated, hs, hts]

theorem separators_apply (i : Input) :
    separators i = .ok (separated i).1 (separated i).2 := by
  obtain ⟨run, hrun, hfound⟩ := many_separators i
  have h : separators i = (many (take? .hidden fun kind =>
      if isSeparator kind then some () else none) >>= fun run =>
        pure (i.skipped || !run.isEmpty) : Parser Bool) i := rfl
  rw [h]
  exact bind_eq_ok.2 ⟨run, _, hrun, hfound ▸ rfl⟩

/-- One element behind the first one of a sequence, or none where the sequence ends. -/
def elementStep (p : Parser Expr) (first : Expr) : Parser (Option Expr) := do
  if (← separators) && !(← check .visible .rightBracket) then
    return some (← elementOver p first)
  else return none

theorem elementStep_apply (p : Parser Expr) (first : Expr) (i : Input) :
    elementStep p first i =
      if (separated i).1 && !(separated i).2.check .visible .rightBracket then
        (elementOver p first >>= fun e => pure (some e)) (separated i).2
      else .ok none (separated i).2 := by
  have h : elementStep p first = separators >>= fun found =>
      check .visible .rightBracket >>= fun closes =>
        if found && !closes then elementOver p first >>= fun e => pure (some e)
        else pure none := rfl
  rw [h, bind_apply, separators_apply]
  dsimp only
  have hc : check .visible .rightBracket (separated i).2 =
      .ok ((separated i).2.check .visible .rightBracket) (separated i).2 := rfl
  rw [bind_apply, hc]
  dsimp only
  split <;> rfl

theorem elementOver_eq_ok {first : Expr} :
    elementOver p first i = .ok e j ↔
      expressionOver p i = .ok e j ∧ e.isBinding = first.isBinding := by
  have h : elementOver p first = expressionOver p >>= fun element =>
      if first.isBinding && !element.isBinding then fail .expectedEntry element.anchor
      else if !first.isBinding && element.isBinding then fail .expectedElement element.anchor
      else pure element := rfl
  rw [h, bind_eq_ok]
  constructor
  · rintro ⟨element, m, he, hm⟩
    cases hf : first.isBinding <;> cases hb : element.isBinding <;> simp [hf, hb] at hm
    · obtain ⟨rfl, rfl⟩ := pure_eq_ok.1 hm
      exact ⟨he, hb⟩
    · exact absurd hm fail_ne_ok
    · exact absurd hm fail_ne_ok
    · obtain ⟨rfl, rfl⟩ := pure_eq_ok.1 hm
      exact ⟨he, hb⟩
  · rintro ⟨he, hb⟩
    refine ⟨e, j, he, ?_⟩
    rw [hb]
    cases first.isBinding <;> rfl

theorem elementStep_eq_none {first : Expr} :
    elementStep p first i = .ok none j ↔
      ((separated i).1 = false ∨ ((separated i).2.peek .visible).kind = .rightBracket) ∧
        j = (separated i).2 := by
  rw [elementStep_apply, ← Input.check_iff (by decide)]
  split
  · rename_i h
    rw [Bool.and_eq_true, Bool.not_eq_true'] at h
    refine ⟨fun hs => ?_, fun h' => ?_⟩
    · obtain ⟨_, _, -, hm⟩ := bind_eq_ok.1 hs
      exact absurd (pure_eq_ok.1 hm).1 nofun
    · simp [h.1, h.2] at h'
  · rename_i h
    have hd : (separated i).1 = false ∨ (separated i).2.check .visible .rightBracket = true := by
      cases hf : (separated i).1
      · exact .inl rfl
      · simpa [hf] using h
    refine ⟨fun hs => ?_, fun h' => h'.2 ▸ rfl⟩
    cases hs
    exact ⟨hd, rfl⟩

theorem elementStep_eq_some {first : Expr} :
    elementStep p first i = .ok (some e) j ↔ (separated i).1 = true ∧
      ((separated i).2.peek .visible).kind ≠ .rightBracket ∧
        expressionOver p (separated i).2 = .ok e j ∧ e.isBinding = first.isBinding := by
  rw [elementStep_apply, ← elementOver_eq_ok, ← Input.check_eq_false (by decide)]
  split
  · rename_i h
    rw [Bool.and_eq_true, Bool.not_eq_true'] at h
    refine ⟨fun hs => ?_, fun h' => bind_eq_ok.2 ⟨e, j, h'.2.2, rfl⟩⟩
    obtain ⟨_, _, he, hm⟩ := bind_eq_ok.1 hs
    obtain ⟨h', rfl⟩ := pure_eq_ok.1 hm
    cases h'
    exact ⟨h.1, h.2, he⟩
  · rename_i h
    refine ⟨nofun, fun h' => ?_⟩
    simp [h'.1, h'.2.1] at h

theorem sequenceOver_eq_ok {opening : Token} :
    sequenceOver p opening i = .ok e j ↔
      (∃ t, t.kind = .rightBracket ∧ i.Takes .visible t j ∧ e = .sequence opening []) ∨
      ((i.peek .visible).kind ≠ .rightBracket ∧ ∃ first k others m t,
        expressionOver p i = .ok first k ∧ many (elementStep p first) k = .ok others m ∧
          t.kind = .rightBracket ∧ m.Takes .visible t j ∧
            e = .sequence opening (first :: others)) := by
  have hb : TokenKind.rightBracket ≠ .eof := by decide
  have h : sequenceOver p opening = accept .rightBracket >>= fun closing =>
      if closing.isSome then pure (.sequence opening []) else
        expressionOver p >>= fun first => many (elementStep p first) >>= fun others =>
          expect .rightBracket .expectedCloseBracket >>= fun _ =>
            pure (.sequence opening (first :: others)) := rfl
  rw [h, bind_eq_ok]
  constructor
  · rintro ⟨_ | t, k, hc, hk⟩
    · obtain ⟨hc, rfl⟩ := (accept_eq_none hb).1 hc
      obtain ⟨first, k, hf, hk⟩ := bind_eq_ok.1 hk
      obtain ⟨others, m, ho, hm⟩ := bind_eq_ok.1 hk
      obtain ⟨t, _, ht, hr⟩ := bind_eq_ok.1 hm
      obtain ⟨rfl, rfl⟩ := pure_eq_ok.1 hr
      obtain ⟨hkind, ht⟩ := (expect_eq_ok hb).1 ht
      exact .inr ⟨hc, first, k, others, m, t, hf, ho, hkind, ht, rfl⟩
    · obtain ⟨hkind, ht⟩ := (accept_eq_some hb).1 hc
      obtain ⟨rfl, rfl⟩ := pure_eq_ok.1 hk
      exact .inl ⟨t, hkind, ht, rfl⟩
  · rintro (⟨t, hkind, ht, rfl⟩ | ⟨hc, first, k, others, m, t, hf, ho, hkind, ht, rfl⟩)
    · exact ⟨some t, j, (accept_eq_some hb).2 ⟨hkind, ht⟩, rfl⟩
    · exact ⟨none, i, (accept_eq_none hb).2 ⟨hc, rfl⟩, bind_eq_ok.2 ⟨first, k, hf,
        bind_eq_ok.2 ⟨others, m, ho, bind_eq_ok.2 ⟨t, j, (expect_eq_ok hb).2 ⟨hkind, ht⟩, rfl⟩⟩⟩⟩

/-! ## Operands -/

/-- What a literal token amounts to once it is taken. -/
def readLiteral (t : Token) : Except SyntaxCause Literal → Parser Expr
  | .ok value => pure (.literal value t)
  | .error cause => fail cause t

theorem primaryOver_literal (p : Parser Expr) {i : Input} {read : Except SyntaxCause Literal}
    (h : literal? (i.peek .visible) = some read) :
    primaryOver p i = (advance .visible >>= fun _ => readLiteral (i.peek .visible) read) i := by
  rw [primaryOver, peek_bind_apply, h]
  cases read <;> rfl

/-- What a token other than a literal opens. -/
def opened (p : Parser Expr) (t : Token) : TokenKind → Parser Expr
  | .identifier => advance .visible >>= fun _ => nameOver p t
  | .leftParen => advance .visible >>= fun _ => expressionOver p >>= fun inner =>
      expect .rightParen .expectedCloseParen >>= fun _ => pure (.grouping inner)
  | .leftBracket => advance .visible >>= fun _ => sequenceOver p t
  | _ => fail .expectedExpression t

theorem primaryOver_other (p : Parser Expr) {i : Input} {kind : TokenKind}
    (hl : literal? (i.peek .visible) = none) (hk : (i.peek .visible).kind = kind) :
    primaryOver p i = opened p (i.peek .visible) kind i := by
  rw [primaryOver, peek_bind_apply, hl, hk]
  cases kind <;> rfl

/-- Tokens of four kinds denote literals. -/
theorem literal?_kind {t : Token} {read : Except SyntaxCause Literal}
    (h : literal? t = some read) :
    (∃ b, t.kind = .boolean b) ∨ t.kind = .string ∨ t.kind = .integer ∨ t.kind = .decimal := by
  unfold literal? at h
  split at h
  · next b hk => exact .inl ⟨b, hk⟩
  · next hk => exact .inr (.inl hk)
  · next hk => exact .inr (.inr (.inl hk))
  · next hk => exact .inr (.inr (.inr hk))
  · cases h

theorem literal?_live {t : Token} {read : Except SyntaxCause Literal}
    (h : literal? t = some read) : t.kind ≠ .eof := by
  intro he
  simp [literal?, he] at h

theorem literal?_none {t : Token}
    (h : t.kind = .identifier ∨ t.kind = .leftParen ∨ t.kind = .leftBracket) :
    literal? t = none := by
  rcases h with h | h | h <;> simp [literal?, h]

theorem primaryOver_identifier (p : Parser Expr) (h : (i.peek .visible).kind = .identifier) :
    primaryOver p i = (advance .visible >>= fun _ => nameOver p (i.peek .visible)) i :=
  primaryOver_other p (literal?_none (.inl h)) h

theorem primaryOver_leftParen (p : Parser Expr) (h : (i.peek .visible).kind = .leftParen) :
    primaryOver p i = (advance .visible >>= fun _ => expressionOver p >>= fun inner =>
      expect .rightParen .expectedCloseParen >>= fun _ => pure (.grouping inner)) i :=
  primaryOver_other p (literal?_none (.inr (.inl h))) h

theorem primaryOver_leftBracket (p : Parser Expr) (h : (i.peek .visible).kind = .leftBracket) :
    primaryOver p i = (advance .visible >>= fun _ => sequenceOver p (i.peek .visible)) i :=
  primaryOver_other p (literal?_none (.inr (.inr h))) h

theorem primaryOver_unexpected (p : Parser Expr) (hl : literal? (i.peek .visible) = none)
    (hi : (i.peek .visible).kind ≠ .identifier) (hp : (i.peek .visible).kind ≠ .leftParen)
    (hb : (i.peek .visible).kind ≠ .leftBracket) :
    primaryOver p i = fail .expectedExpression (i.peek .visible) i := by
  rw [primaryOver_other p hl rfl]
  cases hk : (i.peek .visible).kind with
  | identifier => exact absurd hk hi
  | leftParen => exact absurd hk hp
  | leftBracket => exact absurd hk hb
  | _ => rfl

theorem nameOver_apply (p : Parser Expr) (t : Token) (i : Input) :
    nameOver p t i = (if !i.skipped && i.check .hidden .leftBrace then builderOver p t
      else pure (.name t) : Parser Expr) i := rfl

theorem nameOver_eq_ok {t : Token} :
    nameOver p t i = .ok e j ↔
      ((!i.skipped && i.check .hidden .leftBrace) = false ∧ e = .name t ∧ j = i) ∨
      ((!i.skipped && i.check .hidden .leftBrace) = true ∧ builderOver p t i = .ok e j) := by
  rw [nameOver_apply]
  cases !i.skipped && i.check .hidden .leftBrace with
  | false => simp [pure_eq_ok]
  | true => simp

/-- The ways in which a primary starts. -/
theorem primaryOver_eq_ok :
    primaryOver p i = .ok e j ↔
      (∃ t value, literal? t = some (.ok value) ∧ i.Takes .visible t j ∧ e = .literal value t) ∨
      (∃ t k, t.kind = .identifier ∧ i.Takes .visible t k ∧ nameOver p t k = .ok e j) ∨
      (∃ t k inner m u, t.kind = .leftParen ∧ i.Takes .visible t k ∧
        expressionOver p k = .ok inner m ∧ u.kind = .rightParen ∧ m.Takes .visible u j ∧
          e = .grouping inner) ∨
      (∃ t k, t.kind = .leftBracket ∧ i.Takes .visible t k ∧ sequenceOver p t k = .ok e j) := by
  have hc : TokenKind.rightParen ≠ .eof := by decide
  constructor
  · intro h
    cases hl : literal? (i.peek .visible) with
    | some read =>
      rw [primaryOver_literal p hl, advance_bind_apply] at h
      cases read with
      | ok value =>
        obtain ⟨rfl, rfl⟩ := pure_eq_ok.1 h
        exact .inl ⟨_, value, hl, Input.takes_peek (literal?_live hl), rfl⟩
      | error cause => exact absurd h fail_ne_ok
    | none =>
      by_cases hi : (i.peek .visible).kind = .identifier
      · rw [primaryOver_identifier p hi, advance_bind_apply] at h
        exact .inr (.inl ⟨_, _, hi, Input.takes_peek (by simp [hi]), h⟩)
      by_cases hp : (i.peek .visible).kind = .leftParen
      · rw [primaryOver_leftParen p hp, advance_bind_apply] at h
        obtain ⟨inner, m, he, hm⟩ := bind_eq_ok.1 h
        obtain ⟨u, _, hu, hr⟩ := bind_eq_ok.1 hm
        obtain ⟨rfl, rfl⟩ := pure_eq_ok.1 hr
        obtain ⟨hkind, hu⟩ := (expect_eq_ok hc).1 hu
        exact .inr (.inr (.inl ⟨_, _, inner, m, u, hp, Input.takes_peek (by simp [hp]), he,
          hkind, hu, rfl⟩))
      by_cases hb : (i.peek .visible).kind = .leftBracket
      · rw [primaryOver_leftBracket p hb, advance_bind_apply] at h
        exact .inr (.inr (.inr ⟨_, _, hb, Input.takes_peek (by simp [hb]), h⟩))
      · rw [primaryOver_unexpected p hl hi hp hb] at h
        exact absurd h fail_ne_ok
  · rintro (⟨t, value, hl, ht, rfl⟩ | ⟨t, k, hk, ht, hn⟩ |
      ⟨t, k, inner, m, u, hk, ht, he, hkind, hu, rfl⟩ | ⟨t, k, hk, ht, hs⟩)
    · rw [primaryOver_literal p (ht.peek_eq ▸ hl), advance_bind_apply, ht.advance, ht.peek_eq]
      rfl
    · rw [primaryOver_identifier p (ht.peek_eq ▸ hk), advance_bind_apply, ht.advance, ht.peek_eq]
      exact hn
    · rw [primaryOver_leftParen p (ht.peek_eq ▸ hk), advance_bind_apply, ht.advance]
      exact bind_eq_ok.2 ⟨inner, m, he, bind_eq_ok.2 ⟨u, j, (expect_eq_ok hc).2 ⟨hkind, hu⟩, rfl⟩⟩
    · rw [primaryOver_leftBracket p (ht.peek_eq ▸ hk), advance_bind_apply, ht.advance, ht.peek_eq]
      exact hs

theorem bindingOver_eq_ok :
    bindingOver p i = .ok e j ↔ ∃ left k, primaryOver p i = .ok left k ∧
      (((k.peek .visible).kind ≠ .colon ∧ e = left ∧ j = k) ∨
        ∃ colon m right, colon.kind = .colon ∧ k.Takes .visible colon m ∧
          expressionOver p m = .ok right j ∧ e = .binding left colon right) := by
  have hc : TokenKind.colon ≠ .eof := by decide
  rw [bindingOver, bind_eq_ok]
  constructor
  · rintro ⟨left, k, hl, hk⟩
    obtain ⟨_ | colon, m, ha, hm⟩ := bind_eq_ok.1 hk
    · obtain ⟨hn, rfl⟩ := (accept_eq_none hc).1 ha
      obtain ⟨rfl, rfl⟩ := pure_eq_ok.1 hm
      exact ⟨_, _, hl, .inl ⟨hn, rfl, rfl⟩⟩
    · obtain ⟨hkind, ht⟩ := (accept_eq_some hc).1 ha
      obtain ⟨right, _, hr, hm⟩ := bind_eq_ok.1 hm
      obtain ⟨rfl, rfl⟩ := pure_eq_ok.1 hm
      exact ⟨left, k, hl, .inr ⟨colon, m, right, hkind, ht, hr, rfl⟩⟩
  · rintro ⟨left, k, hl, ⟨hn, rfl, rfl⟩ | ⟨colon, m, right, hkind, ht, hr, rfl⟩⟩
    · exact ⟨_, _, hl, bind_eq_ok.2 ⟨none, _, (accept_eq_none hc).2 ⟨hn, rfl⟩, rfl⟩⟩
    · exact ⟨left, k, hl, bind_eq_ok.2 ⟨some colon, m, (accept_eq_some hc).2 ⟨hkind, ht⟩,
        bind_eq_ok.2 ⟨right, j, hr, rfl⟩⟩⟩

theorem prefixOp?_eof : prefixOp? .eof = none := rfl

theorem operandOver_eq_ok :
    operandOver p i = .ok e j ↔
      (∃ t op k inner, prefixOp? t.kind = some op ∧ i.Takes .visible t k ∧ p k = .ok inner j ∧
        e = .unary op t inner) ∨
      (prefixOp? (i.peek .visible).kind = none ∧ bindingOver p i = .ok e j) := by
  rw [operandOver, bind_eq_ok]
  constructor
  · rintro ⟨_ | ⟨op, t⟩, k, ht, hk⟩
    · obtain ⟨hn, rfl⟩ := take?_eq_none.1 ht
      exact .inr ⟨hn, hk⟩
    · obtain ⟨ho, ht⟩ := (take?_eq_some prefixOp?_eof).1 ht
      obtain ⟨inner, _, hp, hm⟩ := bind_eq_ok.1 hk
      obtain ⟨rfl, rfl⟩ := pure_eq_ok.1 hm
      exact .inl ⟨t, op, k, inner, ho, ht, hp, rfl⟩
  · rintro (⟨t, op, k, inner, ho, ht, hp, rfl⟩ | ⟨hn, hb⟩)
    · exact ⟨_, k, (take?_eq_some prefixOp?_eof).2 ⟨ho, ht⟩, bind_eq_ok.2 ⟨inner, j, hp, rfl⟩⟩
    · exact ⟨none, i, take?_eq_none.2 ⟨hn, rfl⟩, hb⟩

/-! ## Units -/

theorem item_apply (i : Input) :
    item i = (if opensStatement i then statement >>= fun s => pure (.statement s)
      else expression >>= fun e => unitEnd false .expectedExpressionEnd >>= fun _ =>
        pure (.expression e) : Parser Item) i := rfl

section Units

variable {α : Type} {unit : Parser α}

theorem turn_eq_ok {a : α} : turn unit i = (.ok a, j) ↔ unit i = .ok a j := by
  unfold turn
  cases unit i with
  | ok b k => simp
  | error e k => simp

theorem turn_eq_error {e : SyntaxError} :
    (turn unit i).1 = .error e ↔ ∃ j, unit i = .error e j := by
  unfold turn
  cases unit i with
  | ok a k => simp
  | error e k => simp

theorem unitStart_suffix (mode : Mode) (i : Input) : (unitStart mode i).rest <:+ i.rest := by
  cases mode with
  | batch => exact List.suffix_refl _
  | interactive => exact List.dropWhile_suffix _

theorem unitStart_size_le (mode : Mode) (i : Input) : (unitStart mode i).size ≤ i.size :=
  (unitStart_suffix mode i).length_le

theorem units_nil {mode : Mode} (h : i.isAtEnd .visible = true) : units mode unit i = [] := by
  rw [units, if_pos h]

theorem units_cons {mode : Mode} (h : i.isAtEnd .visible = false)
    (hlt : (turn unit (unitStart mode i)).2.size < i.size) :
    units mode unit i = (turn unit (unitStart mode i)).1 ::
      units mode unit (turn unit (unitStart mode i)).2 := by
  rw [units, h]
  exact if_pos hlt

theorem units_ok {mode : Mode} {a : α} (h : i.isAtEnd .visible = false)
    (hu : unit (unitStart mode i) = .ok a j) (hlt : j.size < i.size) :
    units mode unit i = .ok a :: units mode unit j := by
  have ht := turn_eq_ok.2 hu
  rw [units_cons h (by rw [ht]; exact hlt), ht]

/-- To prove something of all inputs, prove it of every input of which the rest behind the
first unit has it. -/
@[elab_as_elim]
theorem units_induction (mode : Mode) (unit : Parser α) {motive : Input → Prop}
    (next : ∀ i, ((turn unit (unitStart mode i)).2.size < i.size →
      motive (turn unit (unitStart mode i)).2) → motive i) (i : Input) : motive i :=
  next i fun _ => units_induction mode unit next _
termination_by i.size

/-- Every result comes from a turn of the unit parser. -/
theorem mem_units {mode : Mode} {r : Except SyntaxError α} (h : r ∈ units mode unit i) :
    ∃ j, r = (turn unit j).1 := by
  induction i using units_induction mode unit with
  | next i ih =>
    rw [units] at h
    split at h
    · cases h
    · dsimp only at h
      split at h
      · rename_i hlt
        rcases List.mem_cons.1 h with rfl | h
        · exact ⟨_, rfl⟩
        · exact ih hlt h
      · rw [List.mem_singleton] at h
        exact ⟨_, h⟩

theorem mem_accepted {a : α} {results : List (Except SyntaxError α)} :
    a ∈ accepted results ↔ .ok a ∈ results := by
  simp only [accepted, List.mem_filterMap]
  constructor
  · rintro ⟨_ | b, hr, h⟩
    · cases h
    · cases h
      exact hr
  · intro h
    exact ⟨_, h, rfl⟩

theorem accepted_units {mode : Mode} {a : α} (h : a ∈ accepted (units mode unit i)) :
    ∃ j k, unit j = .ok a k := by
  obtain ⟨j, hj⟩ := mem_units (mem_accepted.1 h)
  exact ⟨j, (turn unit j).2, turn_eq_ok.1 (Prod.ext hj.symm rfl)⟩

theorem mem_rejected {e : SyntaxError} {results : List (Except SyntaxError α)} :
    e ∈ rejected results ↔ .error e ∈ results := by
  simp only [rejected, List.mem_filterMap]
  constructor
  · rintro ⟨_ | a, hr, h⟩
    · cases h
      exact hr
    · cases h
  · intro h
    exact ⟨_, h, rfl⟩

theorem rejected_units {mode : Mode} {e : SyntaxError} (h : e ∈ rejected (units mode unit i)) :
    ∃ j k, unit j = .error e k := by
  obtain ⟨j, hj⟩ := mem_units (mem_rejected.1 h)
  exact ⟨j, turn_eq_error.1 hj.symm⟩

/-- All that can be seen from here on is the units `as`, one behind the other. -/
inductive UnitsRead (mode : Mode) (unit : Parser α) : Input → List α → Prop
  | done {i : Input} : i.isAtEnd .visible = true → UnitsRead mode unit i []
  | cons {i j : Input} {a : α} {as : List α} : i.isAtEnd .visible = false →
      unit (unitStart mode i) = .ok a j → UnitsRead mode unit j as →
      UnitsRead mode unit i (a :: as)

/-- Without an error, the units that are accepted are all that there is. -/
theorem unitsRead_of_rejected {mode : Mode}
    (hlt : ∀ i a j, unit i = .ok a j → j.size < i.size)
    (h : rejected (units mode unit i) = []) :
    UnitsRead mode unit i (accepted (units mode unit i)) := by
  induction i using units_induction mode unit with
  | next i ih =>
    cases hend : i.isAtEnd .visible with
    | true =>
      rw [units_nil hend]
      exact .done hend
    | false =>
      cases hu : unit (unitStart mode i) with
      | error e j =>
        rw [units, if_neg (by simp [hend])] at h
        simp only [turn, hu] at h
        split at h <;> cases h
      | ok a j =>
        have hj : j.size < i.size := Nat.lt_of_lt_of_le (hlt _ _ _ hu) (unitStart_size_le mode i)
        rw [turn_eq_ok.2 hu] at ih
        rw [units_ok hend hu hj] at h ⊢
        exact .cons hend hu (ih hj h)

/-- Units that stand one behind the other are read as such. -/
theorem UnitsRead.units_eq {mode : Mode} {as : List α}
    (hlt : ∀ i a j, unit i = .ok a j → j.size < i.size) (h : UnitsRead mode unit i as) :
    units mode unit i = as.map .ok := by
  induction h with
  | done hend => exact units_nil hend
  | cons hend hu _ ih =>
    rw [units_ok hend hu (Nat.lt_of_lt_of_le (hlt _ _ _ hu) (unitStart_size_le mode _)), ih]
    rfl

end Units

end Grammar

end LazyDecl
