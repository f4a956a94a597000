import LazyDecl.Proofs.Grammar.SideBySide

/-!
The grammar on a line alone and on the same line in front of more. The line has no semicolon,
and behind its end a name follows, with which no expression goes on.

* `OneLine c n i i'`: `i` is what is left of the line alone, `i'` is what is left of it in
  front of the continuation `c`; `n` bounds how much it is;
* `Agrees c n r r'`: what comes of the line alone comes of it in front of `c`, unless that is
  an error behind its last token;
* `lineParser_statement`, `lineParser_item`: so it does of a whole unit, whatever nests in it,
  and a unit leaves nothing of its line.
-/

namespace LazyDecl.Grammar

open LazyDecl.Parser

structure OneLine (c : Continuation) (n : Nat) (i i' : Input) : Prop where
  seam : Seam c i i'
  name : (c.input.peek .visible).kind = .identifier
  level : i.skipped = false
  line : ∀ t ∈ i.rest, t.hidden = false ∧ t.kind ≠ .semicolon
  size_le : i.size ≤ n

/-- Either the line is at its end, and the name behind it shows in front of the continuation,
or both inputs take the same token. -/
inductive Shown (c : Continuation) (n : Nat) (i i' : Input) : Prop
  | ended : i.rest = [] → i'.skipped = true → (i'.peek .visible).kind = .identifier →
      Shown c n i i'
  | same {t : Token} {j j' : Input} : i.Takes .visible t j → i'.Takes .visible t j' →
      OneLine c (n - 1) j j' → Shown c n i i'

/-- An error at the end mark, with nothing left. -/
def Late {α : Type} (r : EStateM.Result SyntaxError Input α) : Prop :=
  ∃ e k, r = .error e k ∧ e.token.kind = .eof ∧ k.rest = []

inductive Agrees (c : Continuation) (n : Nat) {α : Type} :
    EStateM.Result SyntaxError Input α → EStateM.Result SyntaxError Input α → Prop
  | ok {a : α} {j j' : Input} : OneLine c n j j' → Agrees c n (.ok a j) (.ok a j')
  | error {e : SyntaxError} {k k' : Input} : OneLine c n k k' →
      Agrees c n (.error e k) (.error e k')
  | late {r r' : EStateM.Result SyntaxError Input α} : Late r → Agrees c n r r'

/-- The parser comes to the same on the line alone and in front of the continuation. -/
def Along (c : Continuation) (n : Nat) {α : Type} (p : Parser α) : Prop :=
  ∀ i i', OneLine c n i i' → Agrees c n (p i) (p i')

variable {c : Continuation} {m n : Nat} {i i' j : Input} {α β : Type}

/-! ## One token -/

namespace OneLine

theorem mono (h : OneLine c m i i') (hn : m ≤ n) : OneLine c n i i' :=
  { h with size_le := h.size_le.trans hn }

theorem takes {t : Token} (h : OneLine c n i i') (ht : i.Takes .visible t j) :
    ∃ j', i'.Takes .visible t j' ∧ OneLine c (n - 1) j j' := by
  obtain ⟨j', ht', hj⟩ := h.seam.takes ht
  refine ⟨j', ht', hj, h.name, ?_, fun u hu => h.line u (ht.rest_suffix.mem hu), ?_⟩
  · obtain ⟨-, ts, hts, rfl⟩ := Input.takes_iff.1 ht
    have htail : ts <:+ i.rest :=
      (List.suffix_cons t ts).trans (hts ▸ View.visible.ahead_suffix i.rest)
    rw [View.skips_visible]
    cases ts with
    | nil => rfl
    | cons u us => exact (h.line u (htail.mem List.mem_cons_self)).1
  · have := ht.size_lt
    have := h.size_le
    omega

/-- No token of the line ends a unit or the input. -/
theorem unmarked (h : OneLine c n i i') :
    ∀ t ∈ i.rest, t.kind ≠ .eof ∧ t.kind ≠ .eol ∧ t.kind ≠ .semicolon := by
  intro t ht
  obtain ⟨live, hhidden⟩ := h.seam.plain t ht
  obtain ⟨hvisible, hsemicolon⟩ := h.line t ht
  exact ⟨live, fun hk => by simp [hhidden.2 hk] at hvisible, hsemicolon⟩

theorem shown (h : OneLine c n i i') : Shown c n i i' := by
  cases hr : i.rest with
  | nil =>
    have hname : ∀ i', Seam c i i' → i'.skipped = true ∧ (i'.peek .visible).kind = .identifier := by
      rintro _ (⟨hshows, -, -⟩ | -)
      · exact absurd hr hshows.rest_ne_nil
      · exact ⟨rfl, h.name⟩
    exact .ended hr (hname i' h.seam).1 (hname i' h.seam).2
  | cons t ts =>
    have hmem : t ∈ i.rest := by simp [hr]
    have hahead : View.visible.ahead i.rest = t :: ts := by
      rw [hr]
      exact List.dropWhile_cons_of_neg (by simp [(h.line t hmem).1])
    have ht := Input.takes_iff.2 ⟨(h.seam.plain t hmem).1, ts, hahead, rfl⟩
    obtain ⟨j', ht', hj⟩ := h.takes ht
    exact .same ht ht' hj

theorem size_right (h : OneLine c n i i') :
    i'.size = i.size + (if i.rest = [] then 0 else c.ends.length) + c.below.length := by
  obtain ⟨hs, -, -, -, -⟩ := h
  cases hs with
  | inside hshows _ _ =>
    rw [if_neg hshows.rest_ne_nil]
    simp [Input.size, Continuation.after, Nat.add_assoc]
  | past hr => simp [Input.size, Continuation.input, hr]

/-- A step takes something of the one input if it does of the other. -/
theorem size_lt_iff {j' : Input} (h : OneLine c n i i') (hj : OneLine c n j j') :
    j'.size < i'.size ↔ j.size < i.size := by
  have hempty (m : Input) : m.rest = [] ↔ m.size = 0 := List.length_eq_zero_iff.symm
  rw [h.size_right, hj.size_right]
  simp only [hempty]
  split <;> split <;> omega

end OneLine

theorem peek_of_nil (v : View) (h : i.rest = []) : i.peek v = i.final := by
  cases v <;> simp [Input.peek, h]

theorem kind_peek_of_nil (v : View) (h : i.rest = []) : (i.peek v).kind = .eof := by
  rw [peek_of_nil v h, i.final_eof]

/-! ## Chains of parsers -/

theorem Agrees.mono {r r' : EStateM.Result SyntaxError Input α} (h : Agrees c m r r')
    (hn : m ≤ n) : Agrees c n r r' := by
  cases h with
  | ok hj => exact .ok (hj.mono hn)
  | error hk => exact .error (hk.mono hn)
  | late h => exact .late h

theorem Agrees.of_ok {a : α} {r' : EStateM.Result SyntaxError Input α}
    (h : Agrees c n (.ok a j) r') : ∃ j', r' = .ok a j' ∧ OneLine c n j j' := by
  cases h with
  | ok hj => exact ⟨_, rfl, hj⟩
  | late hl =>
    obtain ⟨_, _, he, -⟩ := hl
    cases he

theorem Agrees.of_error {e : SyntaxError} {r' : EStateM.Result SyntaxError Input α}
    (h : Agrees c n (.error e j) r') :
    (∃ j', r' = .error e j' ∧ OneLine c n j j') ∨ e.token.kind = .eof ∧ j.rest = [] := by
  cases h with
  | error hj => exact .inl ⟨_, rfl, hj⟩
  | late hl =>
    obtain ⟨_, _, h, hend⟩ := hl
    cases h
    exact .inr hend

theorem Late.bind {p : Parser α} (h : Late (p i)) (k : α → Parser β) : Late ((p >>= k) i) := by
  obtain ⟨e, m, he, hend⟩ := h
  exact ⟨e, m, by rw [bind_apply, he], hend⟩

theorem Agrees.bind {p : Parser α} {k : α → Parser β} (hp : Agrees c n (p i) (p i'))
    (hk : ∀ a, Along c n (k a)) : Agrees c n ((p >>= k) i) ((p >>= k) i') := by
  generalize hr : p i = r at hp
  generalize hr' : p i' = r' at hp
  cases hp with
  | ok hj =>
    rw [bind_apply, hr, bind_apply, hr']
    exact hk _ _ _ hj
  | error hk =>
    rw [bind_apply, hr, bind_apply, hr']
    exact .error hk
  | late h => exact .late (Late.bind (hr.symm ▸ h) k)

namespace Along

theorem pure (a : α) : Along c n (pure a : Parser α) := fun _ _ h => .ok h

theorem bind {p : Parser α} {k : α → Parser β} (hp : Along c n p) (hk : ∀ a, Along c n (k a)) :
    Along c n (p >>= k) :=
  fun _ _ h => (hp _ _ h).bind hk

theorem ite {b : Bool} {p q : Parser α} (hp : Along c n p) (hq : Along c n q) :
    Along c n (if b then p else q) := by
  split
  · exact hp
  · exact hq

theorem fail (cause : SyntaxCause) (t : Token) : Along c n (fail cause t : Parser α) :=
  fun _ _ h => .error h

/-- A token is taken on both sides or on neither, if it is not one that may follow behind the
line. -/
theorem take? {f : TokenKind → Option α} (heof : f .eof = none) (hname : f .identifier = none) :
    Along c n (take? .visible f) := by
  intro i i' h
  cases h.shown with
  | ended hr _ hpeek =>
    have hnone : f (i.peek .visible).kind = none := by rw [kind_peek_of_nil _ hr, heof]
    have hnone' : f (i'.peek .visible).kind = none := by rw [hpeek, hname]
    rw [take?_eq_none.2 ⟨hnone, rfl⟩, take?_eq_none.2 ⟨hnone', rfl⟩]
    exact .ok h
  | @same t j j' ht ht' hj =>
    cases hf : f t.kind with
    | none =>
      rw [take?_eq_none.2 ⟨ht.peek_eq.symm ▸ hf, rfl⟩, take?_eq_none.2 ⟨ht'.peek_eq.symm ▸ hf, rfl⟩]
      exact .ok h
    | some a =>
      rw [(take?_eq_some heof).2 ⟨hf, ht⟩, (take?_eq_some heof).2 ⟨hf, ht'⟩]
      exact .ok (hj.mono (Nat.sub_le n 1))

theorem accept {kind : TokenKind} (heof : kind ≠ .eof) (hname : kind ≠ .identifier) :
    Along c n (accept kind) := by
  intro i i' h
  cases h.shown with
  | ended hr _ hpeek =>
    have hne : (i.peek .visible).kind ≠ kind := by rw [kind_peek_of_nil _ hr]; exact heof.symm
    have hne' : (i'.peek .visible).kind ≠ kind := by rw [hpeek]; exact hname.symm
    rw [(accept_eq_none heof).2 ⟨hne, rfl⟩, (accept_eq_none heof).2 ⟨hne', rfl⟩]
    exact .ok h
  | @same t j j' ht ht' hj =>
    by_cases hk : t.kind = kind
    · rw [(accept_eq_some heof).2 ⟨hk, ht⟩, (accept_eq_some heof).2 ⟨hk, ht'⟩]
      exact .ok (hj.mono (Nat.sub_le n 1))
    · rw [(accept_eq_none heof).2 ⟨ht.peek_eq.symm ▸ hk, rfl⟩,
        (accept_eq_none heof).2 ⟨ht'.peek_eq.symm ▸ hk, rfl⟩]
      exact .ok h

end Along

/-- What is expected behind the last token is missed there. -/
theorem expect_late {kind : TokenKind} (heof : kind ≠ .eof) (cause : SyntaxCause)
    (hr : i.rest = []) : Late (expect kind cause i) := by
  have hk := kind_peek_of_nil .visible hr
  exact ⟨_, _, expect_eq_error heof cause (hk ▸ heof.symm), hk, hr⟩

theorem Along.expect {kind : TokenKind} (heof : kind ≠ .eof) (cause : SyntaxCause) :
    Along c n (expect kind cause) := by
  intro i i' h
  cases h.shown with
  | ended hr _ _ => exact .late (expect_late heof cause hr)
  | @same t j j' ht ht' hj =>
    by_cases hk : t.kind = kind
    · rw [(expect_eq_ok heof).2 ⟨hk, ht⟩, (expect_eq_ok heof).2 ⟨hk, ht'⟩]
      exact .ok (hj.mono (Nat.sub_le n 1))
    · rw [expect_eq_error heof cause (ht.peek_eq.symm ▸ hk),
        expect_eq_error heof cause (ht'.peek_eq.symm ▸ hk), ht.peek_eq, ht'.peek_eq]
      exact .error h

/-! ## Loops -/

section Loop

variable {step : Parser (Option α)} {k : List α → Parser β} {a : α}

theorem many_bind_none (h : step i = .ok none j) : (many step >>= k) i = k [] j := by
  refine (bind_apply (many step) k i).trans ?_
  rw [many_none h]

theorem many_bind_some (h : step i = .ok (some a) j) (hlt : j.size < i.size) :
    (many step >>= k) i = (many step >>= fun as => k (a :: as)) j := by
  refine (bind_apply (many step) k i).trans (Eq.trans ?_ (bind_apply (many step) _ j).symm)
  rw [many, h]
  simp only [if_pos hlt]
  cases many step j <;> rfl

theorem many_bind_last (h : step i = .ok (some a) j) (hlt : ¬j.size < i.size) :
    (many step >>= k) i = k [a] j := by
  refine (bind_apply (many step) k i).trans ?_
  rw [many, h]
  simp only [if_neg hlt]

theorem many_bind_error {e : SyntaxError} (h : step i = .error e j) :
    (many step >>= k) i = .error e j := by
  refine (bind_apply (many step) k i).trans ?_
  rw [many, h]

/-- A loop and what is done behind it. At the end of the line the steps go alike, or the loop
ends there and what is done behind it fails. -/
theorem Along.many_bind
    (hstep : ∀ i i', OneLine c n i i' → Agrees c n (step i) (step i') ∨
      step i = .ok none i ∧ ∀ as, Late (k as i))
    (hk : ∀ as, Along c n (k as)) : Along c n (many step >>= k) := by
  intro i i' h
  generalize hs : i.size = s
  induction s using Nat.strongRecOn generalizing i i' k with
  | _ s ih =>
    rcases hstep i i' h with hstep' | ⟨hnone, hlate⟩
    · generalize hr : step i = r at hstep'
      generalize hr' : step i' = r' at hstep'
      cases hstep' with
      | @ok a? j j' hj =>
        cases a? with
        | none =>
          rw [many_bind_none hr, many_bind_none hr']
          exact hk [] j j' hj
        | some a =>
          by_cases hlt : j.size < i.size
          · rw [many_bind_some hr hlt, many_bind_some hr' ((h.size_lt_iff hj).2 hlt)]
            refine ih j.size (hs ▸ hlt) (fun m m' hm => ?_) (fun as => hk (a :: as)) j j' hj rfl
            exact (hstep m m' hm).imp_right fun ⟨hnone, hlate⟩ =>
              ⟨hnone, fun as => hlate (a :: as)⟩
          · rw [many_bind_last hr hlt, many_bind_last hr' (mt (h.size_lt_iff hj).1 hlt)]
            exact hk [a] j j' hj
      | error hm =>
        rw [many_bind_error hr, many_bind_error hr']
        exact .error hm
      | late hl =>
        obtain ⟨e, m, rfl, hend⟩ := hl
        exact .late ⟨e, m, many_bind_error hr, hend⟩
    · rw [many_bind_none hnone]
      exact .late (hlate [])

end Loop

/-! ## Operators -/

section Operators

variable {p : Parser Expr}

theorem Along.joinStep (level : Level) (hp : Along c n p) : Along c n (joinStep level p) := by
  have hname : infixNode? level .identifier = none := by cases level <;> rfl
  refine (Along.take? (infixNode?_eof level) hname).bind fun found => ?_
  cases found with
  | none => exact .pure none
  | some found => exact hp.bind fun right => .pure _

theorem Along.infixLevel (level : Level) (hp : Along c n p) : Along c n (infixLevel level p) :=
  hp.bind fun first => Along.many_bind (fun i i' h => .inl (hp.joinStep level i i' h))
    fun joined => .pure (joinAll first joined)

theorem Along.expressionOver (hp : Along c n p) : Along c n (expressionOver p) :=
  (((((hp.infixLevel .factor).infixLevel .term).infixLevel .comparison).infixLevel
    .equality).infixLevel .and).infixLevel .or

end Operators

/-- The loop over what stands in brackets, and the closing bracket. -/
theorem Along.closed {step : Parser (Option α)} {kind : TokenKind} (heof : kind ≠ .eof)
    (cause : SyntaxCause) (f : List α → β)
    (hstep : ∀ i i', OneLine c n i i' → i.rest ≠ [] → Agrees c n (step i) (step i'))
    (hnone : ∀ i, i.rest = [] → i.skipped = false → step i = .ok none i) :
    Along c n (many step >>= fun as => Parser.expect kind cause >>= fun _ => Pure.pure (f as)) := by
  refine Along.many_bind (fun i i' h => ?_) fun as =>
    (Along.expect heof cause).bind fun _ => .pure (f as)
  by_cases hr : i.rest = []
  · exact .inr ⟨hnone i hr h.level, fun as => (expect_late heof cause hr).bind _⟩
  · exact .inl (hstep i i' h hr)

/-! ## Statements and builders -/

namespace OneLine

theorem right_eq (h : OneLine c n i i') (hne : i.rest ≠ []) : i' = c.after i := by
  obtain ⟨hs, -, -, -, -⟩ := h
  cases hs with
  | inside => rfl
  | past hr => exact absurd hr hne

/-- On the line a unit ends in front of a closing brace only. -/
theorem endUnit_cons {t : Token} {ts : List Token} {inBuilder : Bool} (h : OneLine c n i i')
    (hr : i.rest = t :: ts) :
    endUnit inBuilder i = if inBuilder && t.kind = .rightBrace then some i else none := by
  obtain ⟨live, heol, hsemicolon⟩ := h.unmarked t (by simp [hr])
  rw [Grammar.endUnit_cons inBuilder hr live h.level, if_neg (by simp [hsemicolon, heol])]

end OneLine

theorem Along.unitEnd (inBuilder : Bool) (cause : SyntaxCause) :
    Along c n (unitEnd inBuilder cause) := by
  intro i i' h
  rw [unitEnd_apply, unitEnd_apply]
  cases hr : i.rest with
  | nil =>
    cases h.shown with
    | ended _ hskip _ =>
      rw [endUnit_nil inBuilder hr, endUnit_skipped inBuilder hskip]
      exact .ok h
    | same ht _ _ => exact absurd hr ht.rest_ne_nil
  | cons t ts =>
    have hne : i.rest ≠ [] := by simp [hr]
    have hright := h.right_eq hne
    rw [hright, c.endUnit_after hne, c.peek_after hne, h.endUnit_cons hr, ← hright]
    by_cases hbrace : (inBuilder && t.kind = .rightBrace) = true
    · rw [if_pos hbrace, Option.map_some, ← hright]
      exact .ok h
    · rw [if_neg hbrace]
      exact .error h

section Trees

variable {p : Parser Expr}

theorem Along.statementOver (inBuilder : Bool) (hp : Along c n p) :
    Along c n (statementOver p inBuilder) :=
  (Along.expect (by decide) .expectedTag).bind fun _ => hp.expressionOver.bind fun _ =>
    (Along.unitEnd inBuilder .expectedStatementEnd).bind fun _ => .pure _

/-- Both inputs have the same token in front. -/
theorem check_eq {t : Token} {j' : Input} (ht : i.Takes .visible t j)
    (ht' : i'.Takes .visible t j') (kind : TokenKind) :
    i'.check .visible kind = i.check .visible kind := by
  simp only [Input.check, Input.isAtEnd, ht.peek_eq, ht'.peek_eq]

theorem bodyStep_agrees (hp : Along c n p) (h : OneLine c n i i') (hne : i.rest ≠ []) :
    Agrees c n (bodyStep p i) (bodyStep p i') := by
  cases h.shown with
  | ended hr _ _ => exact absurd hr hne
  | same ht ht' _ =>
    have hend : i'.isAtEnd .visible = i.isAtEnd .visible := by
      simp only [Input.isAtEnd, ht.peek_eq, ht'.peek_eq]
    rw [bodyStep_apply, bodyStep_apply, check_eq ht ht', hend]
    split
    · exact .ok h
    · exact ((hp.statementOver true).bind fun s => .pure (some s)) i i' h

theorem Along.body (kind : Token) (hp : Along c n p) :
    Along c n (many (bodyStep p) >>= fun body =>
      Parser.expect .rightBrace .expectedCloseBrace >>= fun _ =>
        Pure.pure (Expr.builder kind body)) :=
  Along.closed (by decide) _ _ (fun _ _ h hne => bodyStep_agrees hp h hne) fun _ hr _ =>
    bodyStep_eq_none.2 ⟨.inr (kind_peek_of_nil _ hr), rfl⟩

theorem Along.nameOver (t : Token) (hp : Along c n p) : Along c n (nameOver p t) := by
  intro i i' h
  rw [nameOver_apply, nameOver_apply, h.seam.brace]
  cases hb : !i.skipped && i.check .hidden .leftBrace with
  | false => exact .ok h
  | true =>
    obtain ⟨u, -, hu⟩ := h.seam.plain.takes_leftBrace hb
    obtain ⟨j', hu', hj⟩ := h.takes hu
    simp only [if_true, builderOver_apply, hu'.advance]
    exact hp.body t _ _ (hj.mono (Nat.sub_le n 1))

/-! ## Sequences -/

/-- Separators that something follows on the line are the same in front of the continuation. -/
theorem OneLine.separated (h : OneLine c n i i') (hne : (separated i).2.rest ≠ []) :
    (separated i').1 = (separated i).1 ∧ OneLine c n (separated i).2 (separated i').2 := by
  have hsuffix := separated_suffix i
  have hshows : (Grammar.separated i).2.Shows := by
    obtain ⟨t, ts, hr⟩ := List.exists_cons_of_ne_nil hne
    have hmem : t ∈ (Grammar.separated i).2.rest := by simp [hr]
    exact ⟨t, hmem, (h.line t (hsuffix.mem hmem)).1⟩
  obtain ⟨hfound, hseam⟩ := h.seam.separated hshows
  refine ⟨hfound, hseam, h.name, ?_, fun t ht => h.line t (hsuffix.mem ht),
    (separated_size_le i).trans h.size_le⟩
  unfold Grammar.separated
  split
  · rfl
  · exact h.level

theorem Along.elementOver (first : Expr) (hp : Along c n p) : Along c n (elementOver p first) :=
  hp.expressionOver.bind fun element =>
    .ite (.fail _ element.anchor) (.ite (.fail _ element.anchor) (.pure element))

/-- What begins behind the last token is missed there. -/
theorem parserAt_late (ls : List Level) (hr : i.rest = []) : Late (parserAt ls i) := by
  have hk := kind_peek_of_nil .visible hr
  exact ⟨_, _, parserAt_stuck ls (by rw [hk]; rfl), hk, hr⟩

theorem expressionOver_late (hr : i.rest = []) : Late (expressionOver (parserAt []) i) :=
  parserAt_late levels hr

theorem elementStep_agrees (first : Expr) (hp : Along c n (parserAt [])) (h : OneLine c n i i')
    (hne : i.rest ≠ []) :
    Agrees c n (elementStep (parserAt []) first i) (elementStep (parserAt []) first i') := by
  rw [elementStep_apply, elementStep_apply]
  by_cases hr : (separated i).2.rest = []
  · -- separators end the line, and no element follows them
    have hfound : (separated i).1 = true := by
      unfold Grammar.separated at hr ⊢
      split at hr
      · rename_i hs
        rw [if_pos hs]
      · exact absurd hr hne
    have hopen : (separated i).2.check .visible .rightBracket = false := by
      rw [Input.check_eq_false (by decide), kind_peek_of_nil _ hr]
      decide
    rw [hfound, hopen, Bool.not_false, Bool.and_self, if_pos rfl]
    exact .late (((expressionOver_late hr).bind _).bind _)
  · obtain ⟨hfound, hsep⟩ := h.separated hr
    cases hsep.shown with
    | ended hr' _ _ => exact absurd hr' hr
    | same ht ht' _ =>
      rw [hfound, check_eq ht ht']
      split
      · exact ((hp.elementOver first).bind fun e => .pure (some e)) _ _ hsep
      · exact .ok hsep

theorem elementStep_of_nil (first : Expr) (hr : i.rest = []) (hs : i.skipped = false) :
    elementStep p first i = .ok none i := by
  have hsep : separated i = (i.skipped, i) := by
    refine separated_of_not ?_
    rw [kind_peek_of_nil _ hr]
    rfl
  exact elementStep_eq_none.2 ⟨.inl (by rw [hsep]; exact hs), by rw [hsep]⟩

theorem Along.sequenceOver (opening : Token) (hp : Along c n (parserAt [])) :
    Along c n (sequenceOver (parserAt []) opening) := by
  refine (Along.accept (by decide) (by decide)).bind fun closing => .ite (.pure _) ?_
  refine hp.expressionOver.bind fun first => ?_
  exact Along.closed (by decide) _ (fun others => Expr.sequence opening (first :: others))
    (fun _ _ h hne => elementStep_agrees first hp h hne) fun _ => elementStep_of_nil first

/-! ## Operands -/

section Operands

variable {t : Token} {j' : Input}

/-- Behind its first token a primary comes to the same. -/
theorem primaryOver_agrees (hp : Along c n (parserAt [])) (ht : i.Takes .visible t j)
    (ht' : i'.Takes .visible t j') (hj : OneLine c n j j') (hop : prefixOp? t.kind = none)
    (hopens : opensExpression t.kind = true) :
    Agrees c n (primaryOver (parserAt []) i) (primaryOver (parserAt []) i') := by
  have hpeek := ht.peek_eq.symm
  have hpeek' := ht'.peek_eq.symm
  have hadvance {q : Token → Parser Expr} (hq : Along c n (q t)) :
      Agrees c n ((advance .visible >>= q) i) ((advance .visible >>= q) i') := by
    rw [advance_bind_apply, advance_bind_apply, ← hpeek, ← hpeek', ht.advance, ht'.advance]
    exact hq j j' hj
  cases hl : literal? t with
  | some read =>
    rw [primaryOver_literal _ (hpeek ▸ hl), primaryOver_literal _ (hpeek' ▸ hl), ← hpeek,
      ← hpeek']
    refine hadvance ?_
    cases read with
    | ok value => exact .pure _
    | error cause => exact .fail cause t
  | none =>
    cases hk : t.kind with
    | identifier =>
      rw [primaryOver_identifier _ (hpeek ▸ hk), primaryOver_identifier _ (hpeek' ▸ hk),
        ← hpeek, ← hpeek']
      exact hadvance (hp.nameOver t)
    | leftParen =>
      rw [primaryOver_leftParen _ (hpeek ▸ hk), primaryOver_leftParen _ (hpeek' ▸ hk)]
      exact hadvance (hp.expressionOver.bind fun inner =>
        (Along.expect (by decide) .expectedCloseParen).bind fun _ => .pure _)
    | leftBracket =>
      rw [primaryOver_leftBracket _ (hpeek ▸ hk), primaryOver_leftBracket _ (hpeek' ▸ hk),
        ← hpeek, ← hpeek']
      exact hadvance (hp.sequenceOver t)
    | _ => simp_all [opensExpression, prefixOp?, literal?]

theorem operandOver_agrees (hp : Along c n (parserAt [])) (ht : i.Takes .visible t j)
    (ht' : i'.Takes .visible t j') (hj : OneLine c n j j')
    (hopens : opensExpression t.kind = true) :
    Agrees c n (operandOver (parserAt []) i) (operandOver (parserAt []) i') := by
  unfold operandOver
  cases hop : prefixOp? t.kind with
  | some op =>
    rw [bind_apply, (take?_eq_some prefixOp?_eof).2 ⟨hop, ht⟩, bind_apply,
      (take?_eq_some prefixOp?_eof).2 ⟨hop, ht'⟩]
    exact (hp.bind fun inner => .pure (Expr.unary op t inner)) j j' hj
  | none =>
    rw [bind_apply, take?_eq_none.2 ⟨ht.peek_eq.symm ▸ hop, rfl⟩, bind_apply,
      take?_eq_none.2 ⟨ht'.peek_eq.symm ▸ hop, rfl⟩]
    refine (primaryOver_agrees hp ht ht' hj hop hopens).bind fun left => ?_
    refine (Along.accept (by decide) (by decide)).bind fun colon => ?_
    cases colon with
    | none => exact .pure left
    | some colon => exact hp.expressionOver.bind fun right => .pure _

end Operands

/-- By induction on how much is left of the line: behind the first token of an operand there is
less. -/
theorem operand_along (n : Nat) : Along c n (parserAt []) := by
  induction n with
  | zero =>
    intro i i' h
    exact .late (parserAt_late [] (List.length_eq_zero_iff.1 (Nat.le_zero.1 h.size_le)))
  | succ n hp =>
    intro i i' h
    cases h.shown with
    | ended hr _ _ => exact .late (parserAt_late [] hr)
    | @same t j j' ht ht' hj =>
      cases hopens : opensExpression t.kind with
      | true =>
        rw [parserAt_nil, parserAt_nil]
        exact (operandOver_agrees hp ht ht' hj hopens).mono (Nat.le_succ n)
      | false =>
        have hstuck {i j : Input} (ht : i.Takes .visible t j) :
            parserAt [] i = .error ⟨.expectedExpression, t⟩ i := by
          have hstuck := parserAt_stuck [] (ht.peek_eq.symm ▸ hopens)
          rwa [ht.peek_eq] at hstuck
        rw [hstuck ht, hstuck ht']
        exact .error h

end Trees

/-! ## Units -/

/-- A line that a unit is read from is read to its end. -/
def Exhausts (c : Continuation) (n : Nat) (p : Parser α) : Prop :=
  ∀ i i' a j, OneLine c n i i' → p i = .ok a j → j.rest = []

namespace Exhausts

theorem bind {p : Parser α} {k : α → Parser β} (hp : Along c n p) (hk : ∀ a, Exhausts c n (k a)) :
    Exhausts c n (p >>= k) := by
  intro i i' b j h hj
  obtain ⟨a, m, ha, hm⟩ := bind_eq_ok.1 hj
  obtain ⟨m', -, hm'⟩ := (ha ▸ hp i i' h).of_ok
  exact hk a _ _ _ _ hm' hm

theorem bind_pure {p : Parser α} {f : α → β} (hp : Exhausts c n p) :
    Exhausts c n (p >>= fun a => Pure.pure (f a)) := by
  intro i i' b j h hj
  obtain ⟨a, m, ha, hm⟩ := bind_eq_ok.1 hj
  obtain ⟨-, rfl⟩ := pure_eq_ok.1 hm
  exact hp _ _ _ _ h ha

theorem unitEnd (cause : SyntaxCause) : Exhausts c n (unitEnd false cause) := by
  intro i i' a j h hj
  rw [unitEnd_apply] at hj
  cases hr : i.rest with
  | nil =>
    rw [endUnit_nil false hr] at hj
    cases hj
    exact hr
  | cons t ts =>
    rw [h.endUnit_cons hr, Bool.false_and, if_neg (by simp)] at hj
    cases hj

end Exhausts

/-- A parser of units that reads a line as it does in front of more, and to its end. -/
structure LineParser (unit : Parser α) : Prop where
  along : ∀ c n, Along c n unit
  exhausts : ∀ c n, Exhausts c n unit

theorem lineParser_statement : LineParser statement where
  along _ n := (operand_along n).statementOver false
  exhausts _ n := .bind (.expect (by decide) .expectedTag) fun _ =>
    .bind (operand_along n).expressionOver fun _ => (Exhausts.unitEnd _).bind_pure

theorem lineParser_item : LineParser item where
  along c n i i' h := by
    rw [item_apply, item_apply]
    cases hr : i.rest with
    | nil =>
      have hopens : opensStatement i = false := by
        simp [opensStatement, Input.check, Input.isAtEnd, kind_peek_of_nil _ hr]
      rw [hopens]
      exact .late ((expressionOver_late hr).bind _)
    | cons t ts =>
      rw [opensStatement_extend h.seam hr (h.line t (by simp [hr])).1]
      split
      · exact ((lineParser_statement.along c n).bind fun s => .pure _) i i' h
      · exact ((operand_along n).expressionOver.bind fun e =>
          (Along.unitEnd false .expectedExpressionEnd).bind fun _ => .pure _) i i' h
  exhausts c n i i' a j h hj := by
    rw [item_apply] at hj
    split at hj
    · exact (lineParser_statement.exhausts c n).bind_pure i i' a j h hj
    · exact Exhausts.bind (operand_along n).expressionOver
        (fun e => (Exhausts.unitEnd _).bind_pure) i i' a j h hj

end LazyDecl.Grammar
