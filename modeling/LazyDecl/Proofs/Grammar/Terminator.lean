import LazyDecl.Proofs.Grammar.Chunks
import LazyDecl.Proofs.Grammar.Conservation

/-!
A semicolon at the end of a line. The scan drops it, because the line end does its work,
but a line end does not stop an expression: if the next line starts with a sign, the
expression goes on there.

* `Reads.goesOn`: in front of a sign the levels of infix operators read more than they read
  before;
* `units_goOn`: so do the units, if their last visible token is no semicolon;
* `program_semicolon_newline`: this is the only way in which the semicolon is missed.
-/

namespace LazyDecl

/-- The operators that are both infix and prefix. -/
def TokenKind.IsSign (kind : TokenKind) : Prop := kind = .plus ∨ kind = .minus

namespace TokenKind

variable {kind : TokenKind}

theorem IsSign.infixNode? (h : kind.IsSign) : (Grammar.infixNode? .term kind).isSome := by
  rcases h with rfl | rfl <;> rfl

theorem IsSign.infixNode?_eq_none {l : Grammar.Level} (h : kind.IsSign) (hl : l ≠ .term) :
    Grammar.infixNode? l kind = none := by
  rcases h with rfl | rfl <;> cases l <;> first | rfl | exact absurd rfl hl

theorem IsSign.ne_colon (h : kind.IsSign) : kind ≠ .colon := by
  rcases h with rfl | rfl <;> decide

theorem ne_semicolon_of_opens (h : Grammar.opensExpression kind = true) : kind ≠ .semicolon := by
  rintro rfl
  cases h

theorem fresh_of_opens (h : Grammar.opensExpression kind = true) (hs : ¬kind.IsSign) : kind.Fresh := by
  refine ⟨fun l => ?_, ?_⟩
  · cases kind <;>
      first
        | (cases l <;> rfl)
        | exact absurd (.inl rfl) hs
        | exact absurd (.inr rfl) hs
        | cases h
  · rintro rfl
    cases h

end TokenKind

namespace Grammar

open LazyDecl.Parser

variable {c : Continuation} {i i' j k : Input} {e e' : Expr} {l : Level} {ls : List Level}

theorem item_opens {it : Item} (h : item i = .ok it j) :
    opensExpression (i.peek .visible).kind = true := by
  rcases item_eq_ok_iff.1 h with ⟨-, s, -, hs⟩ | ⟨-, e, m, -, he, -⟩
  · obtain ⟨k, m, hk, ht, -, -⟩ := statement_eq_ok_iff.1 hs
    rw [ht.peek_eq, hk]
    rfl
  · exact he.opens

/-! ## What is read is unique -/

theorem Primary.unique (h : Primary i e j) (h' : Primary i e' k) : e' = e ∧ k = j := by
  have heq := h'.parses.symm.trans h.parses
  cases heq
  exact ⟨rfl, rfl⟩

/-- No primary starts with a prefix operator. -/
theorem Primary.not_prefixed {t : Token} {op : UnaryOp} (h : Primary i e j)
    (ht : i.Takes .visible t k) : prefixOp? t.kind ≠ some op := by
  rw [← ht.peek_eq, h.prefixOp?_eq_none]
  nofun

/-- Behind a prefix operator stands its operand. -/
theorem Reads.eq_prefixed {t : Token} {op : UnaryOp} (h : Reads [] i e k)
    (hop : prefixOp? t.kind = some op) (ht : i.Takes .visible t j) :
    ∃ operand, Reads [] j operand k ∧ e = .unary op t operand := by
  cases h with
  | prefixed hop' ht' he =>
    obtain ⟨rfl, rfl⟩ := ht.unique ht'
    cases hop.symm.trans hop'
    exact ⟨_, he, rfl⟩
  | bound hl _ _ _ => exact absurd hop (hl.not_prefixed ht)
  | primary hp _ => exact absurd hop (hp.not_prefixed ht)

/-- Behind a primary with a colon stands the right side of a binding. -/
theorem Reads.eq_bound {left : Expr} {colon : Token} {m : Input} (h : Reads [] i e k)
    (hl : Primary i left j) (hk : colon.kind = .colon) (ht : j.Takes .visible colon m) :
    ∃ right, Reads levels m right k ∧ e = .binding left colon right := by
  cases h with
  | prefixed hop ht' _ => exact absurd hop (hl.not_prefixed ht')
  | bound hl' _ ht' hr =>
    obtain ⟨rfl, rfl⟩ := hl.unique hl'
    obtain ⟨rfl, rfl⟩ := ht.unique ht'
    exact ⟨_, hr, rfl⟩
  | primary hp hstop =>
    obtain ⟨rfl, rfl⟩ := hl.unique hp
    exact absurd hk (ht.peek_eq ▸ hstop)

/-- Joining makes a tree no smaller. -/
theorem tokens_joinAll {joined : List ((Expr → Expr → Expr) × Expr)}
    (hm : many (joinStep l (parserAt ls)) j = .ok joined k) (left : Expr) :
    left.tokens.length ≤ (joinAll left joined).tokens.length := by
  induction joined generalizing left j with
  | nil => exact Nat.le_refl _
  | cons a joined ih =>
    rcases many_eq_ok hm with ⟨-, h⟩ | ⟨⟨node, right⟩, m, _, hstep, h, hrest⟩
    · cases h
    · cases h
      obtain ⟨t, m', nodeOf, hnode, ht, hr, rfl⟩ := joinStep_eq_some.1 hstep
      have hlt := Nat.lt_trans ((parserAt_eq_ok_iff ls).1 hr).size_lt ht.size_lt
      have hjoin := ih (hrest hlt) (nodeOf t left right)
      rw [tokens_join hnode, List.length_append] at hjoin
      exact Nat.le_trans (Nat.le_add_right _ _) hjoin

/-- Where an operator follows a chain, its level goes on with it and with an operand. -/
theorem Chain.next {left : Expr} {t : Token} {node : Token → Expr → Expr → Expr} {m : Input}
    (h : Chain l ls i left j) (hnode : infixNode? l t.kind = some node)
    (ht : j.Takes .visible t m) (he : Reads (l :: ls) i e k) :
    ∃ right n, Reads ls m right n ∧
      left.tokens.length + 1 + right.tokens.length ≤ e.tokens.length := by
  obtain ⟨joined, hm, rfl⟩ := h.resume he.parses
  rcases many_eq_ok hm with ⟨hstep, -⟩ | ⟨⟨_, right⟩, n, rest, hstep, rfl, hrest⟩
  · have hnone := (joinStep_eq_none.1 hstep).1
    rw [ht.peek_eq, hnode] at hnone
    cases hnone
  · obtain ⟨t, m, nodeOf, hnode', ht', hr, rfl⟩ := joinStep_eq_some.1 hstep
    obtain ⟨rfl, rfl⟩ := ht.unique ht'
    have hr := (parserAt_eq_ok_iff ls).1 hr
    have hjoin := tokens_joinAll (hrest (Nat.lt_trans hr.size_lt ht.size_lt)) (nodeOf t left right)
    rw [tokens_join hnode', List.length_append, List.length_cons] at hjoin
    refine ⟨right, n, hr, ?_⟩
    simp only [joinAll, List.foldl_cons] at hjoin ⊢
    omega

/-! ## Going on behind a line end -/

/-- All that the levels `ls` can read there has more tokens than `e`. -/
def GoesOn (ls : List Level) (i : Input) (e : Expr) : Prop :=
  ∀ e' j, Reads ls i e' j → e.tokens.length < e'.tokens.length

/-- Behind the last visible token the continuation is next. -/
theorem Seam.peek_past (h : Seam c i i') (hi : ¬i.Shows) :
    i'.peek .visible = c.input.peek .visible := by
  cases h with
  | inside hshows _ _ => exact absurd hshows hi
  | past _ => rfl

mutual

/-- **An expression that ends in front of a sign** either is read as before, which only
levels stronger than the sign do, or goes on. -/
theorem Reads.goesOn {ls : List Level} {i i' j : Input} {e : Expr} (h : Reads ls i e j)
    (hs : Seam c i i') (hj : ¬j.Shows) (hsign : (c.input.peek .visible).kind.IsSign) :
    (.term ∉ ls ∧ ∃ j', Reads ls i' e j' ∧ Seam c j j') ∨ GoesOn ls i' e := by
  match h with
  | .level (l := l) hc _ =>
    rcases hc.goesOn hs hj hsign with ⟨hterm, j', hc', hj'⟩ | hlong
    · have hpeek := hj'.peek_past hj
      by_cases hl : l = .term
      · subst hl
        obtain ⟨node, hnode⟩ := Option.isSome_iff_exists.1 (hpeek ▸ hsign.infixNode?)
        have hlive : (j'.peek .visible).kind ≠ .eof := fun hk => by
          rw [hk] at hnode
          cases hnode
        refine .inr fun e' k he => ?_
        obtain ⟨right, n, -, hle⟩ := hc'.next hnode (Input.takes_peek hlive) he
        omega
      · refine .inl ⟨by simp [Ne.symm hl, hterm], j', .level hc' ?_, hj'⟩
        rw [hpeek]
        exact hsign.infixNode?_eq_none hl
    · exact .inr hlong
  | .prefixed hop ht he =>
    obtain ⟨k, ht', hk⟩ := hs.takes ht
    rcases he.goesOn hk hj hsign with ⟨hterm, j', he', hj'⟩ | hlong
    · exact .inl ⟨hterm, j', .prefixed hop ht' he', hj'⟩
    · refine .inr fun e' m he' => ?_
      obtain ⟨operand, ho, rfl⟩ := he'.eq_prefixed hop ht'
      exact Nat.succ_lt_succ (hlong _ _ ho)
  | .bound hl hk ht hr =>
    obtain ⟨k, hl', hk'⟩ := hl.extend hs
    obtain ⟨m, ht', hm⟩ := hk'.takes ht
    rcases hr.goesOn hm hj hsign with ⟨hterm, -⟩ | hlong
    · exact absurd (by simp [levels]) hterm
    · refine .inr fun e' n he' => ?_
      obtain ⟨right, hr', rfl⟩ := he'.eq_bound hl' hk ht'
      have hlt := hlong _ _ hr'
      simp only [Expr.tokens, List.length_append, List.length_cons]
      omega
  | .primary hp _ =>
    obtain ⟨j', hp', hj'⟩ := hp.extend hs
    exact .inl ⟨nofun, j', .primary hp' (hj'.peek_past hj ▸ hsign.ne_colon), hj'⟩

theorem Chain.goesOn {l : Level} {ls : List Level} {i i' j : Input} {e : Expr}
    (h : Chain l ls i e j) (hs : Seam c i i') (hj : ¬j.Shows)
    (hsign : (c.input.peek .visible).kind.IsSign) :
    (.term ∉ ls ∧ ∃ j', Chain l ls i' e j' ∧ Seam c j j') ∨ GoesOn (l :: ls) i' e := by
  match h with
  | .first he =>
    rcases he.goesOn hs hj hsign with ⟨hterm, j', he', hj'⟩ | hlong
    · exact .inl ⟨hterm, j', .first he', hj'⟩
    · refine .inr fun e' k he' => ?_
      obtain ⟨first, m, joined, hf, hm, rfl⟩ := infixLevel_eq_ok.1 he'.parses
      have hlt := hlong _ _ ((parserAt_eq_ok_iff ls).1 hf)
      exact Nat.lt_of_lt_of_le hlt (tokens_joinAll hm first)
  | .more hc hnode ht hr heq =>
    obtain ⟨k, hc', hk⟩ := hc.extend hs (.inr ht.shows)
    obtain ⟨m, ht', hm⟩ := hk.takes ht
    rcases hr.goesOn hm hj hsign with ⟨hterm, j', hr', hj'⟩ | hlong
    · exact .inl ⟨hterm, j', .more hc' hnode ht' hr' heq, hj'⟩
    · refine .inr fun e' n he' => ?_
      obtain ⟨right, o, hr', hle⟩ := hc'.next hnode ht' he'
      have hlt := hlong _ _ hr'
      rw [heq, tokens_join hnode, List.length_append, List.length_cons]
      omega

end

/-- A whole expression that ends in front of a sign goes on there. -/
theorem Reads.goesOn_levels (h : Reads levels i e j) (hs : Seam c i i') (hj : ¬j.Shows)
    (hsign : (c.input.peek .visible).kind.IsSign) : GoesOn levels i' e :=
  (h.goesOn hs hj hsign).resolve_left fun hterm => hterm.1 (by simp [levels])

/-! ## Units -/

/-- A semicolon is all that the end of a unit can take that can be seen. -/
theorem sealed_of_endUnit (hp : Plain i.rest) (h : endUnit false i = some j) (hi : i.Shows)
    (hj : ¬j.Shows) : Sealed i.rest := by
  rcases endUnit_eq_some h with rfl | ⟨t, hk, ht⟩
  · exact absurd hi hj
  · obtain ⟨-, ts, hr, rfl⟩ := Input.takes_iff.1 ht
    rw [View.ahead_hidden] at hr
    have hhidden : ∀ u ∈ ts, u.hidden = true := by
      intro u hu
      by_contra hne
      exact hj ⟨u, hu, Bool.not_eq_true _ ▸ hne⟩
    rw [hr, sealed_cons hhidden]
    intro hvisible
    refine hk.resolve_right fun heol => ?_
    have hidden := (hp t (by simp [hr])).2.2 heol
    rw [hvisible] at hidden
    cases hidden

section Unsealed

variable (hs : Seam c i i') (hsign : (c.input.peek .visible).kind.IsSign)
  (hsealed : ¬Sealed i.rest) (hj : ¬j.Shows)

include hs hsign hsealed hj

/-- The last expression of a text that no semicolon ends goes on in front of a sign. -/
theorem Reads.goesOn_unit {m : Input} (h : Reads levels i e m) (hend : endUnit false m = some j) :
    GoesOn levels i' e := by
  have hm : m.rest <:+ i.rest := h.closedBy.suffix
  refine h.goesOn_levels hs (fun hshows => hsealed ?_) hsign
  exact (sealed_of_endUnit (hs.plain.suffix hm) hend hshows hj).of_suffix hm hshows

theorem statement_goesOn {s s' : Statement} {j' : Input} (h : statement i = .ok s j)
    (h' : statement i' = .ok s' j') : s.tokens.length < s'.tokens.length := by
  obtain ⟨tag, value⟩ := s
  obtain ⟨tag', value'⟩ := s'
  obtain ⟨k, m, -, ht, he, hend⟩ := statement_eq_ok_iff.1 h
  obtain ⟨k', m', -, ht', he', -⟩ := statement_eq_ok_iff.1 h'
  obtain ⟨k₂, ht₂, hk⟩ := hs.takes ht
  obtain ⟨-, rfl⟩ := ht₂.unique ht'
  have hsealed' : ¬Sealed k.rest := fun h => hsealed (h.of_suffix ht.rest_suffix he.shows)
  exact Nat.succ_lt_succ (he.goesOn_unit hk hsign hsealed' hj hend _ _ he')

theorem item_goesOn {t : Token} {ts : List Token} {it it' : Item} {j' : Input}
    (hr : i.rest = t :: ts) (ht : t.hidden = false) (h : item i = .ok it j)
    (h' : item i' = .ok it' j') : it.tokens.length < it'.tokens.length := by
  have hopens := opensStatement_extend hs hr ht
  rcases item_eq_ok_iff.1 h with ⟨ho, s, rfl, hst⟩ | ⟨ho, e, m, rfl, he, hend⟩
  · rcases item_eq_ok_iff.1 h' with ⟨-, s', rfl, hst'⟩ | ⟨ho', -⟩
    · exact statement_goesOn hs hsign hsealed hj hst hst'
    · rw [hopens, ho] at ho'
      cases ho'
  · rcases item_eq_ok_iff.1 h' with ⟨ho', -⟩ | ⟨-, e', m', rfl, he', -⟩
    · rw [hopens, ho] at ho'
      cases ho'
    · exact he.goesOn_unit hs hsign hsealed hj hend _ _ he'

end Unsealed

theorem head?_units {α : Type} {unit : Parser α} {mode : Mode} (h : i.isAtEnd .visible = false) :
    (units mode unit i).head? = some (turn unit (unitStart mode i)).1 := by
  rw [units, if_neg (by simp [h])]
  dsimp only
  split <;> rfl

/-- Where nothing is to be seen, a semicolon is all there is to be seen. -/
theorem shows_of_not_sealed (h : ¬Sealed i.rest) : i.Shows := by
  by_contra hnone
  refine h fun t ht => ?_
  obtain ⟨hmem, hvisible⟩ := List.mem_filter.1 (List.mem_of_getLast? ht)
  exact absurd ⟨t, hmem, by simpa using hvisible⟩ hnone

/-- The last unit is not read as before in front of a sign. -/
theorem last_goesOn {it : Item} (hs : Seam c i i') (hend : i.isAtEnd .visible = false)
    (hsign : (c.input.peek .visible).kind.IsSign) (hsealed : ¬Sealed i.rest)
    (hunit : item (unitStart .interactive i) = .ok it j) (hj : ¬j.Shows) :
    (units .interactive item i').head? ≠ some (.ok it) := by
  intro hhead
  rw [head?_units (hs.isAtEnd hend)] at hhead
  have hunit' := turn_eq_ok.1 (Prod.ext (Option.some.inj hhead) rfl)
  obtain ⟨t, ts, hrest, -, hvisible⟩ := Input.clear_eq_cons hend
  rw [← unitStart_interactive hs.plain.endsShown] at hrest
  have hsealed' : ¬Sealed (unitStart .interactive i).rest := fun h =>
    hsealed (h.of_suffix (unitStart_suffix .interactive i) ⟨t, by simp [hrest], hvisible⟩)
  have hlt := item_goesOn (hs.unitStart hend) hsign hsealed' hj hrest hvisible hunit hunit'
  exact Nat.lt_irrefl _ hlt

/-- **Units that no semicolon ends are not read as before in front of a sign.** -/
theorem units_goOn (hm : Meets c i i') (hsign : (c.input.peek .visible).kind.IsSign)
    (hr : rejected (units .interactive item i) = []) (hsealed : ¬Sealed i.rest)
    (results : List (Except SyntaxError Item)) :
    units .interactive item i' ≠ units .interactive item i ++ results := by
  induction i using units_induction .interactive item generalizing i' with
  | next i ih =>
    have hshows := shows_of_not_sealed hsealed
    have hend := Input.isAtEnd_of_shows hm.plain hshows
    have hs := hm.seam_of_shows hshows
    obtain ⟨t, ts, hrest, live⟩ := unitStart_live .interactive hm.plain.endsShown hend
    have hlt := Nat.lt_of_lt_of_le
      (unitParser_item.turn_size_lt hrest live) (unitStart_size_le .interactive i)
    rw [units_cons hend hlt] at hr ⊢
    obtain ⟨⟨it, ha⟩, hr⟩ := rejected_cons hr
    have hunit := turn_eq_ok.1 (Prod.ext ha rfl)
    rw [ha]
    intro heq
    by_cases hlast : (turn item (unitStart .interactive i)).2.Shows
    · -- not the last unit: it is read as before, and what is missed comes later
      obtain ⟨j', hj', hm'⟩ :=
        unitParser_item.extend hm.plain (.inr (.inr hlast)) hend (hs.unitStart hend) hunit
      have hlt' := Nat.lt_of_lt_of_le (size_lt_of_item hj') (unitStart_size_le .interactive i')
      rw [units_ok (hs.isAtEnd hend) hj' hlt'] at heq
      have hj := rest_suffix_of_ok (unitParser_item.mirrors .none _) hunit
      have hsealed' := fun h : Sealed _ =>
        hsealed (h.of_suffix (hj.trans (unitStart_suffix .interactive i)) hlast)
      exact ih hlt hm' hr hsealed' (List.cons.inj heq).2
    · have hhead := congrArg List.head? heq
      rw [List.cons_append, List.head?_cons] at hhead
      exact last_goesOn hs hend hsign hsealed hunit hlast hhead

/-! ## Texts -/

/-- The first token that can be seen is a sign. -/
def OpensWithSign (ts : List Token) : Prop := ∃ t ∈ ts.find? (!·.hidden), t.kind.IsSign

/-- What is read without an error starts with an expression, if with anything. -/
theorem peek_of_rejected (hp : EndsShown i.rest)
    (hr : rejected (units .interactive item i) = []) :
    (i.peek .visible).kind = .eof ∨ opensExpression (i.peek .visible).kind = true := by
  cases hend : i.isAtEnd .visible with
  | true => exact .inl (of_decide_eq_true hend)
  | false =>
    obtain ⟨t, ts, hrest, live⟩ := unitStart_live .interactive hp hend
    have hlt := Nat.lt_of_lt_of_le
      (unitParser_item.turn_size_lt hrest live) (unitStart_size_le .interactive i)
    rw [units_cons hend hlt] at hr
    obtain ⟨⟨it, ha⟩, -⟩ := rejected_cons hr
    have hunit := turn_eq_ok.1 (Prod.ext ha rfl)
    rw [unitStart_interactive hp] at hunit
    exact .inr (Input.peek_clear i ▸ item_opens hunit)

section Texts

variable {s₁ s₂ : String}

theorem opensWithSign_iff : OpensWithSign (textTokens s₂) ↔
    ((Input.ofTokens (tokens s₂)).peek .visible).kind.IsSign := by
  rw [peek_tokens, OpensWithSign]
  cases (textTokens s₂).find? (!·.hidden) with
  | none => simp [TokenKind.IsSign, Token.eof]
  | some t => simp

theorem peek_of_program (hr : (program .interactive (tokens s₂)).2 = []) :
    ((Input.ofTokens (tokens s₂)).peek .visible).kind = .eof ∨
      opensExpression ((Input.ofTokens (tokens s₂)).peek .visible).kind = true := by
  refine peek_of_rejected ?_ hr
  rw [ofTokens_tokens]
  exact (plain_textTokens s₂).endsShown

theorem opensUnit_of_program (hr : (program .interactive (tokens s₂)).2 = []) :
    OpensUnit (textTokens s₂) := by
  intro t ht
  have hpeek := peek_of_program hr
  rw [peek_tokens, ht] at hpeek
  have live := (plain_textTokens s₂ t (List.mem_of_find?_eq_some ht)).1
  exact TokenKind.ne_semicolon_of_opens (hpeek.resolve_left live)

theorem fresh_of_program (hr : (program .interactive (tokens s₂)).2 = [])
    (h : ¬OpensWithSign (textTokens s₂)) :
    ((Input.ofTokens (tokens s₂)).peek .visible).kind.Fresh := by
  rcases peek_of_program hr with hk | hk
  · exact TokenKind.fresh_of_name (.inr hk)
  · exact TokenKind.fresh_of_opens hk fun hs => h (opensWithSign_iff.2 hs)

/-- **A semicolon at the end of a line.** Two texts that are read without an error at the
prompt are read, with a semicolon and a newline between them, as the units of the first one
and then those of the second one, unless the second one opens with a sign while something
other than a semicolon is the last thing to be seen in the first one. -/
theorem program_semicolon_newline (h₁ : (scanDiagnostics s₁).errors = [])
    (hr₁ : (program .interactive (tokens s₁)).2 = [])
    (hr₂ : (program .interactive (tokens s₂)).2 = []) :
    program .interactive (tokens (s₁ ++ ";" ++ "\n" ++ s₂)) =
        (.interactive ((program .interactive (tokens s₁)).1.items ++
          ((program .interactive (tokens s₂)).1.map (Token.down (linesBelow s₁))).items), []) ↔
      (OpensWithSign (textTokens s₂) → Sealed (textTokens s₁)) := by
  have hs := tokens_semicolon_newline h₁ (opensUnit_of_program hr₂)
  constructor
  · intro h hsign
    by_contra hsealed
    obtain ⟨ends, hl, htokens⟩ := hs
    have hitems : accepted (units .interactive item (.ofTokens (tokens _))) = _ :=
      Program.interactive.inj (congrArg Prod.fst h)
    have herrors : rejected (units .interactive item (.ofTokens (tokens _))) = [] :=
      congrArg Prod.snd h
    have hsign' : ((nextLine (linesBelow s₁) s₂ ends hl.eols).input.peek .visible).kind.IsSign := by
      rw [peek_nextLine]
      exact opensWithSign_iff.1 hsign
    have hsealed' : ¬Sealed (Input.ofTokens (tokens s₁)).rest := by rwa [ofTokens_tokens]
    refine units_goOn (meets_tokens hl htokens) hsign' hr₁ hsealed'
      (((program .interactive (tokens s₂)).1.map (Token.down (linesBelow s₁))).items.map .ok) ?_
    rw [← map_ok_accepted herrors, hitems, List.map_append]
    exact congrArg (· ++ _) (map_ok_accepted hr₁)
  · intro h
    have hc : ((Input.ofTokens (tokens s₂)).peek .visible).kind.Fresh ∨ Sealed (textTokens s₁) := by
      by_cases hsign : OpensWithSign (textTokens s₂)
      · exact .inr (h hsign)
      · exact .inl (fresh_of_program hr₂ hsign)
    have hunits := units_onNextLine unitParser_item hs hr₁ hc (.inl rfl)
    simp only [program, Program.items, Program.map] at hr₁ hr₂ ⊢
    rw [hunits, accepted_append, rejected_append, accepted_relabel, rejected_relabel, hr₁, hr₂]
    rfl

end Texts

/-- A semicolon with more behind it on its line is kept, and it ends the unit. -/
theorem program_semicolon_kept :
    (scanDiagnostics "[a]; // one").errors = [] ∧
      (program .interactive (tokens "[a]; // one")).2 = [] ∧
      (program .interactive (tokens "-2")).2 = [] ∧
      (program .interactive (tokens ("[a]; // one" ++ ";" ++ "\n" ++ "-2"))).1.items.length = 2 := by
  have h₁ : (scanDiagnostics "[a]; // one").errors = [] := by decide +kernel
  have hr₁ : (program .interactive (tokens "[a]; // one")).2 = [] := by decide +kernel
  have hr₂ : (program .interactive (tokens "-2")).2 = [] := by decide +kernel
  have hsealed : Sealed (textTokens "[a]; // one") := by
    unfold Sealed
    decide +kernel
  have hunits := (program_semicolon_newline h₁ hr₁ hr₂).2 fun _ => hsealed
  refine ⟨h₁, hr₁, hr₂, ?_⟩
  rw [hunits]
  decide +kernel

/-- A semicolon that is dropped in front of a newline does not keep two units apart. -/
theorem semicolon_newline_joins : ¬∀ s₁ s₂ : String,
    (scanDiagnostics s₁).errors = [] → (program .interactive (tokens s₁)).2 = [] →
    (scanDiagnostics s₂).errors = [] → (program .interactive (tokens s₂)).2 = [] →
      (program .interactive (tokens (s₁ ++ ";" ++ "\n" ++ s₂))).2 = [] ∧
      (program .interactive (tokens (s₁ ++ ";" ++ "\n" ++ s₂))).1.items.map
          (Item.map Token.unplaced) =
        ((program .interactive (tokens s₁)).1.items ++
          (program .interactive (tokens s₂)).1.items).map (Item.map Token.unplaced) := by
  intro h
  have hitems := (h "1" "-2" (by decide +kernel) (by decide +kernel) (by decide +kernel)
    (by decide +kernel)).2
  have hlength : (program .interactive (tokens ("1" ++ ";" ++ "\n" ++ "-2"))).1.items.length ≠
      ((program .interactive (tokens "1")).1.items ++
        (program .interactive (tokens "-2")).1.items).length := by decide +kernel
  exact hlength (by simpa using congrArg List.length hitems)

end Grammar

end LazyDecl
