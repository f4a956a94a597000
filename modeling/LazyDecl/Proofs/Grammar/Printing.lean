import LazyDecl.Proofs.Grammar.Precedence

/-!
Trees printed from their own tokens, and read back. Parentheses, commas, semicolons and
closing brackets are put in; any tokens of these kinds will do.

* `Readable.reads`: a printed tree can be derived at every level that it is strong
  enough for, in front of whatever does not go on with it;
* `Expr.readable`: so for every tree that respects precedence, by induction on it;
* `program_print`: reading a printed tree gives the tree back.
-/

namespace LazyDecl

/-- The tokens that a printer puts in, one for each kind. -/
structure Marks where
  mark : TokenKind → Token
  mark_is : ∀ kind, (mark kind).Is kind

/-- Marks without a text. -/
def Marks.bare : Marks :=
  ⟨fun kind => { kind, lexeme := "", start := .start }, fun _ => ⟨rfl, rfl⟩⟩

section Print

variable (m : Marks)

mutual

def Expr.print : Expr → List Token
  | .literal _ token => [token]
  | .name token => [token]
  | .grouping inner => m.mark .leftParen :: (inner.print ++ [m.mark .rightParen])
  | .unary _ operator operand => operator :: operand.print
  | .binary _ operator left right => left.print ++ operator :: right.print
  | .logical _ operator left right => left.print ++ operator :: right.print
  | .binding left colon right => left.print ++ colon :: right.print
  | .sequence opening elements => opening :: printElements elements
  | .builder kind body => kind :: m.mark .leftBrace :: printBody body

/-- The elements of a sequence with commas between them, and its closing bracket. -/
def printElements : List Expr → List Token
  | [] => [m.mark .rightBracket]
  | e :: es => e.print ++ printOthers es

def printOthers : List Expr → List Token
  | [] => [m.mark .rightBracket]
  | e :: es => m.mark .comma :: (e.print ++ printOthers es)

/-- The statements of a builder, each with a semicolon, and its closing brace. -/
def printBody : List Statement → List Token
  | [] => [m.mark .rightBrace]
  | ⟨tag, value⟩ :: ss => tag :: (value.print ++ m.mark .semicolon :: printBody ss)

end

end Print

namespace Grammar

/-! ## Levels -/

/-- The levels that stand below a level. -/
def below : Level → List Level
  | .or => [.and, .equality, .comparison, .term, .factor]
  | .and => [.equality, .comparison, .term, .factor]
  | .equality => [.comparison, .term, .factor]
  | .comparison => [.term, .factor]
  | .term => [.factor]
  | .factor => []

theorem cons_below_suffix (l : Level) : l :: below l <:+ levels := by
  cases l <;> decide

theorem least_cons_below (l : Level) : least (l :: below l) = l.rank := by
  cases l <;> rfl

theorem least_below (l : Level) : least (below l) = l.rank + 1 := by
  cases l <;> rfl

theorem ne_of_mem_below {l l' : Level} (h : l' ∈ below l) : l' ≠ l := by
  cases l <;> cases l' <;> simp_all [below]

theorem rank_injective {l l' : Level} (h : l.rank = l'.rank) : l = l' := by
  cases l <;> cases l' <;> first | rfl | cases h

/-- An operator belongs to one level only. -/
theorem infixNode?_of_ne {l l' : Level} {kind : TokenKind} {node : Token → Expr → Expr → Expr}
    (h : infixNode? l kind = some node) (hne : l' ≠ l) : infixNode? l' kind = none := by
  unfold infixNode? at h
  split at h <;> cases l' <;> first | rfl | exact absurd rfl hne | cases h

theorem exists_rank_eq {e : Expr} (h : e.rank < 6) : ∃ l : Level, l.rank = e.rank := by
  cases e with
  | binary op _ _ _ => exact ⟨op.level, rfl⟩
  | logical op _ _ _ => exact ⟨op.level, rfl⟩
  | _ => simp [Expr.rank] at h

/-- What is read below some levels is read at them, where none of their operators
follows. -/
theorem Reads.lift {before ls : List Level} {i j : Input} {e : Expr} (h : Reads ls i e j)
    (hstop : ∀ l ∈ before, infixNode? l (j.peek .visible).kind = none) :
    Reads (before ++ ls) i e j := by
  induction before with
  | nil => exact h
  | cons l before ih =>
    exact .level (.first (ih fun l' hl' => hstop l' (List.mem_cons_of_mem l hl')))
      (hstop l List.mem_cons_self)

/-! ## Input of visible tokens -/

def Visible (ts : List Token) : Prop := ∀ t ∈ ts, t.hidden = false

theorem Visible.append {ts us : List Token} (hts : Visible ts) (hus : Visible us) :
    Visible (ts ++ us) :=
  List.forall_mem_append.2 ⟨hts, hus⟩

theorem Visible.cons {t : Token} {ts : List Token} (ht : t.hidden = false) (hts : Visible ts) :
    Visible (t :: ts) :=
  List.forall_mem_cons.2 ⟨ht, hts⟩

theorem Visible.nil : Visible [] := nofun

variable {final : Token} (hfinal : final.kind = .eof)

/-- Input with these tokens ahead. -/
def ahead (ts : List Token) : Input := { rest := ts, final, final_eof := hfinal }

/-- The kind of the token that comes next. -/
def nextKind (final : Token) (ts : List Token) : TokenKind := (ts.headD final).kind

theorem ahead_eq_self {ts : List Token} (h : Visible ts) (v : View) : v.ahead ts = ts := by
  cases v with
  | hidden => rfl
  | visible =>
    cases ts with
    | nil => rfl
    | cons t ts => simp [h t List.mem_cons_self]

theorem peek_ahead {ts : List Token} (h : Visible ts) (v : View) :
    ((ahead hfinal ts).peek v).kind = nextKind final ts := by
  simp only [Input.peek, ahead, ahead_eq_self h v, nextKind]

theorem takes_ahead {t : Token} {ts : List Token} (ht : t.hidden = false) (hlive : t.kind ≠ .eof)
    (hts : Visible ts) (v : View) : (ahead hfinal (t :: ts)).Takes v t (ahead hfinal ts) := by
  refine Input.takes_iff.2 ⟨hlive, ts, ahead_eq_self (hts.cons ht) v, ?_⟩
  have hskip : v.skips ts = false := by
    cases v with
    | hidden => rfl
    | visible =>
      cases ts with
      | nil => rfl
      | cons u us => simp [hts u List.mem_cons_self]
  simp only [ahead, ahead_eq_self hts v, hskip]

/-- Takes a token of a given kind. -/
theorem takes_is {t : Token} {kind : TokenKind} {ts : List Token} (ht : t.Is kind)
    (hlive : kind ≠ .eof) (hts : Visible ts) :
    (ahead hfinal (t :: ts)).Takes .visible t (ahead hfinal ts) :=
  takes_ahead hfinal ht.visible (ht.kind_eq ▸ hlive) hts .visible

/-! ## What may follow a tree -/

/-- No token of this kind makes a tree go on that was read at the levels `ls`. -/
structure Follow (ls : List Level) (e : Expr) (kind : TokenKind) : Prop where
  stops : ∀ l ∈ ls, infixNode? l kind = none
  closed : e.opensBinding = true → ∀ l, infixNode? l kind = none
  not_colon : kind ≠ .colon
  not_brace : kind ≠ .leftBrace

/-- A kind that ends every expression. -/
structure Ends (kind : TokenKind) : Prop where
  stops : ∀ l, infixNode? l kind = none
  not_colon : kind ≠ .colon
  not_brace : kind ≠ .leftBrace

theorem Ends.follow {kind : TokenKind} (h : Ends kind) (ls : List Level) (e : Expr) :
    Follow ls e kind :=
  ⟨fun l _ => h.stops l, fun _ => h.stops, h.not_colon, h.not_brace⟩

theorem Ends.next {kind : TokenKind} (h : Ends kind) {t : Token} (ht : t.Is kind)
    (ts : List Token) : Ends (nextKind final (t :: ts)) := by
  rw [nextKind, List.headD_cons, ht.kind_eq]
  exact h

theorem ends_rightParen : Ends .rightParen :=
  ⟨fun l => by cases l <;> rfl, by decide, by decide⟩

theorem ends_rightBracket : Ends .rightBracket :=
  ⟨fun l => by cases l <;> rfl, by decide, by decide⟩

theorem ends_comma : Ends .comma := ⟨fun l => by cases l <;> rfl, by decide, by decide⟩

theorem ends_semicolon : Ends .semicolon := ⟨fun l => by cases l <;> rfl, by decide, by decide⟩

theorem ends_eof : Ends .eof := ⟨infixNode?_eof, by decide, by decide⟩

/-- The left operand of an operator goes no further than the operator. -/
theorem follow_left {l : Level} {kind : TokenKind} {node : Token → Expr → Expr → Expr} {e : Expr}
    (hnode : infixNode? l kind = some node) (hclosed : e.opensBinding = false) :
    Follow (below l) e kind := by
  refine ⟨fun l' hl' => infixNode?_of_ne hnode (ne_of_mem_below hl'), fun ho => ?_, ?_, ?_⟩
  · rw [hclosed] at ho
    cases ho
  · rintro rfl
    cases l <;> cases hnode
  · rintro rfl
    cases l <;> cases hnode

/-! ## Printed trees -/

/-- The tokens `ts` can be read as the tree, in the ways that its strength allows. -/
structure Readable (ts : List Token) (e : Expr) : Prop where
  visible : Visible ts
  primary : e.rank = 8 → ∀ after, Visible after → nextKind final after ≠ .leftBrace →
    Primary (ahead hfinal (ts ++ after)) e (ahead hfinal after)
  operand : 6 ≤ e.rank → ∀ after, Visible after → Follow [] e (nextKind final after) →
    Reads [] (ahead hfinal (ts ++ after)) e (ahead hfinal after)
  chain : ∀ l : Level, l.rank = e.rank → ∀ after, Visible after →
    Follow (below l) e (nextKind final after) →
    Chain l (below l) (ahead hfinal (ts ++ after)) e (ahead hfinal after)

namespace Readable

variable {ts us : List Token} {e left right : Expr}

theorem ofOperand (hrank : 6 ≤ e.rank) (hne : e.rank ≠ 8) (hts : Visible ts)
    (h : ∀ after, Visible after → Follow [] e (nextKind final after) →
      Reads [] (ahead hfinal (ts ++ after)) e (ahead hfinal after)) : Readable hfinal ts e where
  visible := hts
  primary h8 := absurd h8 hne
  operand _ := h
  chain l hl := by
    have : l.rank < 6 := by cases l <;> decide
    omega

theorem ofPrimary (hrank : e.rank = 8) (hts : Visible ts)
    (h : ∀ after, Visible after → nextKind final after ≠ .leftBrace →
      Primary (ahead hfinal (ts ++ after)) e (ahead hfinal after)) : Readable hfinal ts e where
  visible := hts
  primary _ := h
  operand _ after hafter hf :=
    .primary (h after hafter hf.not_brace) (peek_ahead hfinal hafter .visible ▸ hf.not_colon)
  chain l hl := by
    have : l.rank < 6 := by cases l <;> decide
    omega

/-- **A printed tree is read at every level that it is strong enough for.** -/
theorem reads (h : Readable hfinal ts e) {ls : List Level} (hls : ls <:+ levels)
    (hrank : least ls ≤ e.rank) {after : List Token} (hafter : Visible after)
    (hf : Follow ls e (nextKind final after)) :
    Reads ls (ahead hfinal (ts ++ after)) e (ahead hfinal after) := by
  have hk := peek_ahead hfinal hafter .visible
  by_cases h6 : 6 ≤ e.rank
  · have he := h.operand h6 after hafter ⟨by simp, hf.closed, hf.not_colon, hf.not_brace⟩
    simpa using he.lift fun l hl => hk ▸ hf.stops l hl
  · -- the tree is an operator's, whose level is among the levels
    obtain ⟨l, hl⟩ := exists_rank_eq (Nat.lt_of_not_le h6)
    have hlen : (l :: below l).length ≤ ls.length := by
      have := least_cons_below l
      have hle : (l :: below l).length ≤ 6 := (cons_below_suffix l).length_le
      simp only [least] at this hrank
      omega
    obtain ⟨before, hbefore⟩ :=
      List.suffix_of_suffix_length_le (cons_below_suffix l) hls hlen
    have hstops : ∀ l' ∈ before ++ l :: below l,
        infixNode? l' ((ahead hfinal after).peek .visible).kind = none :=
      fun l' hl' => hk ▸ hf.stops l' (hbefore ▸ hl')
    have hc := h.chain l hl after hafter ⟨fun l' hl' => hf.stops l' (hbefore ▸
      List.mem_append_right _ (List.mem_cons_of_mem l hl')), hf.closed, hf.not_colon, hf.not_brace⟩
    rw [← hbefore]
    exact (Reads.level hc (hstops l (by simp))).lift fun l' hl' =>
      hstops l' (List.mem_append_left _ hl')

/-- In front of an operator a tree is read as part of the chain of its level. -/
theorem chainAt (h : Readable hfinal ts e) {l : Level} (hrank : l.rank ≤ e.rank)
    {after : List Token} (hafter : Visible after)
    (hf : Follow (below l) e (nextKind final after)) :
    Chain l (below l) (ahead hfinal (ts ++ after)) e (ahead hfinal after) := by
  rcases Nat.eq_or_lt_of_le hrank with heq | hlt
  · exact h.chain l heq after hafter hf
  · have hsuffix := (List.suffix_cons l (below l)).trans (cons_below_suffix l)
    exact .first (h.reads hfinal hsuffix (by rw [least_below]; omega) hafter hf)

/-- Two printed trees with an operator between them. -/
theorem join {l : Level} {t : Token} {node : Token → Expr → Expr → Expr}
    (hnode : infixNode? l t.kind = some node) (ht : t.hidden = false)
    (hjoins : l.Joins left right) (hleft : Readable hfinal ts left)
    (hright : Readable hfinal us right) :
    Readable hfinal (ts ++ t :: us) (node t left right) := by
  have hrank : (node t left right).rank = l.rank := by
    rcases infixNode?_eq_some.1 hnode with ⟨op, rfl, -, rfl⟩ | ⟨op, rfl, -, rfl⟩ <;> rfl
  have hopens : (node t left right).opensBinding = right.opensBinding := by
    rcases infixNode?_eq_some.1 hnode with ⟨op, -, -, rfl⟩ | ⟨op, -, -, rfl⟩ <;> rfl
  have hlow : l.rank < 6 := by cases l <;> decide
  have hlive : t.kind ≠ .eof := by
    intro he
    rw [he, infixNode?_eof] at hnode
    cases hnode
  refine ⟨hleft.visible.append (hright.visible.cons ht), fun h8 => ?_, fun h6 => ?_, ?_⟩
  · omega
  · omega
  · intro l' hl' after hafter hf
    obtain rfl := rank_injective (hl'.trans hrank)
    have hbehind := hright.visible.append hafter
    have hl := hleft.chainAt hfinal hjoins.rank_le (hbehind.cons ht)
      (follow_left hnode hjoins.closed)
    have hsuffix := (List.suffix_cons l' (below l')).trans (cons_below_suffix l')
    have hr := hright.reads hfinal hsuffix (by rw [least_below]; exact hjoins.rank_lt) hafter
      ⟨hf.stops, hopens ▸ hf.closed, hf.not_colon, hf.not_brace⟩
    rw [List.append_assoc]
    exact .more hl hnode (takes_ahead hfinal ht hlive hbehind .visible) hr rfl

/-- A whole expression in front of a token that ends it. -/
theorem whole (h : Readable hfinal ts e) {after : List Token} (hafter : Visible after)
    (hends : Ends (nextKind final after)) :
    Reads levels (ahead hfinal (ts ++ after)) e (ahead hfinal after) :=
  h.reads hfinal (List.suffix_refl _) (Nat.zero_le _) hafter (hends.follow _ _)

end Readable

/-! ## Every tree that respects precedence -/

/-- The kinds that cannot start an expression, though they may stand in front of one. -/
def cannotOpen (kind : TokenKind) : Bool := isSeparator kind || kind = .rightBracket

theorem cannotOpen_eq_false {kind : TokenKind} (h : opensExpression kind = true) :
    cannotOpen kind = false := by
  cases kind <;> first | rfl | cases h

theorem separated_comma {t : Token} {ts : List Token} (ht : t.Is .comma)
    (hts : cannotOpen (nextKind final ts) = false) (hv : Visible ts) :
    separated (ahead hfinal (t :: ts)) = (true, ahead hfinal ts) := by
  have hk : ((ahead hfinal (t :: ts)).peek .hidden).kind = .comma := ht.kind_eq
  have hs : isSeparator ((ahead hfinal ts).peek .hidden).kind = false := by
    rw [peek_ahead hfinal hv .hidden]
    exact (Bool.or_eq_false_iff.1 hts).1
  have hdrop : (t :: ts).dropWhile (isSeparator ·.kind) = ts := by
    rw [List.dropWhile_cons_of_pos (by rw [ht.kind_eq]; rfl)]
    exact dropWhile_separators hs
  simp only [separated, hk]
  exact congrArg (Prod.mk true ·) (by simp only [ahead, hdrop])

theorem separated_rightBracket {t : Token} (ht : t.Is .rightBracket) (ts : List Token) :
    (separated (ahead hfinal (t :: ts))).2 = ahead hfinal (t :: ts) := by
  have hk : ((ahead hfinal (t :: ts)).peek .hidden).kind = .rightBracket := ht.kind_eq
  simp only [separated, hk]
  rfl

theorem endUnit_semicolon {t : Token} {ts : List Token} (inBuilder : Bool) (ht : t.Is .semicolon)
    (hts : Visible ts) : endUnit inBuilder (ahead hfinal (t :: ts)) = some (ahead hfinal ts) := by
  have hk : ((ahead hfinal (t :: ts)).peek .hidden).kind = .semicolon := ht.kind_eq
  have htakes := takes_ahead hfinal ht.visible (by rw [ht.kind_eq]; decide) hts .hidden
  simp only [endUnit, Input.isAtEnd, hk, htakes.advance]
  rfl

variable (m : Marks)

theorem ends_others (es : List Expr) (after : List Token) :
    Ends (nextKind final (printOthers m es ++ after)) := by
  cases es with
  | nil => exact ends_rightBracket.next (m.mark_is _) _
  | cons e es => exact ends_comma.next (m.mark_is _) _

mutual

/-- **A tree that respects precedence can be read from its print.** -/
theorem readable (e : Expr) (he : e.Respects) : Readable hfinal (e.print m) e := by
  match e with
  | .literal value token =>
    obtain ⟨hv, hl⟩ := he
    refine .ofPrimary hfinal rfl (Visible.nil.cons hv) fun after hafter _ => ?_
    exact .literal hl (takes_ahead hfinal hv (literal?_live hl) hafter .visible)
  | .name token =>
    refine .ofPrimary hfinal rfl (Visible.nil.cons he.visible) fun after hafter hbrace => ?_
    refine .name he.kind_eq (takes_is hfinal he (by decide) hafter) ?_
    have hk := peek_ahead hfinal hafter .hidden
    exact (Input.check_eq_false (by decide)).2 (hk ▸ hbrace)
  | .grouping inner =>
    have hinner := readable inner he
    have hclose := Visible.nil.cons (m.mark_is .rightParen).visible
    refine .ofPrimary hfinal rfl ((hinner.visible.append hclose).cons
      (m.mark_is .leftParen).visible) fun after hafter _ => ?_
    have hbehind := hafter.cons (m.mark_is .rightParen).visible
    have hr := hinner.whole hfinal hbehind (ends_rightParen.next (m.mark_is _) _)
    simp only [Expr.print, List.cons_append, List.append_assoc, List.nil_append]
    exact .grouping (m.mark_is .leftParen).kind_eq
      (takes_is hfinal (m.mark_is _) (by decide) (hinner.visible.append hbehind)) hr
      (m.mark_is .rightParen).kind_eq (takes_is hfinal (m.mark_is _) (by decide) hafter)
  | .unary op operator operand =>
    obtain ⟨hop, hrank, hoperand⟩ := he
    have ho := readable operand hoperand
    have hp := prefixOp?_eq_some.2 hop.kind_eq
    have hlive : op.kind ≠ .eof := by cases op <;> decide
    refine .ofOperand hfinal (Nat.le_refl 6) (by simp [Expr.rank]) (ho.visible.cons hop.visible)
      fun after hafter hf => ?_
    exact .prefixed hp (takes_is hfinal hop hlive (ho.visible.append hafter))
      (ho.operand hrank after hafter ⟨by simp, hf.closed, hf.not_colon, hf.not_brace⟩)
  | .binary op operator left right =>
    obtain ⟨hop, hjoins, hl, hr⟩ := he
    exact .join hfinal (infixNode?_eq_some.2 (.inl ⟨op, rfl, hop.kind_eq.symm, rfl⟩)) hop.visible
      hjoins (readable left hl) (readable right hr)
  | .logical op operator left right =>
    obtain ⟨hop, hjoins, hl, hr⟩ := he
    exact .join hfinal (infixNode?_eq_some.2 (.inr ⟨op, rfl, hop.kind_eq.symm, rfl⟩)) hop.visible
      hjoins (readable left hl) (readable right hr)
  | .binding left colon right =>
    obtain ⟨hc, hrank, hl, hr⟩ := he
    have hl := readable left hl
    have hr := readable right hr
    refine .ofOperand hfinal (by decide : 6 ≤ 7) (by simp [Expr.rank]) (hl.visible.append
      (hr.visible.cons hc.visible)) fun after hafter hf => ?_
    have hbehind := hr.visible.append hafter
    have hleft := hl.primary hrank _ (hbehind.cons hc.visible)
      (by simp [nextKind, hc.kind_eq])
    have hright := hr.reads hfinal (List.suffix_refl levels) (Nat.zero_le _) hafter
      ⟨fun l _ => hf.closed rfl l, fun _ => hf.closed rfl, hf.not_colon, hf.not_brace⟩
    simp only [Expr.print, List.append_assoc, List.cons_append]
    exact .bound hleft hc.kind_eq (takes_is hfinal hc (by decide) hbehind) hright
  | .sequence opening [] =>
    obtain ⟨ho, -, -⟩ := he
    have hclose := (m.mark_is .rightBracket).visible
    refine .ofPrimary hfinal rfl ((Visible.nil.cons hclose).cons ho.visible) fun after hafter _ => ?_
    exact .empty ho.kind_eq (takes_is hfinal ho (by decide) (hafter.cons hclose))
      (m.mark_is .rightBracket).kind_eq (takes_is hfinal (m.mark_is _) (by decide) hafter)
  | .sequence opening (first :: others) =>
    obtain ⟨ho, halike, hfirst, hothers⟩ := he
    have hf := readable first hfirst
    have hb : ∀ e ∈ others, e.isBinding = first.isBinding := by
      intro e he
      rcases halike with h | h
      · exact (h e (List.mem_cons_of_mem first he)).trans (h first List.mem_cons_self).symm
      · exact (h e (List.mem_cons_of_mem first he)).trans (h first List.mem_cons_self).symm
    have hs := others_readable first others hothers hb
    refine .ofPrimary hfinal rfl ((hf.visible.append hs.1).cons ho.visible) fun after hafter _ => ?_
    have hbehind := hs.1.append hafter
    have hr := hf.whole hfinal hbehind (ends_others m others after)
    simp only [Expr.print, printElements, List.cons_append, List.append_assoc]
    refine .sequence ho.kind_eq (takes_is hfinal ho (by decide) (hf.visible.append hbehind)) ?_ hr
      (hs.2 after hafter)
    have hopens := (Bool.or_eq_false_iff.1 (cannotOpen_eq_false hr.opens)).2
    exact of_decide_eq_false hopens
  | .builder kind body =>
    obtain ⟨hk, hbody⟩ := he
    have hs := body_readable body hbody
    have hopen := m.mark_is .leftBrace
    refine .ofPrimary hfinal rfl ((hs.1.cons hopen.visible).cons hk.visible) fun after hafter _ => ?_
    have hbehind := hs.1.append hafter
    refine .builder hk.kind_eq (takes_is hfinal hk (by decide) (hbehind.cons hopen.visible)) ?_ ?_
    · exact (Input.check_iff (by decide)).2 hopen.kind_eq
    · have htakes := takes_is hfinal hopen (by decide) hbehind
      have hadvance : ((ahead hfinal (m.mark .leftBrace :: (printBody m body ++ after))).advance
          .visible).2 = ahead hfinal (printBody m body ++ after) := by rw [htakes.advance]
      exact hadvance ▸ hs.2 after hafter

theorem others_readable (first : Expr) (es : List Expr) (h : elementsRespect es)
    (hb : ∀ e ∈ es, e.isBinding = first.isBinding) :
    Visible (printOthers m es) ∧ ∀ after, Visible after →
      Elements first (ahead hfinal (printOthers m es ++ after)) es (ahead hfinal after) := by
  match es with
  | [] =>
    have hclose := m.mark_is .rightBracket
    refine ⟨Visible.nil.cons hclose.visible, fun after hafter => .close hclose.kind_eq ?_⟩
    have hsep := separated_rightBracket hfinal hclose after
    simp only [printOthers, List.cons_append, List.nil_append, hsep]
    exact takes_is hfinal hclose (by decide) hafter
  | e :: es =>
    have he := readable e h.1
    have hs := others_readable first es h.2 fun e' he' => hb e' (List.mem_cons_of_mem e he')
    have hcomma := m.mark_is .comma
    refine ⟨(he.visible.append hs.1).cons hcomma.visible, fun after hafter => ?_⟩
    have hbehind := hs.1.append hafter
    have hr := he.whole hfinal hbehind (ends_others m es after)
    have hv := he.visible.append hbehind
    have hopens := cannotOpen_eq_false hr.opens
    rw [peek_ahead hfinal hv] at hopens
    have hsep := separated_comma hfinal hcomma hopens hv
    simp only [printOthers, List.cons_append, List.append_assoc]
    refine .cons (j := ahead hfinal (printOthers m es ++ after)) ?_ ?_ ?_ (hb e List.mem_cons_self)
      (hs.2 after hafter)
    · rw [hsep]
    · rw [hsep, peek_ahead hfinal hv]
      exact of_decide_eq_false (Bool.or_eq_false_iff.1 hopens).2
    · rw [hsep]
      exact hr

theorem body_readable (ss : List Statement) (h : bodyRespects ss) :
    Visible (printBody m ss) ∧ ∀ after, Visible after →
      Body (ahead hfinal (printBody m ss ++ after)) ss (ahead hfinal after) := by
  match ss with
  | [] =>
    have hclose := m.mark_is .rightBrace
    exact ⟨Visible.nil.cons hclose.visible, fun after hafter =>
      .close hclose.kind_eq (takes_is hfinal hclose (by decide) hafter)⟩
  | ⟨tag, value⟩ :: ss =>
    obtain ⟨htag, hvalue, hss⟩ := h
    have hv := readable value hvalue
    have hs := body_readable ss hss
    have hsemi := m.mark_is .semicolon
    refine ⟨(hv.visible.append (hs.1.cons hsemi.visible)).cons htag.visible,
      fun after hafter => ?_⟩
    have hbehind := hs.1.append hafter
    have hr := hv.whole hfinal (hbehind.cons hsemi.visible) (ends_semicolon.next hsemi _)
    simp only [printBody, List.cons_append, List.append_assoc]
    exact .cons htag.kind_eq (takes_is hfinal htag (by decide)
      (hv.visible.append (hbehind.cons hsemi.visible))) hr
      (endUnit_semicolon hfinal true hsemi hbehind) (hs.2 after hafter)

end

/-! ## Programs -/

/-- **Reading the print of a tree gives the tree back**, as the one statement under its tag. -/
theorem program_print (m : Marks) {tag final : Token} {e : Expr} (htag : tag.Is .identifier)
    (hfinal : final.kind = .eof) (he : e.Respects) :
    program .batch (tag :: e.print m ++ [final]) = (.batch [⟨tag, e⟩], []) := by
  have hr := readable hfinal m e he
  have hread := hr.whole hfinal Visible.nil (by simpa [nextKind, hfinal] using ends_eof)
  rw [List.append_nil] at hread
  have htakes := takes_is hfinal htag (by decide) hr.visible
  have hend : endUnit false (ahead hfinal []) = some (ahead hfinal []) := by
    simp [endUnit, Input.isAtEnd, Input.peek, ahead, hfinal]
  have hstatement : statement (ahead hfinal (tag :: e.print m)) = .ok ⟨tag, e⟩ (ahead hfinal []) :=
    statement_eq_ok_iff.2 ⟨_, _, htag.kind_eq, htakes, hread, hend⟩
  have hinput : Input.ofTokens (tag :: e.print m ++ [final]) =
      ahead hfinal (tag :: e.print m) := Input.ofTokens_concat _ hfinal
  have hunits : units .batch statement (ahead hfinal (tag :: e.print m)) = [.ok ⟨tag, e⟩] := by
    have hstart : (ahead hfinal (tag :: e.print m)).isAtEnd .visible = false := by
      simp [Input.isAtEnd, htakes.peek_eq, htag.kind_eq]
    have hstop : (ahead hfinal []).isAtEnd .visible = true := by
      simp [Input.isAtEnd, Input.peek, ahead, hfinal]
    have hunit : statement (unitStart .batch (ahead hfinal (tag :: e.print m))) =
        .ok ⟨tag, e⟩ (ahead hfinal []) := hstatement
    rw [units_ok hstart hunit (size_lt_of_statement hstatement), units_nil hstop]
  simp only [program, hinput, hunits]
  rfl

def seen (kind : TokenKind) (lexeme : String) : Token := { kind, lexeme, start := .start }

/-- The tree of `-a * 2 + [k: T \x7b x 1; \x7d, (b): 3]`. -/
def nested : Expr :=
  .binary .add (seen .plus "+")
    (.binary .mul (seen .star "*")
      (.unary .negate (seen .minus "-") (.name (seen .identifier "a")))
      (.literal (.integer 2) (seen .integer "2")))
    (.sequence (seen .leftBracket "[")
      [.binding (.name (seen .identifier "k")) (seen .colon ":")
        (.builder (seen .identifier "T")
          [⟨seen .identifier "x", .literal (.integer 1) (seen .integer "1")⟩]),
        .binding (.grouping (.name (seen .identifier "b"))) (seen .colon ":")
          (.literal (.integer 3) (seen .integer "3"))])

theorem program_print_nested : nested.Respects ∧
    program .batch (seen .identifier "decl" :: nested.print .bare ++ [.eof .start]) =
      (.batch [⟨seen .identifier "decl", nested⟩], []) :=
  ⟨by decide +kernel, program_print .bare ⟨rfl, rfl⟩ rfl (by decide +kernel)⟩

/-- An expression that is all there is and does not open with a name is all of a program at the
prompt. -/
theorem program_of_reads {final : Token} (hfinal : final.kind = .eof) {ts : List Token}
    {e : Expr} {j : Input} (he : Reads levels (ahead hfinal ts) e j) (hj : j.rest = [])
    (hts : ∀ t ∈ ts.head?, t.hidden = false) (hname : nextKind final ts ≠ .identifier) :
    program .interactive (ts ++ [final]) = (.interactive [.expression e], []) := by
  have hahead : View.visible.ahead ts = ts := by
    cases ts with
    | nil => rfl
    | cons t ts => exact View.ahead_cons_shown (hts t rfl) ts
  have hpeek : ((ahead hfinal ts).peek .visible).kind = nextKind final ts := by
    simp only [Input.peek, ahead, hahead, nextKind]
  have hlive : (ahead hfinal ts).isAtEnd .visible = false := by
    have hopens := he.opens
    refine decide_eq_false fun heof => ?_
    rw [heof] at hopens
    cases hopens
  have hend : j.isAtEnd .hidden = true ∧ j.isAtEnd .visible = true := by
    simp [Input.isAtEnd, Input.peek, hj, j.final_eof]
  have hopens : opensStatement (ahead hfinal ts) = false := by
    have hcheck : (ahead hfinal ts).check .visible .identifier = false :=
      (Input.check_eq_false (by decide)).2 (hpeek ▸ hname)
    rw [opensStatement, hcheck, Bool.false_and]
  have hstart : unitStart .interactive (ahead hfinal ts) = ahead hfinal ts := by
    cases ts with
    | nil => rfl
    | cons t ts => simp [unitStart, ahead, hts t rfl]
  have hitem : item (unitStart .interactive (ahead hfinal ts)) = .ok (.expression e) j := by
    rw [hstart]
    refine item_eq_ok_iff.2 (.inr ⟨hopens, e, j, rfl, he, ?_⟩)
    rw [endUnit, hend.1, Bool.true_or, if_pos rfl]
  have hinput : Input.ofTokens (ts ++ [final]) = ahead hfinal ts := Input.ofTokens_concat _ hfinal
  have hunits : units .interactive item (ahead hfinal ts) = [.ok (.expression e)] := by
    rw [units_ok hlive hitem (hstart ▸ size_lt_of_item hitem), units_nil hend.2]
  simp only [program, hinput, hunits]
  rfl

/-- At the prompt the print of a tree is the tree, if it does not open with a name. -/
theorem prompt_print (m : Marks) {final : Token} {e : Expr} (hfinal : final.kind = .eof)
    (he : e.Respects) (hname : nextKind final (e.print m) ≠ .identifier) :
    program .interactive (e.print m ++ [final]) = (.interactive [.expression e], []) := by
  have hr := readable hfinal m e he
  have hread := hr.whole hfinal Visible.nil (by simpa [nextKind, hfinal] using ends_eof)
  rw [List.append_nil] at hread
  exact program_of_reads hfinal hread rfl (fun t ht => hr.visible t (List.mem_of_head? ht)) hname

end Grammar

end LazyDecl
