import LazyDecl.Proofs.Grammar.Relabel

/-!
The language of the grammar, apart from the way it is read. A derivation tells which
tree stands between two inputs, token by token; where a parser looks ahead, so does
the derivation.

* `Reads ls i e j`: the levels `ls` and the operands below them read `e` from `i` and
  leave `j`;
* `parserAt_eq_ok_iff`: the parsers read exactly what can be derived;
* `statement_eq_ok_iff`: so do statements outside builders.
-/

namespace LazyDecl.Grammar

open LazyDecl.Parser

/-- The levels of infix operators, the weakest first. -/
def levels : List Level := [.or, .and, .equality, .comparison, .term, .factor]

/-- The parser of the levels `ls` over operands. -/
def parserAt (ls : List Level) : Parser Expr := ls.foldr infixLevel operand

mutual

inductive Reads : List Level → Input → Expr → Input → Prop
  /-- A chain goes on as long as operators of its level follow. -/
  | level {l ls i e j} : Chain l ls i e j → infixNode? l (j.peek .visible).kind = none →
      Reads (l :: ls) i e j
  | prefixed {i op t j e k} : prefixOp? t.kind = some op → i.Takes .visible t j →
      Reads [] j e k → Reads [] i (.unary op t e) k
  | bound {i left j colon k right m} : Primary i left j → colon.kind = .colon →
      j.Takes .visible colon k → Reads levels k right m → Reads [] i (.binding left colon right) m
  | primary {i e j} : Primary i e j → (j.peek .visible).kind ≠ .colon → Reads [] i e j

/-- Operands of the levels `ls`, joined from the left by operators of the level `l`. -/
inductive Chain : Level → List Level → Input → Expr → Input → Prop
  | first {l ls i e j} : Reads ls i e j → Chain l ls i e j
  | more {l ls i left j t node k right e m} : Chain l ls i left j →
      infixNode? l t.kind = some node → j.Takes .visible t k → Reads ls k right m →
      e = node t left right → Chain l ls i e m

inductive Primary : Input → Expr → Input → Prop
  | literal {i t value j} : literal? t = some (.ok value) → i.Takes .visible t j →
      Primary i (.literal value t) j
  | name {i t j} : t.kind = .identifier → i.Takes .visible t j →
      (!j.skipped && j.check .hidden .leftBrace) = false → Primary i (.name t) j
  | builder {i t j body k} : t.kind = .identifier → i.Takes .visible t j →
      (!j.skipped && j.check .hidden .leftBrace) = true →
      Body (j.advance .visible).2 body k → Primary i (.builder t body) k
  | grouping {i t j e k u m} : t.kind = .leftParen → i.Takes .visible t j →
      Reads levels j e k → u.kind = .rightParen → k.Takes .visible u m →
      Primary i (.grouping e) m
  | empty {i t j u k} : t.kind = .leftBracket → i.Takes .visible t j →
      u.kind = .rightBracket → j.Takes .visible u k → Primary i (.sequence t []) k
  | sequence {i t j first k others m} : t.kind = .leftBracket → i.Takes .visible t j →
      (j.peek .visible).kind ≠ .rightBracket → Reads levels j first k →
      Elements first k others m → Primary i (.sequence t (first :: others)) m

/-- The elements behind the first one of a sequence, and its closing bracket. -/
inductive Elements : Expr → Input → List Expr → Input → Prop
  | close {first i u j} : u.kind = .rightBracket → (separated i).2.Takes .visible u j →
      Elements first i [] j
  | cons {first i e j es k} : (separated i).1 = true →
      ((separated i).2.peek .visible).kind ≠ .rightBracket →
      Reads levels (separated i).2 e j → e.isBinding = first.isBinding →
      Elements first j es k → Elements first i (e :: es) k

/-- The statements of a builder, and its closing brace. -/
inductive Body : Input → List Statement → Input → Prop
  | close {i u j} : u.kind = .rightBrace → i.Takes .visible u j → Body i [] j
  | cons {i tag j value k m ss n} : tag.kind = .identifier → i.Takes .visible tag j →
      Reads levels j value k → endUnit true k = some m → Body m ss n →
      Body i (⟨tag, value⟩ :: ss) n

end

/-! ## Every derivation reads something -/

theorem separated_suffix (i : Input) : (separated i).2.rest <:+ i.rest := by
  unfold separated
  split
  · exact List.dropWhile_suffix _
  · exact List.suffix_refl _

theorem separated_size_le (i : Input) : (separated i).2.size ≤ i.size :=
  (separated_suffix i).length_le

theorem endUnit_suffix {inBuilder : Bool} {i j : Input} (h : endUnit inBuilder i = some j) :
    j.rest <:+ i.rest := by
  rcases endUnit_eq_some h with rfl | ⟨t, -, ht⟩
  · exact List.suffix_refl _
  · exact ht.rest_suffix

theorem endUnit_size_le {inBuilder : Bool} {i j : Input} (h : endUnit inBuilder i = some j) :
    j.size ≤ i.size :=
  (endUnit_suffix h).length_le

mutual

theorem Reads.size_lt {ls : List Level} {i j : Input} {e : Expr} (h : Reads ls i e j) :
    j.size < i.size := by
  match h with
  | .level hc _ => exact hc.size_lt
  | .prefixed _ ht he =>
    have := ht.size_lt
    have := he.size_lt
    omega
  | .bound hl _ ht hr =>
    have := hl.size_lt
    have := ht.size_lt
    have := hr.size_lt
    omega
  | .primary hp _ => exact hp.size_lt

theorem Chain.size_lt {l : Level} {ls : List Level} {i j : Input} {e : Expr}
    (h : Chain l ls i e j) : j.size < i.size := by
  match h with
  | .first he => exact he.size_lt
  | .more hc _ ht he _ =>
    have := hc.size_lt
    have := ht.size_lt
    have := he.size_lt
    omega

theorem Primary.size_lt {i j : Input} {e : Expr} (h : Primary i e j) : j.size < i.size := by
  match h with
  | .literal _ ht => exact ht.size_lt
  | .name _ ht _ => exact ht.size_lt
  | .builder (j := k) _ ht _ hb =>
    have := ht.size_lt
    have := k.size_advance_le .visible
    have := hb.size_lt
    omega
  | .grouping _ ht he _ hu =>
    have := ht.size_lt
    have := he.size_lt
    have := hu.size_lt
    omega
  | .empty _ ht _ hu =>
    have := ht.size_lt
    have := hu.size_lt
    omega
  | .sequence _ ht _ he hs =>
    have := ht.size_lt
    have := he.size_lt
    have := hs.size_lt
    omega

theorem Elements.size_lt {first : Expr} {i j : Input} {es : List Expr}
    (h : Elements first i es j) : j.size < i.size := by
  have := separated_size_le i
  match h with
  | .close _ hu =>
    have := hu.size_lt
    omega
  | .cons _ _ he _ hs =>
    have := he.size_lt
    have := hs.size_lt
    omega

theorem Body.size_lt {i j : Input} {ss : List Statement} (h : Body i ss j) :
    j.size < i.size := by
  match h with
  | .close _ hu => exact hu.size_lt
  | .cons _ ht he hm hs =>
    have := ht.size_lt
    have := he.size_lt
    have := endUnit_size_le hm
    have := hs.size_lt
    omega

end

/-! ## Where derivations begin and end -/

/-- The kinds that an expression can start with. -/
def opensExpression : TokenKind → Bool
  | .identifier | .integer | .decimal | .string | .boolean _ | .leftParen | .leftBracket => true
  | .bang | .minus | .plus | .tilde => true
  | _ => false

theorem opensExpression_of_prefixOp? {kind : TokenKind} {op : UnaryOp}
    (h : prefixOp? kind = some op) : opensExpression kind = true := by
  cases kind <;> first | rfl | cases h

theorem opensExpression_of_literal? {t : Token} {read : Except SyntaxCause Literal}
    (h : literal? t = some read) : opensExpression t.kind = true := by
  rcases literal?_kind h with ⟨b, hk⟩ | hk | hk | hk <;> rw [hk] <;> rfl

theorem Primary.opens {i j : Input} {e : Expr} (h : Primary i e j) :
    opensExpression (i.peek .visible).kind = true := by
  cases h with
  | literal hl ht => rw [ht.peek_eq]; exact opensExpression_of_literal? hl
  | name hk ht _ => rw [ht.peek_eq, hk]; rfl
  | builder hk ht _ _ => rw [ht.peek_eq, hk]; rfl
  | grouping hk ht _ _ _ => rw [ht.peek_eq, hk]; rfl
  | empty hk ht _ _ => rw [ht.peek_eq, hk]; rfl
  | sequence hk ht _ _ _ => rw [ht.peek_eq, hk]; rfl

mutual

theorem Reads.opens {ls : List Level} {i j : Input} {e : Expr} (h : Reads ls i e j) :
    opensExpression (i.peek .visible).kind = true := by
  match h with
  | .level hc _ => exact hc.opens
  | .prefixed hop ht _ => rw [ht.peek_eq]; exact opensExpression_of_prefixOp? hop
  | .bound hl _ _ _ => exact hl.opens
  | .primary hp _ => exact hp.opens

theorem Chain.opens {l : Level} {ls : List Level} {i j : Input} {e : Expr}
    (h : Chain l ls i e j) : opensExpression (i.peek .visible).kind = true := by
  match h with
  | .first he => exact he.opens
  | .more hc _ _ _ _ => exact hc.opens

end

theorem literal?_ne_semicolon {t : Token} {read : Except SyntaxCause Literal}
    (h : literal? t = some read) : t.kind ≠ .semicolon := by
  intro hk
  simp [literal?, hk] at h

mutual

theorem Reads.shows {ls : List Level} {i j : Input} {e : Expr} (h : Reads ls i e j) :
    i.Shows := by
  match h with
  | .level hc _ => exact hc.shows
  | .prefixed _ ht _ => exact ht.shows
  | .bound hl _ _ _ => exact hl.shows
  | .primary hp _ => exact hp.shows

theorem Chain.shows {l : Level} {ls : List Level} {i j : Input} {e : Expr}
    (h : Chain l ls i e j) : i.Shows := by
  match h with
  | .first he => exact he.shows
  | .more hc _ _ _ _ => exact hc.shows

theorem Primary.shows {i j : Input} {e : Expr} (h : Primary i e j) : i.Shows := by
  cases h with
  | literal _ ht | name _ ht _ | builder _ ht _ _ | grouping _ ht _ _ _ | empty _ ht _ _
  | sequence _ ht _ _ _ => exact ht.shows

end

theorem Elements.shows {first : Expr} {i j : Input} {es : List Expr}
    (h : Elements first i es j) : i.Shows := by
  cases h with
  | close _ hclose => exact hclose.shows.of_suffix (separated_suffix i)
  | cons _ _ he _ _ => exact he.shows.of_suffix (separated_suffix i)

theorem Body.shows {i j : Input} {ss : List Statement} (h : Body i ss j) : i.Shows := by
  cases h with
  | close _ ht | cons _ ht _ _ _ => exact ht.shows

/-- What is left stands behind a token that is no semicolon. -/
def ClosedBy (i j : Input) : Prop :=
  ∃ (k : Input) (t : Token), k.Takes .visible t j ∧ t.kind ≠ .semicolon ∧ k.rest <:+ i.rest

theorem ClosedBy.suffix {i j : Input} (h : ClosedBy i j) : j.rest <:+ i.rest := by
  obtain ⟨k, t, ht, -, hk⟩ := h
  exact ht.rest_suffix.trans hk

theorem ClosedBy.of_suffix {i j k : Input} (h : ClosedBy j k) (hs : j.rest <:+ i.rest) :
    ClosedBy i k := by
  obtain ⟨m, t, ht, hne, hm⟩ := h
  exact ⟨m, t, ht, hne, hm.trans hs⟩

theorem ClosedBy.of_takes {i j : Input} {t : Token} (ht : i.Takes .visible t j)
    (hne : t.kind ≠ .semicolon) : ClosedBy i j :=
  ⟨i, t, ht, hne, List.suffix_refl _⟩

mutual

theorem Reads.closedBy {ls : List Level} {i j : Input} {e : Expr} (h : Reads ls i e j) :
    ClosedBy i j := by
  match h with
  | .level hc _ => exact hc.closedBy
  | .prefixed _ ht he => exact he.closedBy.of_suffix ht.rest_suffix
  | .bound hl _ ht hr =>
    exact hr.closedBy.of_suffix (ht.rest_suffix.trans hl.closedBy.suffix)
  | .primary hp _ => exact hp.closedBy

theorem Chain.closedBy {l : Level} {ls : List Level} {i j : Input} {e : Expr}
    (h : Chain l ls i e j) : ClosedBy i j := by
  match h with
  | .first he => exact he.closedBy
  | .more hc _ ht he _ =>
    exact he.closedBy.of_suffix (ht.rest_suffix.trans hc.closedBy.suffix)

theorem Primary.closedBy {i j : Input} {e : Expr} (h : Primary i e j) : ClosedBy i j := by
  match h with
  | .literal hl ht => exact .of_takes ht (literal?_ne_semicolon hl)
  | .name hk ht _ => exact .of_takes ht (by rw [hk]; decide)
  | .builder (j := k) _ ht _ hb =>
    exact hb.closedBy.of_suffix ((Input.rest_advance_suffix .visible k).trans ht.rest_suffix)
  | .grouping _ ht he hu hclose =>
    exact (ClosedBy.of_takes hclose (by rw [hu]; decide)).of_suffix
      (he.closedBy.suffix.trans ht.rest_suffix)
  | .empty _ ht hu hclose =>
    exact (ClosedBy.of_takes hclose (by rw [hu]; decide)).of_suffix ht.rest_suffix
  | .sequence _ ht _ he hs =>
    exact hs.closedBy.of_suffix (he.closedBy.suffix.trans ht.rest_suffix)

theorem Elements.closedBy {first : Expr} {i j : Input} {es : List Expr}
    (h : Elements first i es j) : ClosedBy i j := by
  match h with
  | .close hu hclose =>
    exact (ClosedBy.of_takes hclose (by rw [hu]; decide)).of_suffix (separated_suffix i)
  | .cons _ _ he _ hs =>
    exact hs.closedBy.of_suffix (he.closedBy.suffix.trans (separated_suffix i))

theorem Body.closedBy {i j : Input} {ss : List Statement} (h : Body i ss j) : ClosedBy i j := by
  match h with
  | .close hu hclose => exact .of_takes hclose (by rw [hu]; decide)
  | .cons _ ht he hend hs =>
    exact hs.closedBy.of_suffix
      ((endUnit_suffix hend).trans (he.closedBy.suffix.trans ht.rest_suffix))

end

/-! ## What can be derived is read -/

theorem Primary.prefixOp?_eq_none {i j : Input} {e : Expr} (h : Primary i e j) :
    prefixOp? (i.peek .visible).kind = none := by
  cases h with
  | @literal _ t value _ hl ht =>
    rw [ht.peek_eq]
    rcases literal?_kind hl with ⟨b, hk⟩ | hk | hk | hk <;> rw [hk] <;> rfl
  | name hk ht _ => rw [ht.peek_eq, hk]; rfl
  | builder hk ht _ _ => rw [ht.peek_eq, hk]; rfl
  | grouping hk ht _ _ _ => rw [ht.peek_eq, hk]; rfl
  | empty hk ht _ _ => rw [ht.peek_eq, hk]; rfl
  | sequence hk ht _ _ _ => rw [ht.peek_eq, hk]; rfl

mutual

theorem Reads.parses {ls : List Level} {i j : Input} {e : Expr} (h : Reads ls i e j) :
    parserAt ls i = .ok e j := by
  match h with
  | .level hc hstop => exact hc.parses (many_none (joinStep_eq_none.2 ⟨hstop, rfl⟩))
  | .prefixed hop ht he =>
    exact (operand_eq i).trans (operandOver_eq_ok.2 (.inl ⟨_, _, _, _, hop, ht, he.parses, rfl⟩))
  | .bound hl hk ht hr =>
    exact (operand_eq i).trans (operandOver_eq_ok.2 (.inr ⟨hl.prefixOp?_eq_none,
      bindingOver_eq_ok.2 ⟨_, _, hl.parses, .inr ⟨_, _, _, hk, ht, hr.parses, rfl⟩⟩⟩))
  | .primary hp hstop =>
    exact (operand_eq i).trans (operandOver_eq_ok.2 (.inr ⟨hp.prefixOp?_eq_none,
      bindingOver_eq_ok.2 ⟨_, _, hp.parses, .inl ⟨hstop, rfl, rfl⟩⟩⟩))

/-- Whatever else of the level follows a chain, the level reads both. -/
theorem Chain.parses {l : Level} {ls : List Level} {i j : Input} {e : Expr}
    (h : Chain l ls i e j) {joined : List ((Expr → Expr → Expr) × Expr)} {k : Input}
    (hm : many (joinStep l (parserAt ls)) j = .ok joined k) :
    infixLevel l (parserAt ls) i = .ok (joinAll e joined) k := by
  match h with
  | .first he => exact infixLevel_eq_ok.2 ⟨_, _, _, he.parses, hm, rfl⟩
  | .more hc hnode ht he heq =>
    have hstep := joinStep_eq_some.2 ⟨_, _, _, hnode, ht, he.parses, rfl⟩
    have hlt := Nat.lt_trans he.size_lt ht.size_lt
    rw [heq]
    exact hc.parses ((many_some hstep hlt).2 ⟨_, rfl, hm⟩)

theorem Primary.parses {i j : Input} {e : Expr} (h : Primary i e j) :
    primaryOver operand i = .ok e j := by
  refine primaryOver_eq_ok.2 ?_
  match h with
  | .literal hl ht => exact .inl ⟨_, _, hl, ht, rfl⟩
  | .name hk ht hbrace =>
    exact .inr (.inl ⟨_, _, hk, ht, nameOver_eq_ok.2 (.inl ⟨hbrace, rfl, rfl⟩)⟩)
  | .builder hk ht hbrace hb =>
    obtain ⟨m, u, hm, hu, hclose⟩ := hb.parses
    exact .inr (.inl ⟨_, _, hk, ht, nameOver_eq_ok.2 (.inr ⟨hbrace,
      builderOver_eq_ok.2 ⟨_, m, u, hm, hu, hclose, rfl⟩⟩)⟩)
  | .grouping hk ht he hu hclose =>
    exact .inr (.inr (.inl ⟨_, _, _, _, _, hk, ht, he.parses, hu, hclose, rfl⟩))
  | .empty hk ht hu hclose =>
    exact .inr (.inr (.inr ⟨_, _, hk, ht, sequenceOver_eq_ok.2 (.inl ⟨_, hu, hclose, rfl⟩)⟩))
  | .sequence hk ht hopen he hs =>
    obtain ⟨m, u, hm, hu, hclose⟩ := hs.parses
    exact .inr (.inr (.inr ⟨_, _, hk, ht, sequenceOver_eq_ok.2 (.inr
      ⟨hopen, _, _, _, m, u, he.parses, hm, hu, hclose, rfl⟩)⟩))

theorem Elements.parses {first : Expr} {i j : Input} {es : List Expr}
    (h : Elements first i es j) : ∃ k u, many (elementStep operand first) i = .ok es k ∧
      u.kind = .rightBracket ∧ k.Takes .visible u j := by
  match h with
  | .close hu hclose =>
    exact ⟨_, _, many_none (elementStep_eq_none.2 ⟨.inr (hclose.peek_eq ▸ hu), rfl⟩), hu, hclose⟩
  | .cons hsep hopen he hb hs =>
    obtain ⟨k, u, hm, hu, hclose⟩ := hs.parses
    have hstep := elementStep_eq_some.2 ⟨hsep, hopen, he.parses, hb⟩
    have hlt := Nat.lt_of_lt_of_le he.size_lt (separated_size_le i)
    exact ⟨k, u, (many_some hstep hlt).2 ⟨_, rfl, hm⟩, hu, hclose⟩

theorem Body.parses {i j : Input} {ss : List Statement} (h : Body i ss j) :
    ∃ k u, many (bodyStep operand) i = .ok ss k ∧ u.kind = .rightBrace ∧
      k.Takes .visible u j := by
  match h with
  | .close hu hclose =>
    exact ⟨_, _, many_none (bodyStep_eq_none.2 ⟨.inl (hclose.peek_eq ▸ hu), rfl⟩), hu, hclose⟩
  | .cons hk ht he hend hs =>
    obtain ⟨k, u, hm, hu, hclose⟩ := hs.parses
    have hstep := bodyStep_eq_some.2 
      (statementOver_eq_ok (s := ⟨_, _⟩).2 ⟨_, _, hk, ht, he.parses, hend⟩)
    have hlt := Nat.lt_of_le_of_lt (endUnit_size_le hend) (Nat.lt_trans he.size_lt ht.size_lt)
    exact ⟨k, u, (many_some hstep hlt).2 ⟨_, rfl, hm⟩, hu, hclose⟩

end

/-- Whatever a level reads goes on where a chain has come to. -/
theorem Chain.resume {l : Level} {ls : List Level} {i j k : Input} {left e : Expr}
    (h : Chain l ls i left j) (he : parserAt (l :: ls) i = .ok e k) :
    ∃ joined, many (joinStep l (parserAt ls)) j = .ok joined k ∧ e = joinAll left joined := by
  match h with
  | .first hf =>
    obtain ⟨first, m, joined, hf', hm, heq⟩ := infixLevel_eq_ok.1 he
    cases hf'.symm.trans hf.parses
    exact ⟨joined, hm, heq⟩
  | .more hc hnode ht hr heq =>
    obtain ⟨joined, hm, hjoin⟩ := hc.resume he
    have hstep := joinStep_eq_some.2 ⟨_, _, _, hnode, ht, hr.parses, rfl⟩
    have hlt := Nat.lt_trans hr.size_lt ht.size_lt
    obtain ⟨rest, rfl, hrest⟩ := (many_some hstep hlt).1 hm
    exact ⟨rest, hrest, by rw [hjoin, heq]; rfl⟩

/-! ## What is read can be derived -/

section Sound

/-- Operands of fewer than `n` tokens are known to be derivable. -/
def SoundBelow (n : Nat) : Prop :=
  ∀ i : Input, i.size < n → ∀ e j, operand i = .ok e j → Reads [] i e j

variable {n : Nat}

theorem chain_of_many {l : Level} {ls : List Level}
    (hp : ∀ i : Input, i.size < n → ∀ e j, parserAt ls i = .ok e j → Reads ls i e j) {i : Input}
    {joined : List ((Expr → Expr → Expr) × Expr)} {left : Expr} {j k : Input}
    (hc : Chain l ls i left j) (hj : j.size < n)
    (hm : many (joinStep l (parserAt ls)) j = .ok joined k) :
    Reads (l :: ls) i (joinAll left joined) k := by
  induction joined generalizing left j with
  | nil =>
    rcases many_eq_ok hm with ⟨hstop, -⟩ | ⟨_, _, _, -, h, -⟩
    · obtain ⟨hstop, rfl⟩ := joinStep_eq_none.1 hstop
      exact .level hc hstop
    · cases h
  | cons a joined ih =>
    rcases many_eq_ok hm with ⟨-, h⟩ | ⟨⟨_, right⟩, m, _, hstep, h, hrest⟩
    · cases h
    · cases h
      obtain ⟨t, k', node, hnode, ht, hr, rfl⟩ := joinStep_eq_some.1 hstep
      have hr := hp k' (Nat.lt_trans ht.size_lt hj) right m hr
      have hlt := Nat.lt_trans hr.size_lt ht.size_lt
      exact ih (.more hc hnode ht hr rfl) (Nat.lt_trans hlt hj) (hrest hlt)

theorem SoundBelow.parserAt (h : SoundBelow n) (ls : List Level) {i j : Input} {e : Expr}
    (hi : i.size < n) (he : parserAt ls i = .ok e j) : Reads ls i e j := by
  induction ls generalizing i e j with
  | nil => exact h i hi e j he
  | cons l ls ih =>
    obtain ⟨first, k, joined, hf, hm, rfl⟩ := infixLevel_eq_ok.1 he
    have hf := ih hi hf
    exact chain_of_many (fun i hi e j he => ih hi he) (.first hf)
      (Nat.lt_trans hf.size_lt hi) hm

theorem SoundBelow.elements (h : SoundBelow n) {first : Expr} {others : List Expr}
    {i k j : Input} {u : Token} (hi : i.size < n)
    (hm : many (elementStep operand first) i = .ok others k) (hu : u.kind = .rightBracket)
    (hclose : k.Takes .visible u j) : Elements first i others j := by
  induction others generalizing i with
  | nil =>
    rcases many_eq_ok hm with ⟨hstop, -⟩ | ⟨_, _, _, -, h, -⟩
    · obtain ⟨-, rfl⟩ := elementStep_eq_none.1 hstop
      exact .close hu hclose
    · cases h
  | cons e others ih =>
    rcases many_eq_ok hm with ⟨-, h⟩ | ⟨_, m, _, hstep, h', hrest⟩
    · cases h
    · cases h'
      obtain ⟨hsep, hopen, he, hb⟩ := elementStep_eq_some.1 hstep
      have hs := separated_size_le i
      have he := h.parserAt levels (Nat.lt_of_le_of_lt hs hi) he
      have hlt := Nat.lt_of_lt_of_le he.size_lt hs
      exact .cons hsep hopen he hb (ih (Nat.lt_trans hlt hi) (hrest hlt))

theorem SoundBelow.body (h : SoundBelow n) {ss : List Statement} {i k j : Input} {u : Token}
    (hi : i.size < n) (hm : many (bodyStep operand) i = .ok ss k) (hu : u.kind = .rightBrace)
    (hclose : k.Takes .visible u j) : Body i ss j := by
  induction ss generalizing i with
  | nil =>
    rcases many_eq_ok hm with ⟨hstop, -⟩ | ⟨_, _, _, -, h, -⟩
    · obtain ⟨-, rfl⟩ := bodyStep_eq_none.1 hstop
      exact .close hu hclose
    · cases h
  | cons s ss ih =>
    rcases many_eq_ok hm with ⟨-, h⟩ | ⟨_, m, _, hstep, h', hrest⟩
    · cases h
    · cases h'
      obtain ⟨tag, value⟩ := s
      obtain ⟨k', m', hk, ht, he, hend⟩ := statementOver_eq_ok.1 (bodyStep_eq_some.1 hstep)
      have he := h.parserAt levels (Nat.lt_trans ht.size_lt hi) he
      have hlt := Nat.lt_of_le_of_lt (endUnit_size_le hend)
        (Nat.lt_trans he.size_lt ht.size_lt)
      exact .cons hk ht he hend (ih (Nat.lt_trans hlt hi) (hrest hlt))

theorem SoundBelow.primary (h : SoundBelow n) {i j : Input} {e : Expr} (hi : i.size ≤ n)
    (he : primaryOver operand i = .ok e j) : Primary i e j := by
  rcases primaryOver_eq_ok.1 he with ⟨t, value, hl, ht, rfl⟩ | ⟨t, k, hk, ht, hn⟩ |
    ⟨t, k, inner, m, u, hk, ht, hinner, hu, hclose, rfl⟩ | ⟨t, k, hk, ht, hs⟩
  · exact .literal hl ht
  · have hlt := Nat.lt_of_lt_of_le ht.size_lt hi
    rcases nameOver_eq_ok.1 hn with ⟨hbrace, rfl, rfl⟩ | ⟨hbrace, hb⟩
    · exact .name hk ht hbrace
    · obtain ⟨body, m, u, hm, hu, hclose, rfl⟩ := builderOver_eq_ok.1 hb
      have hlt := Nat.lt_of_le_of_lt (Input.size_advance_le .visible k) hlt
      exact .builder hk ht hbrace (h.body hlt hm hu hclose)
  · exact .grouping hk ht (h.parserAt levels (Nat.lt_of_lt_of_le ht.size_lt hi) hinner) hu hclose
  · have hlt := Nat.lt_of_lt_of_le ht.size_lt hi
    rcases sequenceOver_eq_ok.1 hs with ⟨u, hu, hclose, rfl⟩ |
      ⟨hopen, first, m, others, m', u, hf, ho, hu, hclose, rfl⟩
    · exact .empty hk ht hu hclose
    · have hf := h.parserAt levels hlt hf
      exact .sequence hk ht hopen hf (h.elements (Nat.lt_trans hf.size_lt hlt) ho hu hclose)

theorem SoundBelow.operand (h : SoundBelow n) {i j : Input} {e : Expr} (hi : i.size ≤ n)
    (he : Grammar.operand i = .ok e j) : Reads [] i e j := by
  rw [operand_eq] at he
  rcases operandOver_eq_ok.1 he with ⟨t, op, k, inner, hop, ht, hinner, rfl⟩ | ⟨-, hb⟩
  · exact .prefixed hop ht (h k (Nat.lt_of_lt_of_le ht.size_lt hi) _ _ hinner)
  · obtain ⟨left, k, hl, ⟨hstop, rfl, rfl⟩ | ⟨colon, m, right, hk, ht, hr, rfl⟩⟩ :=
      bindingOver_eq_ok.1 hb
    · exact .primary (h.primary hi hl) hstop
    · have hl := h.primary hi hl
      have hlt := Nat.lt_of_lt_of_le (Nat.lt_trans ht.size_lt hl.size_lt) hi
      exact .bound hl hk ht (h.parserAt levels hlt hr)

theorem soundBelow (n : Nat) : SoundBelow n := by
  induction n using Nat.strongRecOn with
  | _ n ih =>
    intro i hi e j he
    exact (ih i.size hi).operand (Nat.le_refl _) he

end Sound

/-- **The parsers read exactly what can be derived.** -/
theorem parserAt_eq_ok_iff (ls : List Level) {i j : Input} {e : Expr} :
    parserAt ls i = .ok e j ↔ Reads ls i e j :=
  ⟨(soundBelow (i.size + 1)).parserAt ls (Nat.lt_succ_self _), Reads.parses⟩

theorem statement_eq_ok_iff {s : Statement} {i j : Input} :
    statement i = .ok s j ↔ ∃ k m, s.tag.kind = .identifier ∧ i.Takes .visible s.tag k ∧
      Reads levels k s.value m ∧ endUnit false m = some j := by
  refine statementOver_eq_ok.trans ?_
  constructor
  · rintro ⟨k, m, hk, ht, he, hend⟩
    exact ⟨k, m, hk, ht, (parserAt_eq_ok_iff levels).1 he, hend⟩
  · rintro ⟨k, m, hk, ht, he, hend⟩
    exact ⟨k, m, hk, ht, he.parses, hend⟩

theorem item_eq_ok_iff {it : Item} {i j : Input} :
    item i = .ok it j ↔
      (opensStatement i = true ∧ ∃ s, it = .statement s ∧ statement i = .ok s j) ∨
      (opensStatement i = false ∧ ∃ e m, it = .expression e ∧ Reads levels i e m ∧
        endUnit false m = some j) := by
  rw [item_apply]
  cases opensStatement i with
  | true =>
    simp only [if_true, true_and, Bool.true_eq_false, false_and, or_false]
    refine bind_eq_ok.trans ⟨?_, ?_⟩
    · rintro ⟨s, m, hs, hm⟩
      obtain ⟨rfl, rfl⟩ := pure_eq_ok.1 hm
      exact ⟨s, rfl, hs⟩
    · rintro ⟨s, rfl, hs⟩
      exact ⟨s, j, hs, rfl⟩
  | false =>
    simp only [Bool.false_eq_true, if_false, false_and, true_and, false_or]
    refine bind_eq_ok.trans ⟨?_, ?_⟩
    · rintro ⟨e, m, he, hm⟩
      obtain ⟨_, _, hu, hr⟩ := bind_eq_ok.1 hm
      obtain ⟨rfl, rfl⟩ := pure_eq_ok.1 hr
      exact ⟨e, m, rfl, (parserAt_eq_ok_iff levels).1 he, unitEnd_eq_ok.1 hu⟩
    · rintro ⟨e, m, rfl, he, hend⟩
      exact ⟨e, m, he.parses, bind_eq_ok.2 ⟨(), j, unitEnd_eq_ok.2 hend, rfl⟩⟩

theorem size_lt_of_statement {s : Statement} {i j : Input} (h : statement i = .ok s j) :
    j.size < i.size := by
  obtain ⟨k, m, -, ht, he, hend⟩ := statement_eq_ok_iff.1 h
  have := ht.size_lt
  have := he.size_lt
  have := endUnit_size_le hend
  omega

theorem size_lt_of_item {it : Item} {i j : Input} (h : item i = .ok it j) : j.size < i.size := by
  rcases item_eq_ok_iff.1 h with ⟨-, s, -, hs⟩ | ⟨-, e, m, -, he, hend⟩
  · exact size_lt_of_statement hs
  · exact Nat.lt_of_le_of_lt (endUnit_size_le hend) he.size_lt

end LazyDecl.Grammar
