import LazyDecl.Proofs.Grammar.Derivation

/-!
Trees that respect precedence, told without the parser: every operand is as strong as
its place asks for, no binding stands open in front of an operator, a sequence is a
list or a table throughout, and every stored token is one that its node can be read
from (`Expr.Respects`).

* `Reads.shaped`: a tree that is derived at some level respects precedence, is as
  strong as that level, and is followed by no operator if it ends in a binding;
* `program_respects`: so is every tree of a program, whatever the tokens are.
-/

namespace LazyDecl

namespace Grammar

/-- The strength of a level. Prefix operators, bindings and primaries are stronger. -/
def Level.rank : Level → Nat
  | or => 0
  | and => 1
  | equality => 2
  | comparison => 3
  | term => 4
  | factor => 5

end Grammar

open Grammar (Level)

def UnaryOp.kind : UnaryOp → TokenKind
  | not => .bang
  | negate => .minus
  | plus => .plus
  | complement => .tilde

def BinaryOp.kind : BinaryOp → TokenKind
  | add => .plus
  | sub => .minus
  | mul => .star
  | div => .slash
  | equal => .equalEqual
  | notEqual => .bangEqual
  | less => .less
  | lessEqual => .lessEqual
  | greater => .greater
  | greaterEqual => .greaterEqual

def BinaryOp.level : BinaryOp → Level
  | add | sub => .term
  | mul | div => .factor
  | equal | notEqual => .equality
  | less | lessEqual | greater | greaterEqual => .comparison

def LogicalOp.kind : LogicalOp → TokenKind
  | and => .doubleAmpersand
  | or => .doublePipe

def LogicalOp.level : LogicalOp → Level
  | and => .and
  | or => .or

/-- A token that can be seen, of the kind that is asked for. -/
structure Token.Is (t : Token) (kind : TokenKind) : Prop where
  kind_eq : t.kind = kind
  visible : t.hidden = false

namespace Expr

/-- How strongly a tree holds together. -/
def rank : Expr → Nat
  | binary op .. => op.level.rank
  | logical op .. => op.level.rank
  | unary .. => 6
  | binding .. => 7
  | literal .. | name _ | grouping _ | sequence .. | builder .. => 8

/-- Whether a binding stands at the right edge, where an operator behind the tree would
become part of it. -/
def opensBinding : Expr → Bool
  | binding .. => true
  | unary _ _ operand => operand.opensBinding
  | binary _ _ _ right => right.opensBinding
  | logical _ _ _ right => right.opensBinding
  | literal .. | name _ | grouping _ | sequence .. | builder .. => false

end Expr

/-- Two trees that can be the operands of an operator of this level. -/
structure Grammar.Level.Joins (level : Level) (left right : Expr) : Prop where
  rank_le : level.rank ≤ left.rank
  closed : left.opensBinding = false
  rank_lt : level.rank < right.rank

mutual

def Expr.Respects : Expr → Prop
  | .literal value token => token.hidden = false ∧ Grammar.literal? token = some (.ok value)
  | .name token => token.Is .identifier
  | .grouping inner => inner.Respects
  | .unary op operator operand => operator.Is op.kind ∧ 6 ≤ operand.rank ∧ operand.Respects
  | .binary op operator left right =>
    operator.Is op.kind ∧ op.level.Joins left right ∧ left.Respects ∧ right.Respects
  | .logical op operator left right =>
    operator.Is op.kind ∧ op.level.Joins left right ∧ left.Respects ∧ right.Respects
  | .binding left colon right =>
    colon.Is .colon ∧ left.rank = 8 ∧ left.Respects ∧ right.Respects
  | .sequence opening elements =>
    opening.Is .leftBracket ∧
      ((∀ e ∈ elements, e.isBinding = true) ∨ (∀ e ∈ elements, e.isBinding = false)) ∧
        elementsRespect elements
  | .builder kind body => kind.Is .identifier ∧ bodyRespects body

def elementsRespect : List Expr → Prop
  | [] => True
  | e :: es => e.Respects ∧ elementsRespect es

def bodyRespects : List Statement → Prop
  | [] => True
  | ⟨tag, value⟩ :: ss => tag.Is .identifier ∧ value.Respects ∧ bodyRespects ss

end

instance (t : Token) (kind : TokenKind) : Decidable (t.Is kind) :=
  decidable_of_iff (t.kind = kind ∧ t.hidden = false) ⟨fun h => ⟨h.1, h.2⟩, fun h => ⟨h.1, h.2⟩⟩

instance (level : Level) (left right : Expr) : Decidable (level.Joins left right) :=
  decidable_of_iff (level.rank ≤ left.rank ∧ left.opensBinding = false ∧ level.rank < right.rank)
    ⟨fun h => ⟨h.1, h.2.1, h.2.2⟩, fun h => ⟨h.1, h.2, h.3⟩⟩

mutual

def decideRespects : (e : Expr) → Decidable e.Respects
  | .literal .. => inferInstanceAs (Decidable (_ ∧ _))
  | .name token => inferInstanceAs (Decidable (token.Is _))
  | .grouping inner => decideRespects inner
  | .unary _ _ operand =>
    have := decideRespects operand
    inferInstanceAs (Decidable (_ ∧ _ ∧ _))
  | .binary _ _ left right | .logical _ _ left right =>
    have := decideRespects left
    have := decideRespects right
    inferInstanceAs (Decidable (_ ∧ _ ∧ _ ∧ _))
  | .binding left _ right =>
    have := decideRespects left
    have := decideRespects right
    inferInstanceAs (Decidable (_ ∧ _ ∧ _ ∧ _))
  | .sequence _ elements =>
    have := decideElementsRespect elements
    inferInstanceAs (Decidable (_ ∧ (_ ∨ _) ∧ _))
  | .builder _ body =>
    have := decideBodyRespects body
    inferInstanceAs (Decidable (_ ∧ _))

def decideElementsRespect : (es : List Expr) → Decidable (elementsRespect es)
  | [] => .isTrue trivial
  | e :: es =>
    have := decideRespects e
    have := decideElementsRespect es
    inferInstanceAs (Decidable (_ ∧ _))

def decideBodyRespects : (ss : List Statement) → Decidable (bodyRespects ss)
  | [] => .isTrue trivial
  | ⟨_, value⟩ :: ss =>
    have := decideRespects value
    have := decideBodyRespects ss
    inferInstanceAs (Decidable (_ ∧ _ ∧ _))

end

instance (e : Expr) : Decidable e.Respects := decideRespects e

def Item.Respects : Item → Prop
  | statement s => s.tag.Is .identifier ∧ s.value.Respects
  | expression e => e.Respects

namespace Grammar

/-! ## Operators and levels -/

theorem prefixOp?_eq_some {kind : TokenKind} {op : UnaryOp} :
    prefixOp? kind = some op ↔ kind = op.kind := by
  constructor
  · intro h
    cases kind <;> first | cases h; rfl | cases h
  · rintro rfl
    cases op <;> rfl

/-- The node of an operator is told by its kind. -/
theorem infixNode?_eq_some {level : Level} {kind : TokenKind}
    {node : Token → Expr → Expr → Expr} :
    infixNode? level kind = some node ↔
      (∃ op : BinaryOp, op.level = level ∧ op.kind = kind ∧ node = .binary op) ∨
      (∃ op : LogicalOp, op.level = level ∧ op.kind = kind ∧ node = .logical op) := by
  constructor
  · intro h
    unfold infixNode? at h
    split at h <;> cases h
    · exact .inr ⟨.or, rfl, rfl, rfl⟩
    · exact .inr ⟨.and, rfl, rfl, rfl⟩
    · exact .inl ⟨.equal, rfl, rfl, rfl⟩
    · exact .inl ⟨.notEqual, rfl, rfl, rfl⟩
    · exact .inl ⟨.less, rfl, rfl, rfl⟩
    · exact .inl ⟨.lessEqual, rfl, rfl, rfl⟩
    · exact .inl ⟨.greater, rfl, rfl, rfl⟩
    · exact .inl ⟨.greaterEqual, rfl, rfl, rfl⟩
    · exact .inl ⟨.add, rfl, rfl, rfl⟩
    · exact .inl ⟨.sub, rfl, rfl, rfl⟩
    · exact .inl ⟨.mul, rfl, rfl, rfl⟩
    · exact .inl ⟨.div, rfl, rfl, rfl⟩
  · rintro (⟨op, rfl, rfl, rfl⟩ | ⟨op, rfl, rfl, rfl⟩)
    · cases op <;> rfl
    · cases op <;> rfl

theorem mem_levels (l : Level) : l ∈ levels := by
  cases l <;> decide

/-- Along the levels, each one is weaker than those that stand below it. -/
theorem rank_add_length {l : Level} {ls : List Level} (h : l :: ls <:+ levels) :
    l.rank + ls.length = 5 := by
  obtain ⟨before, h⟩ := h
  have hlen : before.length + (ls.length + 1) = 6 := by
    simpa [levels] using congrArg List.length h
  have hl : levels[before.length]? = some l := by simp [← h]
  have hbefore : before.length < 6 := by omega
  generalize before.length = n at hlen hl hbefore
  have hn : n = 0 ∨ n = 1 ∨ n = 2 ∨ n = 3 ∨ n = 4 ∨ n = 5 := by omega
  rcases hn with rfl | rfl | rfl | rfl | rfl | rfl <;> cases hl <;>
    simp only [Level.rank] <;> omega

/-! ## Derived trees -/

mutual

/-- A level is left only where none of its operators follows, nor one of a level below. -/
theorem Reads.stops {ls : List Level} {i j : Input} {e : Expr} (h : Reads ls i e j) :
    ∀ l ∈ ls, infixNode? l (j.peek .visible).kind = none := by
  match h with
  | .level hc hstop =>
    intro l hl
    rcases List.mem_cons.1 hl with rfl | hl
    · exact hstop
    · exact hc.stops l hl
  | .prefixed .. | .bound .. | .primary .. => nofun

theorem Chain.stops {l : Level} {ls : List Level} {i j : Input} {e : Expr}
    (h : Chain l ls i e j) : ∀ l ∈ ls, infixNode? l (j.peek .visible).kind = none := by
  match h with
  | .first he => exact he.stops
  | .more _ _ _ he _ => exact he.stops

end

/-- The strength that the levels `ls` ask for. -/
def least (ls : List Level) : Nat := 6 - ls.length

/-- What is known of a tree of at least this strength, and of the input behind it. -/
structure Shaped (strength : Nat) (e : Expr) (j : Input) : Prop where
  respects : e.Respects
  le_rank : strength ≤ e.rank
  stops : e.opensBinding = true → ∀ l, infixNode? l (j.peek .visible).kind = none

theorem Shaped.mono {m n : Nat} {e : Expr} {j : Input} (h : Shaped n e j) (hm : m ≤ n) :
    Shaped m e j :=
  ⟨h.respects, Nat.le_trans hm h.le_rank, h.stops⟩

/-- A tree is not closed off by an operator unless its own right edge is closed. -/
theorem Shaped.closed {n : Nat} {e : Expr} {j k : Input} {l : Level} {t : Token}
    {node : Token → Expr → Expr → Expr} (h : Shaped n e j)
    (hnode : infixNode? l t.kind = some node) (ht : j.Takes .visible t k) :
    e.opensBinding = false := by
  cases ho : e.opensBinding with
  | false => rfl
  | true =>
    have := h.stops ho l
    rw [ht.peek_eq, hnode] at this
    cases this

theorem Shaped.join {l : Level} {t : Token} {node : Token → Expr → Expr → Expr}
    {left right : Expr} {j k m : Input} (hleft : Shaped l.rank left j)
    (hnode : infixNode? l t.kind = some node) (ht : j.Takes .visible t k)
    (hright : Shaped (l.rank + 1) right m) : Shaped l.rank (node t left right) m := by
  have hjoins : l.Joins left right := ⟨hleft.le_rank, hleft.closed hnode ht, hright.le_rank⟩
  rcases infixNode?_eq_some.1 hnode with ⟨op, rfl, hk, rfl⟩ | ⟨op, rfl, hk, rfl⟩
  · exact ⟨⟨⟨hk.symm, ht.not_hidden⟩, hjoins, hleft.respects, hright.respects⟩,
      Nat.le_refl _, hright.stops⟩
  · exact ⟨⟨⟨hk.symm, ht.not_hidden⟩, hjoins, hleft.respects, hright.respects⟩,
      Nat.le_refl _, hright.stops⟩

theorem alike_isBinding {first : Expr} {others : List Expr}
    (h : ∀ e ∈ others, e.isBinding = first.isBinding) :
    (∀ e ∈ first :: others, e.isBinding = true) ∨
      (∀ e ∈ first :: others, e.isBinding = false) := by
  have hall : ∀ e ∈ first :: others, e.isBinding = first.isBinding := by
    intro e he
    rcases List.mem_cons.1 he with rfl | he
    · rfl
    · exact h e he
  cases hf : first.isBinding with
  | true => exact .inl fun e he => (hall e he).trans hf
  | false => exact .inr fun e he => (hall e he).trans hf

theorem Primary.rank_eq {i j : Input} {e : Expr} (h : Primary i e j) : e.rank = 8 := by
  cases h <;> rfl

theorem Primary.opensBinding_eq {i j : Input} {e : Expr} (h : Primary i e j) :
    e.opensBinding = false := by
  cases h <;> rfl

mutual

theorem Reads.shaped {ls : List Level} {i j : Input} {e : Expr} (h : Reads ls i e j)
    (hls : ls <:+ levels) : Shaped (least ls) e j := by
  match h with
  | .level hc _ =>
    have hr := rank_add_length hls
    refine (hc.shaped hls).mono ?_
    simp only [least, List.length_cons]
    omega
  | .prefixed hop ht he =>
    have he := he.shaped hls
    exact ⟨⟨⟨prefixOp?_eq_some.1 hop, ht.not_hidden⟩, he.le_rank, he.respects⟩,
      Nat.le_refl _, he.stops⟩
  | .bound hl hk ht hr =>
    have hstops := hr.stops
    exact ⟨⟨⟨hk, ht.not_hidden⟩, hl.rank_eq, hl.respects,
      (hr.shaped (List.suffix_refl _)).respects⟩, by simp [least, Expr.rank],
      fun _ l => hstops l (mem_levels l)⟩
  | .primary hp _ =>
    refine ⟨hp.respects, by simp [hp.rank_eq, least], fun ho => ?_⟩
    rw [hp.opensBinding_eq] at ho
    cases ho

theorem Chain.shaped {l : Level} {ls : List Level} {i j : Input} {e : Expr}
    (h : Chain l ls i e j) (hls : l :: ls <:+ levels) : Shaped l.rank e j := by
  have hr := rank_add_length hls
  have htail : ls <:+ levels := (List.suffix_cons l ls).trans hls
  match h with
  | .first he =>
    refine (he.shaped htail).mono ?_
    simp only [least]
    omega
  | .more hc hnode ht he heq =>
    have he := (he.shaped htail).mono (m := l.rank + 1) (by simp only [least]; omega)
    rw [heq]
    exact (hc.shaped hls).join hnode ht he

theorem Primary.respects {i j : Input} {e : Expr} (h : Primary i e j) : e.Respects := by
  match h with
  | .literal hl ht => exact ⟨ht.not_hidden, hl⟩
  | .name hk ht _ => exact ⟨hk, ht.not_hidden⟩
  | .builder hk ht _ hb => exact ⟨⟨hk, ht.not_hidden⟩, hb.respects⟩
  | .grouping _ _ he _ _ => exact (he.shaped (List.suffix_refl _)).respects
  | .empty hk ht _ _ => exact ⟨⟨hk, ht.not_hidden⟩, .inl nofun, trivial⟩
  | .sequence hk ht _ he hs =>
    have hs := hs.respects
    exact ⟨⟨hk, ht.not_hidden⟩, alike_isBinding hs.1,
      (he.shaped (List.suffix_refl _)).respects, hs.2⟩

theorem Elements.respects {first : Expr} {i j : Input} {es : List Expr}
    (h : Elements first i es j) :
    (∀ e ∈ es, e.isBinding = first.isBinding) ∧ elementsRespect es := by
  match h with
  | .close _ _ => exact ⟨nofun, trivial⟩
  | .cons _ _ he hb hs =>
    have hs := hs.respects
    refine ⟨fun e' he' => ?_, (he.shaped (List.suffix_refl _)).respects, hs.2⟩
    rcases List.mem_cons.1 he' with rfl | he'
    · exact hb
    · exact hs.1 _ he'

theorem Body.respects {i j : Input} {ss : List Statement} (h : Body i ss j) :
    bodyRespects ss := by
  match h with
  | .close _ _ => trivial
  | .cons hk ht he _ hs =>
    exact ⟨⟨hk, ht.not_hidden⟩, (he.shaped (List.suffix_refl _)).respects, hs.respects⟩

end

/-! ## Programs -/

theorem statement_respects {i j : Input} {s : Statement} (h : statement i = .ok s j) :
    (Item.statement s).Respects := by
  obtain ⟨k, m, hk, ht, he, -⟩ := statement_eq_ok_iff.1 h
  exact ⟨⟨hk, ht.not_hidden⟩, (he.shaped (List.suffix_refl _)).respects⟩

theorem item_respects {i j : Input} {it : Item} (h : item i = .ok it j) : it.Respects := by
  rcases item_eq_ok_iff.1 h with ⟨-, s, rfl, hs⟩ | ⟨-, e, m, rfl, he, -⟩
  · exact statement_respects hs
  · exact (he.shaped (List.suffix_refl _)).respects

/-- Every tree of a program respects precedence, also beside units that fail. -/
theorem program_respects (mode : Mode) (ts : List Token) :
    ∀ it ∈ (program mode ts).1.items, it.Respects := by
  intro it hit
  cases mode with
  | batch =>
    obtain ⟨s, hs, rfl⟩ := List.mem_map.1 hit
    obtain ⟨j, k, h⟩ := accepted_units hs
    exact statement_respects h
  | interactive =>
    obtain ⟨j, k, h⟩ := accepted_units hit
    exact item_respects h

end Grammar

end LazyDecl
