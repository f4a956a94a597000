import LazyDecl.Proofs.Grammar.Derivation

/-!
Derivations carried over from one input to another one. What a derivation asks of its input is
little: the tokens that it takes, the kind of the token behind an operand, and, behind an operand,
what ends an element or a statement. A relation between inputs that keeps the answers
(`Carries`) keeps the derivation and its tree.

* `Carries.reads`: by induction on the derivation, one case a rule.
-/

namespace LazyDecl.Grammar

/-- Whether an operand can end with a token of this kind. -/
def endsOperand : TokenKind → Bool
  | .identifier | .integer | .decimal | .string | .boolean _ => true
  | .rightParen | .rightBracket | .rightBrace => true
  | _ => false

theorem endsOperand_of_literal? {t : Token} {read : Except SyntaxCause Literal}
    (h : literal? t = some read) : endsOperand t.kind = true := by
  rcases literal?_kind h with ⟨b, hk⟩ | hk | hk | hk <;> rw [hk] <;> rfl

/-- Whether what follows a name makes it a builder. -/
def opensBuilder (i : Input) : Bool := !i.skipped && i.check .hidden .leftBrace

theorem takes_of_opensBuilder {i : Input} (hi : View.visible.ahead i.rest = i.rest)
    (h : opensBuilder i = true) : ∃ u, i.Takes .visible u (i.advance .visible).2 := by
  have hk : (i.peek .hidden).kind = .leftBrace := by
    simp only [opensBuilder, Bool.and_eq_true] at h
    exact (Input.check_iff (by decide)).1 h.2
  have hpeek : i.peek .visible = i.peek .hidden := by
    unfold Input.peek
    rw [hi]
    rfl
  exact ⟨_, Input.takes_peek (by simp [hpeek, hk])⟩

/-- Where the same token comes next and nothing or something has been stepped over on both sides,
a unit ends on both sides, and in the same way. -/
theorem endUnit_alike {inBuilder : Bool} {i i' j : Input} (hpeek : i'.peek .hidden = i.peek .hidden)
    (hskipped : i'.skipped = i.skipped) (h : endUnit inBuilder i = some j) :
    (j = i ∧ endUnit inBuilder i' = some i') ∨
      (j = (i.advance .hidden).2 ∧ endUnit inBuilder i' = some (i'.advance .hidden).2) := by
  have hend : i'.isAtEnd .hidden = i.isAtEnd .hidden := by simp only [Input.isAtEnd, hpeek]
  unfold endUnit at h ⊢
  rw [hend, hskipped, hpeek]
  split at h
  · cases h
    exact .inl ⟨rfl, if_pos ‹_›⟩
  rw [if_neg ‹_›]
  split at h
  · cases h
    exact .inr ⟨rfl, if_pos ‹_›⟩
  rw [if_neg ‹_›]
  split at h
  · cases h
    exact .inl ⟨rfl, if_pos ‹_›⟩
  · cases h

/-- Inputs `i` and `i'` that are `near` look the same to a derivation that starts there, and those
that are `behind` a token `t` to one that has just taken it. What follows an operand need only
look the same where the first input is `quiet`, as all inputs are in which a token can be seen. -/
structure Carries (near : Input → Input → Prop) (behind : Token → Input → Input → Prop)
    (quiet : Input → Prop) : Prop where
  near_of_behind {t i i'} : behind t i i' → near i i'
  quiet_of_shows {i} : i.Shows → quiet i
  takes {t i i' j} : near i i' → i.Takes .visible t j →
    ∃ j', i'.Takes .visible t j' ∧ behind t j j'
  peek {i i'} : near i i' → i.Shows → i'.peek .visible = i.peek .visible
  no_infix {l i i'} : near i i' → quiet i → infixNode? l (i.peek .visible).kind = none →
    infixNode? l (i'.peek .visible).kind = none
  not_colon {i i'} : near i i' → quiet i → (i.peek .visible).kind ≠ .colon →
    (i'.peek .visible).kind ≠ .colon
  brace {t i i'} : behind t i i' → t.kind = .identifier → opensBuilder i' = opensBuilder i
  takes_brace {t i i'} : behind t i i' → opensBuilder i = true →
    ∃ u, i.Takes .visible u (i.advance .visible).2
  separates {t i i'} : behind t i i' → endsOperand t.kind = true → (separated i).2.Shows →
    ((separated i).1 = true → (separated i').1 = true) ∧ near (separated i).2 (separated i').2
  ends {t inBuilder i i' j} : behind t i i' → endsOperand t.kind = true →
    endUnit inBuilder i = some j → j.Shows → ∃ j', endUnit inBuilder i' = some j' ∧ near j j'

/-- The inputs behind an operand. -/
def Closed (behind : Token → Input → Input → Prop) (i i' : Input) : Prop :=
  ∃ t, endsOperand t.kind = true ∧ behind t i i'

namespace Carries

variable {near : Input → Input → Prop} {behind : Token → Input → Input → Prop}
  {quiet : Input → Prop} (hc : Carries near behind quiet) {i i' j : Input}

include hc

theorem closed {t : Token} (hk : endsOperand t.kind = true) (h : near i i')
    (ht : i.Takes .visible t j) : ∃ j', i'.Takes .visible t j' ∧ Closed behind j j' := by
  obtain ⟨j', ht', hj⟩ := hc.takes h ht
  exact ⟨j', ht', t, hk, hj⟩

theorem near_of_closed (h : Closed behind i i') : near i i' := by
  obtain ⟨t, -, h⟩ := h
  exact hc.near_of_behind h

mutual

/-- **A derivation is carried over**, if what follows it is quiet. -/
theorem reads {ls : List Level} {i i' j : Input} {e : Expr} (h : Reads ls i e j)
    (hi : near i i') (hq : quiet j) : ∃ j', Reads ls i' e j' ∧ Closed behind j j' := by
  match h with
  | .level hchain hstop =>
    obtain ⟨j', hchain', hj⟩ := chain hchain hi hq
    exact ⟨j', .level hchain' (hc.no_infix (hc.near_of_closed hj) hq hstop), hj⟩
  | .prefixed hop ht he =>
    obtain ⟨k, ht', hk⟩ := hc.takes hi ht
    obtain ⟨j', he', hj⟩ := reads he (hc.near_of_behind hk) hq
    exact ⟨j', .prefixed hop ht' he', hj⟩
  | .bound hl hcolon ht hr =>
    obtain ⟨k, hl', hk⟩ := primary hl hi
    obtain ⟨m, ht', hm⟩ := hc.takes (hc.near_of_closed hk) ht
    obtain ⟨j', hr', hj⟩ := reads hr (hc.near_of_behind hm) hq
    exact ⟨j', .bound hl' hcolon ht' hr', hj⟩
  | .primary hp hstop =>
    obtain ⟨j', hp', hj⟩ := primary hp hi
    exact ⟨j', .primary hp' (hc.not_colon (hc.near_of_closed hj) hq hstop), hj⟩

theorem chain {l : Level} {ls : List Level} {i i' j : Input} {e : Expr}
    (h : Chain l ls i e j) (hi : near i i') (hq : quiet j) :
    ∃ j', Chain l ls i' e j' ∧ Closed behind j j' := by
  match h with
  | .first he =>
    obtain ⟨j', he', hj⟩ := reads he hi hq
    exact ⟨j', .first he', hj⟩
  | .more hchain hnode ht he heq =>
    obtain ⟨k, hchain', hk⟩ := chain hchain hi (hc.quiet_of_shows ht.shows)
    obtain ⟨m, ht', hm⟩ := hc.takes (hc.near_of_closed hk) ht
    obtain ⟨j', he', hj⟩ := reads he (hc.near_of_behind hm) hq
    exact ⟨j', .more hchain' hnode ht' he' heq, hj⟩

theorem primary {i i' j : Input} {e : Expr} (h : Primary i e j) (hi : near i i') :
    ∃ j', Primary i' e j' ∧ Closed behind j j' := by
  match h with
  | .literal hl ht =>
    obtain ⟨j', ht', hj⟩ := hc.closed (endsOperand_of_literal? hl) hi ht
    exact ⟨j', .literal hl ht', hj⟩
  | .name hk ht hbrace =>
    obtain ⟨j', ht', hj⟩ := hc.takes hi ht
    exact ⟨j', .name hk ht' ((hc.brace hj hk).trans hbrace), _, hk ▸ rfl, hj⟩
  | .builder hk ht hbrace hb =>
    obtain ⟨k, ht', hk'⟩ := hc.takes hi ht
    have hbrace' := (hc.brace hk' hk).trans hbrace
    obtain ⟨u, hu⟩ := hc.takes_brace hk' hbrace
    obtain ⟨m, hu', hm⟩ := hc.takes (hc.near_of_behind hk') hu
    obtain ⟨j', hb', hj⟩ := body hb (hc.near_of_behind hm)
    have hadvance : (k.advance .visible).2 = m := congrArg Prod.snd hu'.advance
    exact ⟨j', .builder hk ht' hbrace' (hadvance ▸ hb'), hj⟩
  | .grouping hk ht he hu hclose =>
    obtain ⟨k, ht', hk'⟩ := hc.takes hi ht
    obtain ⟨m, he', hm⟩ :=
      reads he (hc.near_of_behind hk') (hc.quiet_of_shows hclose.shows)
    obtain ⟨j', hclose', hj⟩ := hc.closed (hu ▸ rfl) (hc.near_of_closed hm) hclose
    exact ⟨j', .grouping hk ht' he' hu hclose', hj⟩
  | .empty hk ht hu hclose =>
    obtain ⟨k, ht', hk'⟩ := hc.takes hi ht
    obtain ⟨j', hclose', hj⟩ := hc.closed (hu ▸ rfl) (hc.near_of_behind hk') hclose
    exact ⟨j', .empty hk ht' hu hclose', hj⟩
  | .sequence hk ht hopen he hs =>
    obtain ⟨k, ht', hk'⟩ := hc.takes hi ht
    obtain ⟨m, he', hm⟩ := reads he (hc.near_of_behind hk') (hc.quiet_of_shows hs.shows)
    obtain ⟨j', hs', hj⟩ := elements hs hm
    exact ⟨j', .sequence hk ht' (hc.peek (hc.near_of_behind hk') he.shows ▸ hopen) he' hs', hj⟩

theorem elements {first : Expr} {i i' j : Input} {es : List Expr} (h : Elements first i es j)
    (hi : Closed behind i i') : ∃ j', Elements first i' es j' ∧ Closed behind j j' := by
  obtain ⟨t, hk, hi⟩ := hi
  match h with
  | .close hu hclose =>
    obtain ⟨-, hsep⟩ := hc.separates hi hk hclose.shows
    obtain ⟨j', hclose', hj⟩ := hc.closed (hu ▸ rfl) hsep hclose
    exact ⟨j', .close hu hclose', hj⟩
  | .cons hfound hopen he hb hs =>
    obtain ⟨hfound', hsep⟩ := hc.separates hi hk he.shows
    obtain ⟨k, he', hk'⟩ := reads he hsep (hc.quiet_of_shows hs.shows)
    obtain ⟨j', hs', hj⟩ := elements hs hk'
    exact ⟨j', .cons (hfound' hfound) (hc.peek hsep he.shows ▸ hopen) he' hb hs', hj⟩

theorem body {i i' j : Input} {ss : List Statement} (h : Body i ss j) (hi : near i i') :
    ∃ j', Body i' ss j' ∧ Closed behind j j' := by
  match h with
  | .close hu hclose =>
    obtain ⟨j', hclose', hj⟩ := hc.closed (hu ▸ rfl) hi hclose
    exact ⟨j', .close hu hclose', hj⟩
  | .cons hk ht he hend hs =>
    obtain ⟨k, ht', hk'⟩ := hc.takes hi ht
    obtain ⟨m, he', t, hclosed, hm⟩ := reads he (hc.near_of_behind hk')
      (hc.quiet_of_shows (hs.shows.of_suffix (endUnit_suffix hend)))
    obtain ⟨n, hend', hn⟩ := hc.ends hm hclosed hend hs.shows
    obtain ⟨j', hs', hj⟩ := body hs hn
    exact ⟨j', .cons hk ht' he' hend' hs', hj⟩

end

end Carries

end LazyDecl.Grammar
