import LazyDecl.Proofs.Grammar.Carried

/-!
Line breaks inside expressions. Next to an operator, a bracket or a comma, and between the tag of a
statement and its value, a line break makes no difference: expressions are read as if it were not
there, and where an element or a statement ends nothing but the break itself could be told apart.

* `FreeBreak a b`: the kinds of visible tokens between which a line break is free;
* `Broken`: line ends put at such places, any number of them;
* `Broken.carries`: derivations do not notice them;
* `program_broken`: nor does the program.
-/

namespace LazyDecl.Grammar

open LazyDecl.Parser

/-! ## Where line breaks are free -/

/-- Between visible tokens of these kinds a line break is free: between the tag of a statement and
its value, next to an infix operator or a colon, behind a prefix operator, next to a bracket on its
inner side, and next to a comma. Which part a token plays need not be known. Two names that follow
one another on a line are a tag and its value, and those on two lines have a break between them. -/
inductive FreeBreak : TokenKind → TokenKind → Prop
  | value {b} : opensExpression b = true → FreeBreak .identifier b
  | behindInfix {l a b} : infixNode? l a ≠ none → FreeBreak a b
  | beforeInfix {l a b} : infixNode? l b ≠ none → FreeBreak a b
  | behindPrefix {a b} : prefixOp? a ≠ none → FreeBreak a b
  | behindColon {b} : FreeBreak .colon b
  | beforeColon {a} : FreeBreak a .colon
  | behindOpening {a b} : 0 < a.depth → FreeBreak a b
  | beforeClosing {a b} : b.depth < 0 → FreeBreak a b
  | behindComma {b} : FreeBreak .comma b
  | beforeComma {a} : FreeBreak a .comma

/-- Behind an operand no break is free in front of what a break could be confused with. -/
theorem FreeBreak.behind_operand {a b : TokenKind} (h : FreeBreak a b)
    (ha : endsOperand a = true) : b ≠ .leftBrace ∧ b ≠ .semicolon ∧ b ≠ .eol := by
  cases h with
  | value hb => cases b <;> simp_all [opensExpression]
  | @behindInfix l _ _ h => cases l <;> cases a <;> simp_all [infixNode?, endsOperand]
  | @beforeInfix l _ _ h => cases l <;> cases b <;> simp_all [infixNode?]
  | behindPrefix h => cases a <;> simp_all [prefixOp?, endsOperand]
  | behindColon | behindComma => cases ha
  | beforeColon | beforeComma => decide
  | behindOpening h => cases a <;> simp_all [TokenKind.depth, endsOperand]
  | beforeClosing h => cases b <;> simp_all [TokenKind.depth]

/-- The second run of tokens is the first one with line ends put at free places. In front of both
the last visible token is of the kind `before`. -/
inductive Broken : Option TokenKind → List Token → List Token → Prop
  | nil {before} : Broken before [] []
  | hidden {before t ts ts'} : t.hidden = true → Broken before ts ts' →
      Broken before (t :: ts) (t :: ts')
  | shown {before t ts ts'} : t.hidden = false → Broken (some t.kind) ts ts' →
      Broken before (t :: ts) (t :: ts')
  | line {a b eol ts ts'} : eol.kind = .eol → eol.hidden = true →
      ts.find? (!·.hidden) = some b → b.kind ≠ .eof → FreeBreak a b.kind →
      Broken (some a) ts ts' → Broken (some a) ts (eol :: ts')

namespace Broken

variable {before : Option TokenKind} {ts ts' : List Token} {a : TokenKind}

/-- Both runs show the same token, and behind it they are broken again. -/
theorem visible (h : Broken before ts ts') :
    (View.visible.ahead ts = [] ∧ View.visible.ahead ts' = []) ∨
      ∃ t us us', View.visible.ahead ts = t :: us ∧ View.visible.ahead ts' = t :: us' ∧
        t.hidden = false ∧ Broken (some t.kind) us us' := by
  induction h with
  | nil => exact .inl ⟨rfl, rfl⟩
  | hidden ht _ ih => rwa [View.ahead_cons_hidden ht, View.ahead_cons_hidden ht]
  | @shown _ t ts ts' ht h _ =>
    rw [View.ahead_cons_shown ht, View.ahead_cons_shown ht]
    exact .inr ⟨t, ts, ts', rfl, rfl, ht, h⟩
  | line _ heol _ _ _ _ ih => rwa [View.ahead_cons_hidden heol]

theorem ahead (h : Broken before ts ts') :
    Broken before (View.visible.ahead ts) (View.visible.ahead ts') := by
  rcases h.visible with ⟨h₁, h₂⟩ | ⟨t, us, us', h₁, h₂, ht, h⟩
  · rw [h₁, h₂]
    exact .nil
  · rw [h₁, h₂]
    exact .shown ht h

theorem skips (h : Broken before ts ts') (hs : View.visible.skips ts = true) :
    View.visible.skips ts' = true := by
  cases h with
  | nil => exact hs
  | hidden _ _ | shown _ _ => simpa using hs
  | line _ heol _ _ _ _ => simp [heol]

/-- A line break that was not there is a free one. -/
theorem free (h : Broken (some a) ts ts') (hs : View.visible.skips ts' = true) :
    View.visible.skips ts = true ∨ ∃ b ∈ (View.visible.ahead ts).head?, FreeBreak a b.kind := by
  cases h with
  | nil => exact .inl hs
  | hidden _ _ | shown _ _ => exact .inl (by simpa using hs)
  | @line _ b _ _ _ _ _ hb _ hfree _ =>
    refine .inr ⟨b, ?_, hfree⟩
    simpa [List.find?_eq_head?_dropWhile_not] using hb

/-- Line ends are separators. -/
theorem separators (h : Broken before ts ts') : ∃ before',
    Broken before' (ts.dropWhile (isSeparator ·.kind)) (ts'.dropWhile (isSeparator ·.kind)) := by
  induction h with
  | nil => exact ⟨none, .nil⟩
  | hidden ht h ih =>
    simp only [List.dropWhile_cons]
    split
    · exact ih
    · exact ⟨_, .hidden ht h⟩
  | shown ht h ih =>
    simp only [List.dropWhile_cons]
    split
    · exact ih
    · exact ⟨none, .shown ht h⟩
  | line hk _ _ _ _ _ ih => rwa [List.dropWhile_cons_of_pos (by simp [isSeparator, hk])]

theorem eq_nil (h : Broken before [] ts') : ts' = [] := by
  cases h with
  | nil => rfl
  | line _ _ hb => cases hb

/-- A final end mark stays what it is. -/
theorem concat {t : Token} (h : Broken before (ts ++ [t]) ts') :
    ∃ us, ts' = us ++ [t] ∧ (t.kind = .eof → Broken before ts us) := by
  generalize hts : ts ++ [t] = all at h
  induction h generalizing ts with
  | nil => simp at hts
  | @hidden _ u _ _ hu h ih =>
    cases ts with
    | nil =>
      obtain ⟨rfl, rfl⟩ := List.cons.inj hts
      exact ⟨[], by rw [h.eq_nil]; rfl, fun _ => .nil⟩
    | cons v ts =>
      obtain ⟨rfl, htail⟩ := List.cons.inj hts
      obtain ⟨us, rfl, hbroken⟩ := ih htail
      exact ⟨v :: us, rfl, fun ht => .hidden hu (hbroken ht)⟩
  | @shown _ u _ _ hu h ih =>
    cases ts with
    | nil =>
      obtain ⟨rfl, rfl⟩ := List.cons.inj hts
      exact ⟨[], by rw [h.eq_nil]; rfl, fun _ => .nil⟩
    | cons v ts =>
      obtain ⟨rfl, htail⟩ := List.cons.inj hts
      obtain ⟨us, rfl, hbroken⟩ := ih htail
      exact ⟨v :: us, rfl, fun ht => .shown hu (hbroken ht)⟩
  | @line _ b eol _ _ hk heol hb hlive hfree _ ih =>
    obtain ⟨us, rfl, hbroken⟩ := ih hts
    refine ⟨eol :: us, rfl, fun ht => .line hk heol ?_ hlive hfree (hbroken ht)⟩
    subst hts
    rw [List.find?_append, Option.or_eq_some_iff] at hb
    -- what the break stands in front of is not the end mark
    refine hb.resolve_right fun hlast => hlive ?_
    rw [List.mem_singleton.1 (List.mem_of_find?_eq_some hlast.2), ht]

/-! ## Inputs -/

/-- Inputs of which the one is broken. -/
structure Near (i i' : Input) : Prop where
  final : i'.final = i.final
  rest : ∃ before, Broken before i.rest i'.rest

/-- Such inputs just behind the token `t`. -/
structure Behind (t : Token) (i i' : Input) : Prop where
  final : i'.final = i.final
  rest : Broken (some t.kind) i.rest i'.rest
  visible : View.visible.ahead i.rest = i.rest
  visible' : View.visible.ahead i'.rest = i'.rest
  skipped : i.skipped = true → i'.skipped = true
  free : i'.skipped = true → i.skipped = true ∨ ∃ b ∈ i.rest.head?, FreeBreak t.kind b.kind

variable {i i' j : Input} {t : Token}

theorem Near.peek (h : Near i i') : i'.peek .visible = i.peek .visible := by
  obtain ⟨before, hrest⟩ := h.rest
  unfold Input.peek
  rcases hrest.visible with ⟨h₁, h₂⟩ | ⟨t, us, us', h₁, h₂, -, -⟩
  · rw [h₁, h₂]
    exact h.final
  · rw [h₁, h₂]
    rfl

theorem Near.takes (h : Near i i') (ht : i.Takes .visible t j) :
    ∃ j', i'.Takes .visible t j' ∧ Behind t j j' := by
  obtain ⟨before, hrest⟩ := h.rest
  obtain ⟨live, ts, hts, rfl⟩ := Input.takes_iff.1 ht
  rcases hrest.visible with ⟨h₁, -⟩ | ⟨u, us, us', h₁, h₂, -, hbroken⟩
  · rw [h₁] at hts
    cases hts
  · obtain ⟨rfl, rfl⟩ := List.cons.inj (h₁.symm.trans hts)
    exact ⟨_, Input.takes_iff.2 ⟨live, us', h₂, rfl⟩, h.final, hbroken.ahead,
      View.ahead_ahead _ us, View.ahead_ahead _ us', hbroken.skips, hbroken.free⟩

namespace Behind

theorem near (h : Behind t i i') : Near i i' := ⟨h.final, _, h.rest⟩

/-- What comes next is the same token, which can be seen. -/
theorem next (h : Behind t i i') : (i.rest = [] ∧ i'.rest = []) ∨
    ∃ u us us', i.rest = u :: us ∧ i'.rest = u :: us' ∧ u.hidden = false ∧
      Broken (some u.kind) us us' := by
  have hnext := h.rest.visible
  rwa [h.visible, h.visible'] at hnext

theorem peek (h : Behind t i i') : i'.peek .hidden = i.peek .hidden := by
  unfold Input.peek
  rcases h.next with ⟨h₁, h₂⟩ | ⟨u, us, us', h₁, h₂, -, -⟩
  · simp only [View.ahead_hidden, h₁, h₂]
    exact h.final
  · simp only [View.ahead_hidden, h₁, h₂]
    rfl

/-- A line break that was not there is in front of a token to which it makes no difference. -/
theorem skipped_eq (h : Behind t i i') (ht : endsOperand t.kind = true)
    (hk : (i.peek .hidden).kind = .leftBrace ∨ (i.peek .hidden).kind = .semicolon ∨
      (i.peek .hidden).kind = .eol) : i'.skipped = i.skipped := by
  cases hs : i.skipped with
  | true => exact h.skipped hs
  | false =>
    refine Bool.eq_false_iff.2 fun hs' => ?_
    rcases h.free hs' with hskipped | ⟨b, hb, hfree⟩
    · rw [hs] at hskipped
      cases hskipped
    · have hpeek : i.peek .hidden = b := by
        obtain ⟨us, hus⟩ := List.head?_eq_some_iff.1 hb
        simp [Input.peek, hus]
      obtain ⟨hbrace, hsemicolon, heol⟩ := hfree.behind_operand ht
      rw [hpeek] at hk
      rcases hk with hk | hk | hk
      · exact hbrace hk
      · exact hsemicolon hk
      · exact heol hk

theorem opensBuilder_eq (h : Behind t i i') (ht : t.kind = .identifier) :
    opensBuilder i' = opensBuilder i := by
  unfold opensBuilder Input.check Input.isAtEnd
  rw [h.peek]
  by_cases hk : (i.peek .hidden).kind = .leftBrace
  · rw [h.skipped_eq (ht ▸ rfl) (.inl hk)]
  · simp [hk]

theorem separates (h : Behind t i i') : ((separated i).1 = true → (separated i').1 = true) ∧
    Near (separated i).2 (separated i').2 := by
  unfold separated
  rw [h.peek]
  split
  · exact ⟨id, h.final, h.rest.separators⟩
  · exact ⟨h.skipped, h.near⟩

theorem near_advance (h : Behind t i i') :
    Near (i.advance .hidden).2 (i'.advance .hidden).2 := by
  rcases h.next with ⟨h₁, h₂⟩ | ⟨u, us, us', h₁, h₂, hu, hbroken⟩
  · rw [Input.advance_nil (v := .hidden) h₁, Input.advance_nil (v := .hidden) h₂]
    exact ⟨h.final, none, .nil⟩
  · rw [Input.advance_cons (v := .hidden) h₁, Input.advance_cons (v := .hidden) h₂]
    split
    · exact ⟨h.final, none, .shown hu hbroken⟩
    · exact ⟨h.final, _, hbroken⟩

theorem ends {inBuilder : Bool} (h : Behind t i i') (ht : endsOperand t.kind = true)
    (hj : endUnit inBuilder i = some j) : ∃ j', endUnit inBuilder i' = some j' ∧ Near j j' := by
  by_cases hs : i'.skipped = i.skipped
  · rcases endUnit_alike h.peek hs hj with ⟨rfl, hj'⟩ | ⟨rfl, hj'⟩
    · exact ⟨i', hj', h.near⟩
    · exact ⟨_, hj', h.near_advance⟩
  · -- the unit ends at the break, and has not taken anything in the first input either
    have hji : j = i := by
      rcases endUnit_eq_some hj with rfl | ⟨u, hu, htakes⟩
      · rfl
      · exact absurd (h.skipped_eq ht (.inr (htakes.peek_eq ▸ hu))) hs
    have hskipped : i'.skipped = true := by
      by_contra hnot
      have hnone := mt h.skipped hnot
      rw [Bool.not_eq_true] at hnot hnone
      exact hs (hnot.trans hnone.symm)
    exact ⟨i', by simp [endUnit, hskipped], hji ▸ h.near⟩

end Behind

/-- **Derivations do not notice line breaks at free places.** -/
theorem carries : Carries Near Behind fun _ => True where
  near_of_behind h := h.near
  quiet_of_shows _ := trivial
  takes := Near.takes
  peek h _ := h.peek
  no_infix h _ hk := by rwa [h.peek]
  not_colon h _ hk := by rwa [h.peek]
  brace := Behind.opensBuilder_eq
  takes_brace h := takes_of_opensBuilder h.visible
  separates h _ _ := h.separates
  ends h ht hj _ := h.ends ht hj

/-! ## Units -/

theorem near_ofTokens (h : Broken none ts ts') : Near (.ofTokens ts) (.ofTokens ts') := by
  cases ts using List.reverseRecOn with
  | nil => rw [h.eq_nil]; exact ⟨rfl, none, .nil⟩
  | append_singleton ts t =>
    obtain ⟨us, rfl, hbroken⟩ := h.concat
    by_cases ht : t.kind = .eof
    · rw [Input.ofTokens_concat _ ht, Input.ofTokens_concat _ ht]
      exact ⟨rfl, none, hbroken ht⟩
    · rw [Input.ofTokens_concat_live _ ht, Input.ofTokens_concat_live _ ht]
      exact ⟨rfl, none, h⟩

theorem statement_near {s : Statement} (hs : statement i = .ok s j) (h : Near i i') :
    ∃ j', statement i' = .ok s j' ∧ Near j j' := by
  obtain ⟨k, m, hk, ht, he, hend⟩ := statement_eq_ok_iff.1 hs
  obtain ⟨k', ht', hk'⟩ := h.takes ht
  obtain ⟨m', he', t, hclosed, hm⟩ := carries.reads he hk'.near trivial
  obtain ⟨j', hend', hj⟩ := hm.ends hclosed hend
  exact ⟨j', statement_eq_ok_iff.2 ⟨k', m', hk, ht', he', hend'⟩, hj⟩

theorem unitsRead_near {ss : List Statement} (h : UnitsRead .batch statement i ss)
    (hi : Near i i') : UnitsRead .batch statement i' ss := by
  induction h generalizing i' with
  | done hend => exact .done (by rwa [Input.isAtEnd, hi.peek])
  | @cons i _ _ _ hend hs _ ih =>
    have hstart : Near (unitStart .batch i) (unitStart .batch i') := ⟨hi.final, hi.rest⟩
    obtain ⟨j', hs', hj⟩ := statement_near hs hstart
    exact .cons (by rwa [Input.isAtEnd, hi.peek]) hs' (ih hj)

end Broken

/-- **Line breaks at free places make no difference** to a program that is read without an
error. -/
theorem program_broken {ts ts' : List Token} (h : (program .batch ts).2 = [])
    (hts : Broken none ts ts') : program .batch ts' = program .batch ts := by
  have hlt := fun (i : Input) (s : Statement) j (h : statement i = .ok s j) =>
    size_lt_of_statement h
  have hread := unitsRead_of_rejected hlt (show rejected (units .batch statement _) = [] from h)
  have hbroken := Broken.unitsRead_near hread hts.near_ofTokens
  have heq : units .batch statement (.ofTokens ts') = units .batch statement (.ofTokens ts) :=
    (hbroken.units_eq hlt).trans (hread.units_eq hlt).symm
  simp only [program, heq]

/-- The tokens of `x [-a, b]`. -/
def unbroken : List Token :=
  [⟨.identifier, "x", ⟨1, 1⟩, false⟩, ⟨.leftBracket, "[", ⟨1, 3⟩, false⟩,
    ⟨.minus, "-", ⟨1, 4⟩, false⟩, ⟨.identifier, "a", ⟨1, 5⟩, false⟩,
    ⟨.comma, ",", ⟨1, 6⟩, false⟩, ⟨.identifier, "b", ⟨1, 8⟩, false⟩,
    ⟨.rightBracket, "]", ⟨1, 9⟩, false⟩]

/-- Line breaks between all of these tokens. -/
theorem program_broken_everywhere :
    (program .batch unbroken).2 = [] ∧
      Broken none unbroken (unbroken.intersperse ⟨.eol, "\n", ⟨1, 2⟩, true⟩) ∧
      program .batch (unbroken.intersperse ⟨.eol, "\n", ⟨1, 2⟩, true⟩) =
        program .batch unbroken := by
  have hread : (program .batch unbroken).2 = [] := by decide +kernel
  have hbroken : Broken none unbroken (unbroken.intersperse ⟨.eol, "\n", ⟨1, 2⟩, true⟩) :=
    .shown rfl <| .line rfl rfl rfl (by decide) (.value rfl) <|
    .shown rfl <| .line rfl rfl rfl (by decide) (.behindOpening (by decide)) <|
    .shown rfl <| .line rfl rfl rfl (by decide) (.behindPrefix (by decide)) <|
    .shown rfl <| .line rfl rfl rfl (by decide) .beforeComma <|
    .shown rfl <| .line rfl rfl rfl (by decide) .behindComma <|
    .shown rfl <| .line rfl rfl rfl (by decide) (.beforeClosing (by decide)) <|
    .shown rfl .nil
  exact ⟨hread, hbroken, program_broken hread hbroken⟩

end LazyDecl.Grammar
