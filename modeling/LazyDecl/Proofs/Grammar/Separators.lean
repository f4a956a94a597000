import LazyDecl.Proofs.Grammar.Carried
import LazyDecl.Proofs.Grammar.Printing
import LazyDecl.Proofs.Grammar.Terminator

/-!
Sequences of which the elements are written with any separators between them. A run of tokens that
is read on its own as one whole expression is read as the same one in front of a separator, of the
next element or of the closing bracket, since none of these goes on with it. The exception is an
element that opens with a sign: behind line breaks alone it is read as the right side of the
element in front of it.

* `Wholly ts e`: the tokens `ts` are on their own the expression `e`;
* `Followed.carries`: what is read on its own is read in front of more tokens;
* `program_sequence`: the elements of a sequence are what they are on their own.
-/

namespace LazyDecl.Grammar

open LazyDecl.Parser

/-! ## In front of more tokens -/

/-- The first of these tokens that can be seen neither goes on with an expression nor makes a
builder of a name. -/
def Stops (ts : List Token) : Prop := ∃ t us, View.visible.ahead ts = t :: us ∧ Ends t.kind

namespace Followed

variable {c : List Token} {i i' j : Input} {t : Token}

/-- The second input shows what the first one does with `c` behind it. -/
def Near (c : List Token) (i i' : Input) : Prop :=
  View.visible.ahead i'.rest = View.visible.ahead (i.rest ++ c)

/-- Such inputs just behind a token. -/
structure Behind (c : List Token) (i i' : Input) : Prop where
  visible : View.visible.ahead i.rest = i.rest
  rest : i'.rest = View.visible.ahead (i.rest ++ c)
  skipped : i.rest ≠ [] → i'.skipped = i.skipped
  past : i.rest = [] → View.visible.skips c = true → i'.skipped = true

theorem Near.peek (h : Near c i i') (hi : i.Shows) : i'.peek .visible = i.peek .visible := by
  have ha := Input.shows_iff.1 hi
  unfold Input.peek
  rw [h, View.ahead_append ha]
  obtain ⟨t, ts, hts⟩ := List.exists_cons_of_ne_nil ha
  simp [hts]

/-- Behind its last token the second input goes on with `c`. -/
theorem Near.ends (hc : Stops c) (h : Near c i i') (hi : ¬i.Shows) :
    Ends (i'.peek .visible).kind := by
  obtain ⟨t, us, hts, hends⟩ := hc
  have ha := not_not.1 (mt Input.shows_iff.2 hi)
  unfold Input.peek
  rw [h, View.ahead_append_nil ha, hts]
  exact hends

theorem Near.takes (h : Near c i i') (ht : i.Takes .visible t j) :
    ∃ j', i'.Takes .visible t j' ∧ Behind c j j' := by
  obtain ⟨live, ts, hts, rfl⟩ := Input.takes_iff.1 ht
  have hts' : View.visible.ahead i'.rest = t :: (ts ++ c) := by
    rw [h, View.ahead_append (by simp [hts]), hts, List.cons_append]
  refine ⟨_, Input.takes_iff.2 ⟨live, _, hts', rfl⟩, View.ahead_ahead _ ts,
    (View.ahead_ahead_append .visible ts c).symm, fun hne => ?_, fun hnil hc => ?_⟩
  · cases ts with
    | nil => exact absurd rfl hne
    | cons u us => simp
  · cases ts with
    | nil => exact hc
    | cons u us =>
      have hu : u.hidden = true := List.dropWhile_eq_nil_iff.1 hnil u List.mem_cons_self
      simp [hu]

namespace Behind

theorem near (h : Behind c i i') : Near c i i' := by
  rw [Near, h.rest, View.ahead_ahead]

theorem rest_eq (h : Behind c i i') (hi : i.rest ≠ []) : i'.rest = i.rest ++ c := by
  have hne : View.visible.ahead i.rest ≠ [] := by rwa [h.visible]
  rw [h.rest, View.ahead_append hne, h.visible]

theorem peek (h : Behind c i i') (hi : i.rest ≠ []) : i'.peek .hidden = i.peek .hidden := by
  obtain ⟨t, ts, hts⟩ := List.exists_cons_of_ne_nil hi
  simp [Input.peek, h.rest_eq hi, hts]

theorem opensBuilder_eq (hc : Stops c) (h : Behind c i i') :
    opensBuilder i' = opensBuilder i := by
  by_cases hi : i.rest = []
  · obtain ⟨t, us, hts, hends⟩ := hc
    have hi' : i'.rest = t :: us := by rw [h.rest, hi, List.nil_append, hts]
    have hk : t.kind ≠ .leftBrace := hends.not_brace
    simp [opensBuilder, Input.check, Input.isAtEnd, Input.peek, hi, hi', hk, i.final_eof]
  · simp only [opensBuilder, Input.check, Input.isAtEnd, h.peek hi, h.skipped hi]

theorem separates (h : Behind c i i') (hs : (separated i).2.Shows) :
    ((separated i).1 = true → (separated i').1 = true) ∧
      Near c (separated i).2 (separated i').2 := by
  have hi := (hs.of_suffix (separated_suffix i)).rest_ne_nil
  have hne := hs.rest_ne_nil
  unfold separated at hne ⊢
  rw [h.peek hi, h.skipped hi]
  split
  · rename_i hsep
    rw [if_pos hsep] at hne
    refine ⟨id, ?_⟩
    have hdrop : i'.rest.dropWhile (isSeparator ·.kind) =
        i.rest.dropWhile (isSeparator ·.kind) ++ c := by
      rw [h.rest_eq hi, List.dropWhile_append, if_neg (by simpa using hne)]
    exact congrArg _ hdrop
  · exact ⟨id, h.near⟩

theorem near_advance (h : Behind c i i') (hi : i.rest ≠ []) :
    Near c (i.advance .hidden).2 (i'.advance .hidden).2 := by
  obtain ⟨t, ts, hts⟩ := List.exists_cons_of_ne_nil hi
  have hts' : i'.rest = t :: (ts ++ c) := by rw [h.rest_eq hi, hts, List.cons_append]
  rw [Input.advance_cons (v := .hidden) hts, Input.advance_cons (v := .hidden) hts']
  split <;> rfl

theorem ends {inBuilder : Bool} (h : Behind c i i') (hj : endUnit inBuilder i = some j)
    (hs : j.Shows) : ∃ j', endUnit inBuilder i' = some j' ∧ Near c j j' := by
  have hi := (hs.of_suffix (endUnit_suffix hj)).rest_ne_nil
  rcases endUnit_alike (h.peek hi) (h.skipped hi) hj with ⟨rfl, hj'⟩ | ⟨rfl, hj'⟩
  · exact ⟨i', hj', h.near⟩
  · exact ⟨_, hj', h.near_advance hi⟩

end Behind

/-- **What is read on its own is read in front of tokens that stop it.** -/
theorem carries (hc : Stops c) : Carries (Near c) (fun _ => Behind c) fun _ => True where
  near_of_behind h := h.near
  quiet_of_shows _ := trivial
  takes := Near.takes
  peek := Near.peek
  no_infix {_ i _} h _ hk := by
    by_cases hi : i.Shows
    · rwa [h.peek hi]
    · exact (h.ends hc hi).stops _
  not_colon {i _} h _ hk := by
    by_cases hi : i.Shows
    · rwa [h.peek hi]
    · exact (h.ends hc hi).not_colon
  brace h _ := h.opensBuilder_eq hc
  takes_brace h := takes_of_opensBuilder h.visible
  separates h _ := h.separates
  ends h _ := h.ends

end Followed

/-! ## Whole expressions -/

/-- The tokens are on their own one expression, and no more. -/
def Wholly (ts : List Token) (e : Expr) : Prop :=
  ∃ j, expression (.ofTokens (ts ++ [.eof .start])) = .ok e j ∧ j.rest = []

namespace Wholly

variable {ts c : List Token} {e : Expr} {i : Input}

theorem reads_alone (h : Wholly ts e) :
    ∃ i j, i.rest = ts ∧ Reads levels i e j ∧ j.rest = [] := by
  obtain ⟨j, he, hj⟩ := h
  rw [Input.ofTokens_concat _ rfl] at he
  exact ⟨_, j, rfl, (parserAt_eq_ok_iff levels).1 he, hj⟩

/-- The first token that can be seen opens the expression. -/
theorem opens (h : Wholly ts e) :
    ∃ t us, View.visible.ahead ts = t :: us ∧ opensExpression t.kind = true := by
  obtain ⟨i, j, rfl, he, -⟩ := h.reads_alone
  obtain ⟨t, us, hts⟩ := List.exists_cons_of_ne_nil (Input.shows_iff.1 he.shows)
  have hopens := he.opens
  unfold Input.peek at hopens
  rw [hts] at hopens
  exact ⟨t, us, hts, hopens⟩

/-- In front of tokens that stop it, the expression is the same, and they are what comes next. -/
theorem reads (h : Wholly ts e) (hc : Stops c)
    (hi : View.visible.ahead i.rest = View.visible.ahead (ts ++ c)) :
    ∃ j, Reads levels i e j ∧ j.rest = View.visible.ahead c ∧
      (View.visible.skips c = true → j.skipped = true) := by
  obtain ⟨k, j, rfl, he, hj⟩ := h.reads_alone
  obtain ⟨j', he', t, -, hbehind⟩ := (Followed.carries hc).reads he hi trivial
  have hrest := hbehind.rest
  rw [hj, List.nil_append] at hrest
  exact ⟨j', he', hrest, hbehind.past hj⟩

end Wholly

/-! ## Separators -/

/-- Whether the token is one of those that part the elements of a sequence. -/
def PartsElements (t : Token) : Prop :=
  t.kind = .eol ∧ t.hidden = true ∨ (t.kind = .comma ∨ t.kind = .semicolon) ∧ t.hidden = false

theorem PartsElements.isSeparator {t : Token} (h : PartsElements t) :
    isSeparator t.kind = true := by
  rcases h with ⟨hk, -⟩ | ⟨hk | hk, -⟩ <;> rw [hk] <;> rfl

theorem PartsElements.ends {t : Token} (h : PartsElements t) (ht : t.hidden = false) :
    Ends t.kind := by
  rcases h with ⟨-, hidden⟩ | ⟨hk | hk, -⟩
  · rw [ht] at hidden
    cases hidden
  · exact hk ▸ ends_comma
  · exact hk ▸ ends_semicolon

section Separators

variable {seps ts : List Token} {i : Input}

theorem ahead_dropWhile_separators
    (h : ∀ t ∈ (View.visible.ahead ts).head?, isSeparator t.kind = false) :
    View.visible.ahead (ts.dropWhile (isSeparator ·.kind)) = View.visible.ahead ts := by
  induction ts with
  | nil => rfl
  | cons t ts ih =>
    cases hk : isSeparator t.kind with
    | false => rw [List.dropWhile_cons_of_neg (by simp [hk])]
    | true =>
      cases ht : t.hidden with
      | true =>
        rw [View.ahead_cons_hidden ht] at h ⊢
        rw [List.dropWhile_cons_of_pos (by simpa using hk)]
        exact ih h
      | false =>
        rw [h t (by rw [View.ahead_cons_shown ht]; rfl)] at hk
        cases hk

/-- Behind separators stands what they are in front of. -/
theorem ahead_separated (hseps : ∀ t ∈ seps, PartsElements t)
    (hts : ∀ t ∈ (View.visible.ahead ts).head?, isSeparator t.kind = false)
    (hi : i.rest = View.visible.ahead (seps ++ ts)) :
    View.visible.ahead (separated i).2.rest = View.visible.ahead ts := by
  have hrest : (separated i).2.rest = i.rest.dropWhile (isSeparator ·.kind) := by
    unfold separated
    split
    · rfl
    · exact (dropWhile_separators (Bool.not_eq_true _ ▸ ‹_›)).symm
  rw [hrest, hi]
  clear hi hrest
  induction seps with
  | nil =>
    rw [List.nil_append, ahead_dropWhile_separators (by rwa [View.ahead_ahead]), View.ahead_ahead]
  | cons t seps ih =>
    rw [List.cons_append]
    cases ht : t.hidden with
    | true =>
      rw [View.ahead_cons_hidden ht]
      exact ih fun u hu => hseps u (List.mem_cons_of_mem t hu)
    | false =>
      have hall : ∀ u ∈ t :: seps, isSeparator u.kind = true := fun u hu => (hseps u hu).isSeparator
      rw [View.ahead_cons_shown ht, ← List.cons_append, List.dropWhile_append_of_pos hall,
        ahead_dropWhile_separators hts]

theorem separated_found (hne : seps ≠ []) (hseps : ∀ t ∈ seps, PartsElements t)
    (hi : i.rest = View.visible.ahead (seps ++ ts))
    (hskipped : View.visible.skips (seps ++ ts) = true → i.skipped = true) :
    (separated i).1 = true := by
  obtain ⟨t, seps, rfl⟩ := List.exists_cons_of_ne_nil hne
  unfold separated
  cases ht : t.hidden with
  | true =>
    -- a line end that is stepped over is remembered
    have hi' := hskipped (by simp [ht])
    split
    · rfl
    · exact hi'
  | false =>
    have hpeek : i.peek .hidden = t := by
      rw [List.cons_append, View.ahead_cons_shown ht] at hi
      simp [Input.peek, hi]
    rw [hpeek, if_pos (hseps t List.mem_cons_self).isSeparator]

end Separators

/-- A further element of a sequence, with the separators in front of it. -/
structure Element where
  separators : List Token
  tokens : List Token
  tree : Expr

namespace Element

def source (el : Element) : List Token := el.separators ++ el.tokens

/-- There are separators, and behind them a whole expression. -/
structure Follows (el : Element) : Prop where
  ne_nil : el.separators ≠ []
  parts : ∀ t ∈ el.separators, PartsElements t
  whole : Wholly el.tokens el.tree

/-- A sign is kept from the element in front by more than line ends. -/
def KeepsSign (el : Element) : Prop :=
  OpensWithSign el.tokens → ∃ t ∈ el.separators, t.hidden = false

end Element

/-- The tokens behind the first element of a sequence. -/
def behindFirst (others : List Element) (last : List Token) (closing : Token) : List Token :=
  others.flatMap Element.source ++ (last ++ [closing])

theorem behindFirst_cons (el : Element) (others : List Element) (last : List Token)
    (closing : Token) : behindFirst (el :: others) last closing =
      el.separators ++ (el.tokens ++ behindFirst others last closing) := by
  simp [behindFirst, Element.source]

theorem Stops.of_separators {seps ts : List Token} (hseps : ∀ t ∈ seps, PartsElements t)
    (h : (∃ t ∈ seps, t.hidden = false) ∨ Stops ts) : Stops (seps ++ ts) := by
  induction seps with
  | nil => exact h.resolve_left (by simp)
  | cons t seps ih =>
    unfold Stops
    rw [List.cons_append]
    cases ht : t.hidden with
    | true =>
      rw [View.ahead_cons_hidden ht]
      refine ih (fun u hu => hseps u (List.mem_cons_of_mem t hu)) (h.imp_left ?_)
      simp [ht]
    | false =>
      rw [View.ahead_cons_shown ht]
      exact ⟨t, _, rfl, (hseps t List.mem_cons_self).ends ht⟩

/-- An expression that opens with no sign does not go on with the one in front. -/
theorem Wholly.stops {ts : List Token} {e : Expr} (h : Wholly ts e) (hsign : ¬OpensWithSign ts)
    (us : List Token) : Stops (ts ++ us) := by
  obtain ⟨t, rest, hts, hopens⟩ := h.opens
  have hfind : ts.find? (!·.hidden) = some t := by
    rw [List.find?_eq_head?_dropWhile_not]
    simpa using congrArg List.head? hts
  have hfresh := TokenKind.fresh_of_opens hopens fun hs => hsign ⟨t, hfind, hs⟩
  refine ⟨t, rest ++ us, ?_, hfresh.no_infix, hfresh.not_colon, ?_⟩
  · rw [View.ahead_append (by simp [hts]), hts, List.cons_append]
  · intro hk
    rw [hk] at hopens
    cases hopens

theorem Reads.ne_rightBracket {ls : List Level} {i j : Input} {e : Expr} (h : Reads ls i e j) :
    (i.peek .visible).kind ≠ .rightBracket := by
  intro hk
  have hopens := h.opens
  rw [hk] at hopens
  cases hopens

section Sequence

variable {opening closing : Token} {last : List Token} (hclosing : closing.Is .rightBracket)
  (hlast : ∀ t ∈ last, PartsElements t)

include hclosing hlast

theorem stops_behindFirst (others : List Element) (hothers : ∀ el ∈ others, el.Follows)
    (hsigns : ∀ el ∈ others, el.KeepsSign) : Stops (behindFirst others last closing) := by
  cases others with
  | nil =>
    show Stops (last ++ [closing])
    refine .of_separators hlast (.inr ⟨closing, [], ?_, hclosing.kind_eq ▸ ends_rightBracket⟩)
    exact View.ahead_cons_shown hclosing.visible []
  | cons el others =>
    have hel := hothers el List.mem_cons_self
    rw [behindFirst_cons]
    refine .of_separators hel.parts ?_
    by_cases hsign : OpensWithSign el.tokens
    · exact .inl (hsigns el List.mem_cons_self hsign)
    · exact .inr (hel.whole.stops hsign _)

/-- **The elements behind the first one are what they are on their own.** -/
theorem elements_behindFirst {first : Expr} (others : List Element)
    (hothers : ∀ el ∈ others, el.Follows) (hsigns : ∀ el ∈ others, el.KeepsSign)
    (hb : ∀ el ∈ others, el.tree.isBinding = first.isBinding) {i : Input}
    (hi : i.rest = View.visible.ahead (behindFirst others last closing))
    (hskipped : View.visible.skips (behindFirst others last closing) = true → i.skipped = true) :
    ∃ j, Elements first i (others.map (·.tree)) j ∧ j.rest = [] := by
  induction others generalizing i with
  | nil =>
    have hhead : View.visible.ahead [closing] = [closing] :=
      View.ahead_cons_shown hclosing.visible []
    have hrest : View.visible.ahead (separated i).2.rest = View.visible.ahead [closing] :=
      ahead_separated hlast (by simp [hhead, hclosing.kind_eq, isSeparator]) hi
    rw [hhead] at hrest
    have htakes := Input.takes_iff.2 ⟨by simp [hclosing.kind_eq], [], hrest, rfl⟩
    exact ⟨_, .close hclosing.kind_eq htakes, rfl⟩
  | cons el others ih =>
    have hel := hothers el List.mem_cons_self
    have hothers' := fun u hu => hothers u (List.mem_cons_of_mem el hu)
    have hsigns' := fun u hu => hsigns u (List.mem_cons_of_mem el hu)
    rw [behindFirst_cons] at hi hskipped
    obtain ⟨t, us, hts, hopens⟩ := hel.whole.opens
    have hrest := ahead_separated hel.parts (fun u hu => ?_) hi
    · obtain ⟨j, he, hj, hjskipped⟩ :=
        hel.whole.reads (stops_behindFirst hclosing hlast others hothers' hsigns') hrest
      obtain ⟨k, hes, hk⟩ := ih hothers' hsigns'
        (fun u hu => hb u (List.mem_cons_of_mem el hu)) hj hjskipped
      exact ⟨k, .cons (separated_found hel.ne_nil hel.parts hi hskipped) he.ne_rightBracket he
        (hb el List.mem_cons_self) hes, hk⟩
    · rw [View.ahead_append (by simp [hts]), hts] at hu
      cases hu
      exact (Bool.or_eq_false_iff.1 (cannotOpen_eq_false hopens)).1

variable {ts : List Token} {e : Expr} {others : List Element}
  (hopening : opening.Is .leftBracket) (hfirst : Wholly ts e)
  (hothers : ∀ el ∈ others, el.Follows) (hsigns : ∀ el ∈ others, el.KeepsSign)
  (hbindings : ∀ el ∈ others, el.tree.isBinding = e.isBinding)

include hopening hfirst hothers hsigns hbindings

theorem sequence_reads {i : Input}
    (hi : i.rest = opening :: (ts ++ behindFirst others last closing)) :
    ∃ j, Reads levels i (.sequence opening (e :: others.map (·.tree))) j ∧ j.rest = [] := by
  have hnext : View.visible.ahead i.rest = opening :: (ts ++ behindFirst others last closing) := by
    rw [hi, View.ahead_cons_shown hopening.visible]
  obtain ⟨k, htakes, hk⟩ : ∃ k, i.Takes .visible opening k ∧
      k.rest = View.visible.ahead (ts ++ behindFirst others last closing) :=
    ⟨_, Input.takes_iff.2 ⟨by simp [hopening.kind_eq], _, hnext, rfl⟩, rfl⟩
  obtain ⟨j, he, hj, hskipped⟩ := hfirst.reads (i := k)
    (stops_behindFirst hclosing hlast others hothers hsigns) (by rw [hk, View.ahead_ahead])
  obtain ⟨m, hes, hm⟩ :=
    elements_behindFirst hclosing hlast others hothers hsigns hbindings hj hskipped
  have hpeek : (m.peek .visible).kind = .eof := by simp [Input.peek, hm, m.final_eof]
  have hprimary := Primary.sequence hopening.kind_eq htakes he.ne_rightBracket he hes
  have hreads := (Reads.primary hprimary (by simp [hpeek])).lift fun l (_ : l ∈ levels) =>
    hpeek ▸ infixNode?_eof l
  exact ⟨m, hreads, hm⟩

end Sequence

/-! ## Programs -/

theorem Wholly.of_reads {ts : List Token} {e : Expr}
    (h : ∀ i : Input, i.rest = ts → ∃ j, Reads levels i e j ∧ j.rest = []) : Wholly ts e := by
  obtain ⟨j, he, hj⟩ := h (.ofTokens (ts ++ [.eof .start])) (by rw [Input.ofTokens_concat _ rfl])
  exact ⟨j, he.parses, hj⟩

/-- The tokens of a tree are wholly that tree. -/
theorem Wholly.of_print (m : Marks) {e : Expr} (he : e.Respects) : Wholly (e.print m) e := by
  have hfinal : (Token.eof .start).kind = .eof := rfl
  have hread := (readable hfinal m e he).whole hfinal Visible.nil ends_eof
  rw [List.append_nil] at hread
  have hparses := hread.parses
  rw [ahead, ← Input.ofTokens_concat _ hfinal] at hparses
  exact ⟨_, hparses, rfl⟩

/-- **A sequence has the elements that its parts are on their own**, whatever separators are
written between them, if no sign stands behind line ends alone. -/
theorem program_sequence {opening closing : Token} {ts last : List Token} {e : Expr}
    {others : List Element} (hopening : opening.Is .leftBracket)
    (hclosing : closing.Is .rightBracket) (hfirst : Wholly ts e)
    (hothers : ∀ el ∈ others, el.Follows) (hlast : ∀ t ∈ last, PartsElements t)
    (hbindings : ∀ el ∈ others, el.tree.isBinding = e.isBinding)
    (hsigns : ∀ el ∈ others, el.KeepsSign) :
    Wholly (opening :: (ts ++ behindFirst others last closing))
        (.sequence opening (e :: others.map (·.tree))) ∧
      ∀ p, program .interactive (opening :: (ts ++ behindFirst others last closing) ++ [.eof p]) =
        (.interactive [.expression (.sequence opening (e :: others.map (·.tree)))], []) := by
  have hreads := fun (i : Input) =>
    sequence_reads hclosing hlast hopening hfirst hothers hsigns hbindings (i := i)
  refine ⟨.of_reads hreads, fun p => ?_⟩
  have hfinal : (Token.eof p).kind = .eof := rfl
  obtain ⟨j, he, hj⟩ := hreads (ahead hfinal _) rfl
  refine program_of_reads hfinal he hj ?_ ?_
  · rintro t ⟨⟩
    exact hopening.visible
  · simp [nextKind, hopening.kind_eq]

section Signs

def one : Expr := .literal (.integer 1) (seen .integer "1")

def minusTwo : Expr :=
  .unary .negate (seen .minus "-") (.literal (.integer 2) (seen .integer "2"))

def seenBreak : Token := { seen .eol "\n" with hidden := true }

/-- `-2`, with these separators in front. -/
def minusTwoBehind (separators : List Token) : Element :=
  ⟨separators, minusTwo.print .bare, minusTwo⟩

theorem wholly_one : Wholly (one.print .bare) one :=
  .of_print .bare (show one.Respects by decide +kernel)

theorem follows_minusTwo {separators : List Token} (hne : separators ≠ [])
    (hparts : ∀ t ∈ separators, PartsElements t) : (minusTwoBehind separators).Follows :=
  ⟨hne, hparts, .of_print .bare (show minusTwo.Respects by decide +kernel)⟩

theorem is_opening : (seen .leftBracket "[").Is .leftBracket := ⟨rfl, rfl⟩

theorem is_closing : (seen .rightBracket "]").Is .rightBracket := ⟨rfl, rfl⟩

/-- The sequence `[1`, a comma and a line break, and `-2;]`. -/
theorem program_sequence_comma :
    (∀ el ∈ [minusTwoBehind [seen .comma ",", seenBreak]], el.Follows ∧ el.KeepsSign) ∧
      program .interactive [seen .leftBracket "[", seen .integer "1", seen .comma ",", seenBreak,
          seen .minus "-", seen .integer "2", seen .semicolon ";", seen .rightBracket "]",
          .eof .start] =
        (.interactive [.expression (.sequence (seen .leftBracket "[") [one, minusTwo])], []) := by
  have hother : (minusTwoBehind [seen .comma ",", seenBreak]).Follows :=
    follows_minusTwo (by decide) (by simp [PartsElements, seen, seenBreak])
  have hsign : (minusTwoBehind [seen .comma ",", seenBreak]).KeepsSign :=
    fun _ => ⟨seen .comma ",", List.mem_cons_self, rfl⟩
  have hlast : ∀ t ∈ [seen .semicolon ";"], PartsElements t := by simp [PartsElements, seen]
  obtain ⟨-, hprogram⟩ := program_sequence is_opening is_closing wholly_one
    (List.forall_mem_singleton.2 hother) hlast (List.forall_mem_singleton.2 rfl)
    (List.forall_mem_singleton.2 hsign)
  exact ⟨List.forall_mem_singleton.2 ⟨hother, hsign⟩, hprogram .start⟩

/-- Whether a program is a single sequence of a single element. -/
def isSingleton : Program → Bool
  | .interactive [.expression (.sequence _ [_])] => true
  | _ => false

/-- A sign behind line breaks alone opens no element: `[1`, a line break and `-2]` are one
subtraction. -/
theorem sign_joins : ¬∀ {opening closing : Token} {ts last : List Token} {e : Expr}
    {others : List Element}, opening.Is .leftBracket → closing.Is .rightBracket → Wholly ts e →
    (∀ el ∈ others, el.Follows) → (∀ t ∈ last, PartsElements t) →
    (∀ el ∈ others, el.tree.isBinding = e.isBinding) →
    ∀ p, program .interactive (opening :: (ts ++ behindFirst others last closing) ++ [.eof p]) =
      (.interactive [.expression (.sequence opening (e :: others.map (·.tree)))], []) := by
  intro h
  have hother : (minusTwoBehind [seenBreak]).Follows :=
    follows_minusTwo (by decide) (by simp [PartsElements, seen, seenBreak])
  have hlast : ∀ t ∈ ([] : List Token), PartsElements t := nofun
  have hprogram := h is_opening is_closing wholly_one (List.forall_mem_singleton.2 hother) hlast
    (List.forall_mem_singleton.2 rfl) .start
  have hone : isSingleton (program .interactive (seen .leftBracket "[" :: (one.print .bare ++
      behindFirst [minusTwoBehind [seenBreak]] [] (seen .rightBracket "]")) ++
        [.eof .start])).1 = true := by
    decide +kernel
  rw [hprogram] at hone
  cases hone

end Signs

end LazyDecl.Grammar
