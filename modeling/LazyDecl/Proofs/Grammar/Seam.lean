import LazyDecl.Proofs.Grammar.Carried
import LazyDecl.Proofs.Segment
import LazyDecl.Proofs.Text.Lines

/-!
Reading on over a line break. A run of tokens that reads without an error is followed by
a line end and by more tokens. An expression that ends in front of the line end may go on
behind it, but only with an operator or a colon.

* `Seam c i i'`: `i'` is what `i` becomes in front of the continuation `c`;
* `Reads.extend`: a derivation reads the same tree there, and ends at a seam again, if the
  continuation is `Fresh` or if tokens are left in front of it;
* `ClosedBy.shows`: tokens are left if all ends with a semicolon.
-/

namespace LazyDecl

/-- A tail with a token in it goes on with the same line end. -/
theorem LineEnd.suffix {ts us ends : List Token} (h : LineEnd ts ends) (hs : us <:+ ts)
    (hne : us ≠ []) : LineEnd us ends := by
  refine ⟨h.eols, ?_⟩
  obtain ⟨t, ht, hidden⟩ := h.getLast?
  obtain ⟨front, rfl⟩ := hs
  refine ⟨t, ?_, hidden⟩
  rw [List.append_assoc, List.getLast?_append_of_ne_nil _ (by simp [hne])] at ht
  exact ht

/-- Behind a visible token the line end has still to come. -/
theorem LineEnd.hidden_next {t : Token} {ts ends : List Token} (h : LineEnd (t :: ts) ends)
    (ht : t.hidden = false) (hts : ∀ u ∈ ts, u.hidden = true) :
    ∃ u us, ts ++ ends = u :: us ∧ u.hidden = true := by
  cases he : ts ++ ends with
  | nil =>
    obtain ⟨u, hu, hidden⟩ := h.getLast?
    rw [List.cons_append, he, List.getLast?_singleton] at hu
    cases hu
    rw [ht] at hidden
    cases hidden
  | cons u us =>
    have hmem : u ∈ ts ++ ends := by simp [he]
    refine ⟨u, us, rfl, ?_⟩
    rcases List.mem_append.1 hmem with hm | hm
    · exact hts u hm
    · exact (h.eols u hm).2

theorem Input.shows_iff {i : Input} : i.Shows ↔ View.visible.ahead i.rest ≠ [] := by
  rw [View.ahead_visible, Ne, List.dropWhile_eq_nil_iff]
  simp [Shows]

/-- No expression goes on with a token of this kind. -/
structure TokenKind.Fresh (kind : TokenKind) : Prop where
  no_infix : ∀ l, Grammar.infixNode? l kind = none
  not_colon : kind ≠ .colon

theorem TokenKind.fresh_of_name {kind : TokenKind} (h : kind = .identifier ∨ kind = .eof) :
    kind.Fresh := by
  refine ⟨fun l => ?_, ?_⟩
  · rcases h with rfl | rfl <;> cases l <;> rfl
  · rcases h with rfl | rfl <;> decide

/-- The last token that can be seen, if there is one, is a semicolon. -/
def Sealed (ts : List Token) : Prop :=
  ∀ t ∈ (ts.filter (!·.hidden)).getLast?, t.kind = .semicolon

theorem Sealed.suffix {ts us : List Token} (h : Sealed ts) (hs : us <:+ ts) : Sealed us := by
  intro t ht
  refine h t ?_
  obtain ⟨front, rfl⟩ := hs
  rw [List.filter_append]
  exact List.mem_getLast?_append_of_mem_getLast? ht

/-- A tail in which something can be seen decides how all ends. -/
theorem Sealed.of_suffix {ts us : List Token} (h : Sealed us) (hs : us <:+ ts)
    (hshows : ∃ t ∈ us, t.hidden = false) : Sealed ts := by
  obtain ⟨t, ht, hidden⟩ := hshows
  obtain ⟨front, rfl⟩ := hs
  have hne : us.filter (!·.hidden) ≠ [] :=
    List.ne_nil_of_mem (List.mem_filter.2 ⟨ht, by simp [hidden]⟩)
  unfold Sealed
  rwa [List.filter_append, List.getLast?_append_of_ne_nil _ hne]

/-- The case of one token and of hidden ones behind it. -/
theorem sealed_cons {t : Token} {ts : List Token} (h : ∀ u ∈ ts, u.hidden = true) :
    Sealed (t :: ts) ↔ (t.hidden = false → t.kind = .semicolon) := by
  have hnil : ts.filter (!·.hidden) = [] :=
    List.filter_eq_nil_iff.2 fun u hu => by simp [h u hu]
  cases ht : t.hidden <;> simp [Sealed, ht, hnil]

/-- What stands behind the tokens of a text that more text follows on a new line: the
line end between them, and tokens without a line end in front. -/
structure Continuation where
  ends : List Token
  below : List Token
  final : Token
  final_eof : final.kind = .eof
  eols : ∀ t ∈ ends, t.kind = .eol ∧ t.hidden = true
  opens : ∀ t ∈ below.head?, t.hidden = false
  plain : Plain below

namespace Continuation

variable (c : Continuation)

/-- The tokens of the continuation alone. -/
def input : Input := { rest := c.below, final := c.final, final_eof := c.final_eof }

/-- The input `i` with the continuation behind it. -/
def after (i : Input) : Input where
  rest := i.rest ++ (c.ends ++ c.below)
  final := c.final
  skipped := i.skipped
  final_eof := c.final_eof

theorem peek_after {i : Input} (hi : i.rest ≠ []) : (c.after i).peek .hidden = i.peek .hidden := by
  cases hr : i.rest with
  | nil => exact absurd hr hi
  | cons t ts => simp [Input.peek, after, hr]

theorem advance_after {i : Input} (hi : i.rest ≠ []) :
    ((c.after i).advance .hidden).2 = c.after (i.advance .hidden).2 := by
  obtain ⟨t, ts, hr⟩ := List.exists_cons_of_ne_nil hi
  have hr' : View.hidden.ahead (c.after i).rest = t :: (ts ++ (c.ends ++ c.below)) := by
    simp [after, hr]
  rw [Input.advance_cons hr', Input.advance_cons (v := .hidden) hr]
  split <;> rfl

/-- In front of its last token a unit ends as it does without the continuation. -/
theorem endUnit_after {inBuilder : Bool} {i : Input} (hi : i.rest ≠ []) :
    Grammar.endUnit inBuilder (c.after i) = (Grammar.endUnit inBuilder i).map c.after := by
  have hend : (c.after i).isAtEnd .hidden = i.isAtEnd .hidden := by
    simp only [Input.isAtEnd, c.peek_after hi]
  have hskipped : (c.after i).skipped = i.skipped := rfl
  unfold Grammar.endUnit
  rw [hend, hskipped, c.peek_after hi, c.advance_after hi]
  split
  · rfl
  split
  · rfl
  split <;> rfl

theorem visible_below : View.visible.ahead c.below = c.below := by
  have h := c.opens
  cases hb : c.below with
  | nil => rfl
  | cons t ts =>
    rw [hb] at h
    simp [h t rfl]

theorem visible_ends : View.visible.ahead (c.ends ++ c.below) = c.below := by
  have h : View.visible.ahead c.ends = [] :=
    List.dropWhile_eq_nil_iff.2 fun t ht => (c.eols t ht).2
  rw [View.ahead_append_nil h, visible_below]

/-- The first token of the continuation belongs to no expression in front of it. -/
def Fresh : Prop := (c.input.peek .visible).kind.Fresh

end Continuation

namespace Grammar

/-- If all ends with a semicolon, no derivation is the last to take a token. -/
theorem ClosedBy.shows {i j : Input} (h : ClosedBy i j) (hi : Sealed i.rest) : j.Shows := by
  obtain ⟨k, t, ht, hne, hk⟩ := h
  by_contra hnone
  obtain ⟨-, ts, hts, rfl⟩ := Input.takes_iff.1 ht
  have hhidden : ∀ u ∈ ts, u.hidden = true := by
    have hj : View.visible.ahead (View.visible.ahead ts) = [] :=
      not_not.1 fun h => hnone (Input.shows_iff.2 h)
    rw [View.ahead_visible, View.ahead_visible, List.dropWhile_idempotent] at hj
    exact List.dropWhile_eq_nil_iff.1 hj
  have hsuffix : t :: ts <:+ i.rest := (hts ▸ View.visible.ahead_suffix k.rest).trans hk
  exact hne ((sealed_cons hhidden).1 (hi.suffix hsuffix) ht.not_hidden)

/-- The second input is the first one with the continuation behind it. A step past the
last token of the first one takes the second one over the line end as well. -/
inductive Seam (c : Continuation) : Input → Input → Prop
  | inside {i} : i.Shows → LineEnd i.rest c.ends → Plain i.rest → Seam c i (c.after i)
  | past {i} : i.rest = [] → Seam c i { c.input with skipped := true }

/-- Where a unit ends: at a seam, or behind the last token that can be seen, if this is its
end. -/
inductive Meets (c : Continuation) : Input → Input → Prop
  | seam {i i'} : Seam c i i' → Meets c i i'
  | last {i} : ¬i.Shows → Plain i.rest → Meets c i (c.after i)

variable {c : Continuation} {i i' j : Input} {t : Token} {inBuilder : Bool}

namespace Seam

theorem plain (h : Seam c i i') : Plain i.rest := by
  cases h with
  | inside _ _ hp => exact hp
  | past hi => simp [hi, Plain]

theorem peek_of_shows (h : Seam c i i') (hi : i.Shows) :
    i'.peek .visible = i.peek .visible := by
  have ha := Input.shows_iff.1 hi
  cases h with
  | inside _ hl hp =>
    simp only [Input.peek, Continuation.after]
    rw [View.ahead_append ha]
    cases hr : View.visible.ahead i.rest with
    | nil => exact absurd hr ha
    | cons t ts => rfl
  | past hr => exact absurd (by simp [hr]) ha

/-- No operator shows up that was not there. -/
theorem infixNode?_eq_none {l : Level} (h : Seam c i i') (hi : c.Fresh ∨ i.Shows)
    (hk : infixNode? l (i.peek .visible).kind = none) :
    infixNode? l (i'.peek .visible).kind = none := by
  cases h with
  | inside hshows hl hp => rwa [peek_of_shows (.inside hshows hl hp) hshows]
  | past hr =>
    rcases hi with hc | hshows
    · exact hc.no_infix l
    · exact absurd (by simp [hr]) (Input.shows_iff.1 hshows)

theorem not_colon (h : Seam c i i') (hi : c.Fresh ∨ i.Shows)
    (hk : (i.peek .visible).kind ≠ .colon) : (i'.peek .visible).kind ≠ .colon := by
  cases h with
  | inside hshows hl hp => rwa [peek_of_shows (.inside hshows hl hp) hshows]
  | past hr =>
    rcases hi with hc | hshows
    · exact hc.not_colon
    · exact absurd (by simp [hr]) (Input.shows_iff.1 hshows)

/-- A token is taken on both sides, and a seam is behind it. -/
theorem takes (h : Seam c i i') (ht : i.Takes .visible t j) :
    ∃ j', i'.Takes .visible t j' ∧ Seam c j j' := by
  cases h with
  | past hi => exact absurd hi ht.rest_ne_nil
  | inside _ hl hp =>
    have hvisible := ht.not_hidden
    obtain ⟨live, ts, hts, rfl⟩ := Input.takes_iff.1 ht
    have hsuffix : t :: ts <:+ i.rest := hts ▸ View.visible.ahead_suffix i.rest
    have hafter : View.visible.ahead (c.after i).rest = t :: (ts ++ (c.ends ++ c.below)) := by
      unfold Continuation.after
      rw [View.ahead_append (by rw [hts]; simp), hts]
      rfl
    refine ⟨_, Input.takes_iff.2 ⟨live, _, hafter, rfl⟩, ?_⟩
    by_cases hall : View.visible.ahead ts = []
    · have hhidden : ∀ u ∈ ts, u.hidden = true := List.dropWhile_eq_nil_iff.1 hall
      obtain ⟨u, us, hu, hskip⟩ :=
        (hl.suffix hsuffix (by simp)).hidden_next hvisible hhidden
      have hskips : View.visible.skips (ts ++ (c.ends ++ c.below)) = true := by
        rw [← List.append_assoc, hu]
        simp [hskip]
      rw [View.ahead_append_nil hall, c.visible_ends, hskips]
      exact .past hall
    · have hne : ts ≠ [] := by
        rintro rfl
        exact hall rfl
      have htail := (View.visible.ahead_suffix ts).trans ((List.suffix_cons t ts).trans hsuffix)
      have hskips : View.visible.skips (ts ++ (c.ends ++ c.below)) = View.visible.skips ts := by
        simp [List.head?_append_of_ne_nil _ hne]
      have hshows : ∃ u ∈ View.visible.ahead ts, u.hidden = false := by
        refine Input.shows_iff (i := { i with rest := View.visible.ahead ts }) |>.2 ?_
        rwa [View.ahead_visible, View.ahead_visible, List.dropWhile_idempotent]
      rw [View.ahead_append hall, hskips]
      exact .inside hshows (hl.suffix htail hall) (hp.suffix htail)

/-- A brace on the same line is there on both sides. -/
theorem brace (h : Seam c i i') :
    (!i'.skipped && i'.check .hidden .leftBrace) = (!i.skipped && i.check .hidden .leftBrace) := by
  cases h with
  | inside hshows _ _ =>
    simp only [Input.check, Input.isAtEnd, c.peek_after hshows.rest_ne_nil]
    rfl
  | past hi => simp [Input.check, Input.isAtEnd, Input.peek, hi, i.final_eof]

/-- Separators that something follows are the same on both sides. -/
theorem separated (h : Seam c i i') (hshows : (separated i).2.Shows) :
    (Grammar.separated i').1 = (Grammar.separated i).1 ∧
      Seam c (Grammar.separated i).2 (Grammar.separated i').2 := by
  cases h with
  | inside hi hl hp =>
    have hne := hshows.rest_ne_nil
    unfold Grammar.separated at hshows hne ⊢
    rw [c.peek_after hi.rest_ne_nil]
    split
    · rename_i hs
      rw [if_pos hs] at hshows hne
      have htail := List.dropWhile_suffix (l := i.rest) (isSeparator ·.kind)
      have hafter : (c.after i).rest.dropWhile (isSeparator ·.kind) =
          i.rest.dropWhile (isSeparator ·.kind) ++ (c.ends ++ c.below) := by
        simp only [Continuation.after]
        rw [List.dropWhile_append, if_neg (by simpa using hne)]
      rw [hafter]
      exact ⟨rfl, .inside hshows (hl.suffix htail hne) (hp.suffix htail)⟩
    · exact ⟨rfl, .inside hi hl hp⟩
  | past hi => exact absurd hi (hshows.of_suffix (separated_suffix i)).rest_ne_nil

end Seam

theorem Meets.seam_of_shows (h : Meets c i i') (hi : i.Shows) : Seam c i i' := by
  cases h with
  | seam h => exact h
  | last hnone => exact absurd hi hnone

/-- A unit ends on both sides. -/
theorem Seam.endUnit (h : Seam c i i') (hj : endUnit inBuilder i = some j) :
    ∃ j', Grammar.endUnit inBuilder i' = some j' ∧ Meets c j j' := by
  cases h with
  | past hi =>
    have hend : Grammar.endUnit inBuilder i = some i := by
      simp [Grammar.endUnit, Input.isAtEnd, Input.peek, hi, i.final_eof]
    rw [hend] at hj
    cases hj
    exact ⟨_, if_pos (by simp), .seam (.past hi)⟩
  | inside hi hl hp =>
    refine ⟨c.after j, by rw [c.endUnit_after hi.rest_ne_nil, hj]; rfl, ?_⟩
    rcases endUnit_eq_some hj with rfl | ⟨t, -, ht⟩
    · exact .seam (.inside hi hl hp)
    · by_cases hshows : j.Shows
      · have hl' := hl.suffix ht.rest_suffix hshows.rest_ne_nil
        exact .seam (.inside hshows hl' (hp.suffix ht.rest_suffix))
      · exact .last hshows (hp.suffix ht.rest_suffix)

/-! ## Derivations -/

/-- Derivations do not notice a seam, if the token behind their last one is not one of an
expression that goes on. -/
theorem Seam.carries (c : Continuation) :
    Carries (Seam c) (fun _ => Seam c) (fun i => c.Fresh ∨ i.Shows) where
  near_of_behind h := h
  quiet_of_shows h := .inr h
  takes := Seam.takes
  peek := Seam.peek_of_shows
  no_infix := Seam.infixNode?_eq_none
  not_colon := Seam.not_colon
  brace h _ := h.brace
  takes_brace h hb := by
    obtain ⟨u, -, hu⟩ := h.plain.takes_leftBrace hb
    exact ⟨u, hu⟩
  separates h _ hshows := by
    obtain ⟨hfound, hs⟩ := h.separated hshows
    exact ⟨hfound.trans, hs⟩
  ends h _ hj hshows := by
    obtain ⟨j', hj', hm⟩ := h.endUnit hj
    exact ⟨j', hj', hm.seam_of_shows hshows⟩

theorem seam_of_closed {i i' : Input} (h : Closed (fun _ => Seam c) i i') : Seam c i i' := by
  obtain ⟨-, -, hs⟩ := h
  exact hs

/-- A derivation goes through in front of the continuation. Where it looks at the token
behind its last one, that token must not be one of an expression that goes on. -/
theorem Reads.extend {ls : List Level} {e : Expr} (h : Reads ls i e j) (hs : Seam c i i')
    (hend : c.Fresh ∨ j.Shows) : ∃ j', Reads ls i' e j' ∧ Seam c j j' := by
  obtain ⟨j', h', hj⟩ := (Seam.carries c).reads h hs hend
  exact ⟨j', h', seam_of_closed hj⟩

theorem Chain.extend {l : Level} {ls : List Level} {e : Expr} (h : Chain l ls i e j)
    (hs : Seam c i i') (hend : c.Fresh ∨ j.Shows) : ∃ j', Chain l ls i' e j' ∧ Seam c j j' := by
  obtain ⟨j', h', hj⟩ := (Seam.carries c).chain h hs hend
  exact ⟨j', h', seam_of_closed hj⟩

theorem Primary.extend {e : Expr} (h : Primary i e j) (hs : Seam c i i') :
    ∃ j', Primary i' e j' ∧ Seam c j j' := by
  obtain ⟨j', h', hj⟩ := (Seam.carries c).primary h hs
  exact ⟨j', h', seam_of_closed hj⟩

end Grammar

end LazyDecl
