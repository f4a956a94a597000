import Mathlib.Data.List.DropRight
import LazyDecl.Input

/-!
Steps on the input: `i.Takes v t j` tells that the view `v` shows the token `t`, which
is no end mark, and that `j` is left behind it.
-/

namespace LazyDecl

namespace View

@[simp] theorem ahead_visible (ts : List Token) : visible.ahead ts = ts.dropWhile (·.hidden) := rfl

@[simp] theorem ahead_hidden (ts : List Token) : hidden.ahead ts = ts := rfl

@[simp] theorem skips_visible (ts : List Token) : visible.skips ts = ts.head?.any (·.hidden) := by
  simp [skips]

@[simp] theorem skips_hidden (ts : List Token) : hidden.skips ts = false := rfl

theorem ahead_cons_hidden {t : Token} (h : t.hidden = true) (ts : List Token) :
    visible.ahead (t :: ts) = visible.ahead ts :=
  List.dropWhile_cons_of_pos h

theorem ahead_cons_shown {t : Token} (h : t.hidden = false) (ts : List Token) :
    visible.ahead (t :: ts) = t :: ts :=
  List.dropWhile_cons_of_neg (by simp [h])

theorem ahead_suffix (v : View) (ts : List Token) : v.ahead ts <:+ ts := by
  cases v with
  | visible => exact List.dropWhile_suffix _
  | hidden => exact List.suffix_refl _

theorem ahead_append {v : View} {ts : List Token} (h : v.ahead ts ≠ []) (us : List Token) :
    v.ahead (ts ++ us) = v.ahead ts ++ us := by
  cases v with
  | visible =>
    rw [ahead_visible] at h
    simp [List.dropWhile_append, h]
  | hidden => rfl

theorem ahead_append_nil {v : View} {ts : List Token} (h : v.ahead ts = []) (us : List Token) :
    v.ahead (ts ++ us) = v.ahead us := by
  cases v with
  | visible =>
    rw [ahead_visible] at h
    simp [List.dropWhile_append, h]
  | hidden =>
    rw [ahead_hidden] at h
    simp [h]

theorem ahead_ahead (v : View) (ts : List Token) : v.ahead (v.ahead ts) = v.ahead ts := by
  cases v with
  | visible => exact List.dropWhile_idempotent _ ts
  | hidden => rfl

/-- Of what has been stepped over nothing comes back. -/
theorem ahead_ahead_append (v : View) (ts us : List Token) :
    v.ahead (v.ahead ts ++ us) = v.ahead (ts ++ us) := by
  by_cases h : v.ahead ts = []
  · rw [h, List.nil_append, ahead_append_nil h]
  · rw [ahead_append h, ahead_append (by rwa [ahead_ahead]), ahead_ahead]

end View

namespace Input

structure Takes (v : View) (i : Input) (t : Token) (j : Input) : Prop where
  live : t.kind ≠ .eof
  advance : i.advance v = (t, j)

variable {v : View} {i j : Input} {t : Token}

theorem ofTokens_concat (ts : List Token) (h : t.kind = .eof) :
    ofTokens (ts ++ [t]) = { rest := ts, final := t, final_eof := h } := by
  have hl : (ts ++ [t]).getLast? = some t := List.getLast?_concat
  unfold ofTokens
  split
  · rename_i hn
    rw [hl] at hn
    cases hn
  · rename_i u hu
    rw [hl] at hu
    cases hu
    rw [dif_pos h]
    simp only [List.dropLast_concat]

/-- A run that lacks an end mark gets one. -/
theorem ofTokens_concat_live (ts : List Token) (h : t.kind ≠ .eof) :
    ofTokens (ts ++ [t]) =
      { rest := ts ++ [t]
        final := .eof { t.start with column := t.start.column + t.lexeme.length }
        final_eof := rfl } := by
  have hl : (ts ++ [t]).getLast? = some t := List.getLast?_concat
  unfold ofTokens
  split
  · rename_i hn
    rw [hl] at hn
    cases hn
  · rename_i u hu
    rw [hl] at hu
    cases hu
    rw [dif_neg h]

theorem skipped_ofTokens (ts : List Token) : (ofTokens ts).skipped = false := by
  unfold ofTokens
  split
  · rfl
  · split <;> rfl

theorem rest_ofTokens_subset (ts : List Token) : (ofTokens ts).rest ⊆ ts := by
  unfold ofTokens
  split
  · exact List.nil_subset ts
  · split
    · exact List.dropLast_subset ts
    · exact List.Subset.refl ts

/-- Without an end mark among them, all tokens are ahead. -/
theorem rest_ofTokens {ts : List Token} (h : ∀ t ∈ ts, t.kind ≠ .eof) :
    (ofTokens ts).rest = ts := by
  unfold ofTokens
  split
  · rename_i hlast
    exact (List.getLast?_eq_none_iff.1 hlast).symm
  · rename_i t hlast
    rw [dif_neg (h t (List.mem_of_getLast? hlast))]

theorem size_ofTokens_le (ts : List Token) : (ofTokens ts).size ≤ ts.length := by
  unfold ofTokens size
  split
  · exact Nat.zero_le _
  · split
    · rw [List.length_dropLast]
      exact Nat.sub_le _ _
    · exact Nat.le_refl _

/-- Of the tokens in front of the first end mark none is left out. -/
theorem takeWhile_rest_ofTokens (ts : List Token) :
    (ofTokens ts).rest.takeWhile (·.kind ≠ .eof) = ts.takeWhile (·.kind ≠ .eof) := by
  unfold ofTokens
  split
  · rename_i hlast
    rw [List.getLast?_eq_none_iff.1 hlast]
  · rename_i t hlast
    split
    · rename_i hk
      obtain ⟨us, rfl⟩ := List.getLast?_eq_some_iff.1 hlast
      simp only [List.dropLast_concat]
      rw [List.takeWhile_append]
      split
      · rename_i hall
        have hprefix := (List.takeWhile_prefix (l := us) (·.kind ≠ .eof)).eq_of_length hall
        simpa [hk] using hprefix
      · rfl
    · rfl

/-! ## Looking ahead -/

theorem advance_nil (h : v.ahead i.rest = []) :
    i.advance v = (i.final, { i with rest := [], skipped := false }) := by
  simp only [advance, h]

theorem advance_cons {ts : List Token} (h : v.ahead i.rest = t :: ts) :
    i.advance v = if t.kind = .eof then (t, { i with rest := t :: ts, skipped := false })
      else (t, { i with rest := v.ahead ts, skipped := v.skips ts }) := by
  simp only [advance, h]

theorem advance_fst (v : View) (i : Input) : (i.advance v).1 = i.peek v := by
  unfold advance peek
  cases v.ahead i.rest with
  | nil => rfl
  | cons t ts =>
    dsimp only [List.headD_cons]
    split <;> rfl

theorem rest_advance_suffix (v : View) (i : Input) : (i.advance v).2.rest <:+ i.rest := by
  have hi := v.ahead_suffix i.rest
  cases h : v.ahead i.rest with
  | nil =>
    rw [advance_nil h]
    exact List.nil_suffix
  | cons t ts =>
    rw [h] at hi
    rw [advance_cons h]
    split
    · exact hi
    · exact (v.ahead_suffix ts).trans ((List.suffix_cons t ts).trans hi)

theorem size_advance_le (v : View) (i : Input) : (i.advance v).2.size ≤ i.size :=
  (rest_advance_suffix v i).length_le

theorem rest_ne_nil_of_size_lt (h : j.size < i.size) : i.rest ≠ [] := by
  intro hi
  simp [size, hi] at h

theorem check_iff {kind : TokenKind} (h : kind ≠ .eof) :
    i.check v kind = true ↔ (i.peek v).kind = kind := by
  simp only [check, isAtEnd, Bool.and_eq_true, Bool.not_eq_true', decide_eq_false_iff_not,
    decide_eq_true_eq]
  constructor
  · exact And.right
  · intro hk
    exact ⟨hk ▸ h, hk⟩

theorem check_eq_false {kind : TokenKind} (h : kind ≠ .eof) :
    i.check v kind = false ↔ (i.peek v).kind ≠ kind := by
  rw [← Bool.not_eq_true, check_iff h]

/-! ## Taking a token -/

theorem takes_peek (h : (i.peek v).kind ≠ .eof) : i.Takes v (i.peek v) (i.advance v).2 :=
  ⟨h, Prod.ext (advance_fst v i) rfl⟩

/-- What a step on live input does to the tokens ahead. -/
theorem takes_iff :
    i.Takes v t j ↔ t.kind ≠ .eof ∧
      ∃ ts, v.ahead i.rest = t :: ts ∧ j = { i with rest := v.ahead ts, skipped := v.skips ts } := by
  constructor
  · rintro ⟨live, h⟩
    refine ⟨live, ?_⟩
    unfold advance at h
    split at h
    · cases h
      exact absurd i.final_eof live
    · rename_i u ts hts
      split at h
      · cases h
        contradiction
      · cases h
        exact ⟨ts, hts, rfl⟩
  · rintro ⟨live, ts, hts, rfl⟩
    refine ⟨live, ?_⟩
    unfold advance
    rw [hts]
    simp only [if_neg live]

namespace Takes

theorem peek_eq (h : i.Takes v t j) : i.peek v = t := by
  rw [← advance_fst, h.advance]

theorem unique {u : Token} {k : Input} (h : i.Takes v t j) (h' : i.Takes v u k) :
    u = t ∧ k = j := by
  have heq := h'.advance.symm.trans h.advance
  cases heq
  exact ⟨rfl, rfl⟩

theorem size_lt (h : i.Takes v t j) : j.size < i.size := by
  obtain ⟨-, ts, hts, rfl⟩ := takes_iff.1 h
  have hi := (v.ahead_suffix i.rest).length_le
  have hj := (v.ahead_suffix ts).length_le
  rw [hts, List.length_cons] at hi
  simp only [size]
  omega

theorem rest_suffix (h : i.Takes v t j) : j.rest <:+ i.rest := by
  simpa [h.advance] using rest_advance_suffix v i

/-- The visible view shows no hidden token. -/
theorem not_hidden (h : i.Takes .visible t j) : t.hidden = false := by
  obtain ⟨-, ts, hts, -⟩ := takes_iff.1 h
  have := List.head?_dropWhile_not (·.hidden) i.rest
  rw [View.ahead_visible] at hts
  rw [hts] at this
  exact this

theorem rest_ne_nil (h : i.Takes v t j) : i.rest ≠ [] := rest_ne_nil_of_size_lt h.size_lt

end Takes

/-! ## Whether a token can be seen -/

/-- A token is ahead that is not hidden. -/
def Shows (i : Input) : Prop := ∃ t ∈ i.rest, t.hidden = false

theorem Takes.shows (h : i.Takes .visible t j) : i.Shows := by
  obtain ⟨-, ts, hts, -⟩ := takes_iff.1 h
  exact ⟨t, (View.visible.ahead_suffix i.rest).mem (hts ▸ List.mem_cons_self), h.not_hidden⟩

theorem Shows.rest_ne_nil (h : i.Shows) : i.rest ≠ [] := by
  obtain ⟨t, ht, -⟩ := h
  exact List.ne_nil_of_mem ht

theorem Shows.of_suffix (h : j.Shows) (hs : j.rest <:+ i.rest) : i.Shows := by
  obtain ⟨t, ht, hidden⟩ := h
  exact ⟨t, hs.mem ht, hidden⟩

end Input

end LazyDecl
