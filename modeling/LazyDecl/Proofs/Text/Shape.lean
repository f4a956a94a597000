import LazyDecl.Proofs.Text.Newline

/-!
The shapes of comments and of string literals, as grammars, and what the scanner's
searches find of them.

* `Comment.closing?_eq_some_iff`: a block comment ends where a text of the grammar `Rest` does;
* `Quoted.closed_of_closing?`, `Quoted.unclosed_of_closing?`: up to its end, a literal is made of
  plain characters and of pairs with a backslash;
* `Quoted.badEscape?_eq_some`: the first pair without a meaning, and what leads up to it;
* `Segment.readString_bad`: a literal that is given up ends where it would have ended anyway.
-/

namespace LazyDecl

/-! ## Comments -/

namespace Comment

/-- A line comment goes up to the next newline, if there is one. -/
theorem lineLength_spec (cs : List Char) :
    '\n' ∉ cs.take (lineLength cs) ∧ ∀ c ∈ (cs.drop (lineLength cs)).head?, c = '\n' := by
  induction cs with
  | nil => simp [lineLength]
  | cons c cs ih =>
    by_cases hc : c = '\n'
    · simp [lineLength, hc]
    · have hlength : lineLength (c :: cs) = lineLength cs + 1 := by simp [lineLength, hc]
      rw [hlength, List.take_succ_cons, List.drop_succ_cons]
      exact ⟨by simp [ih.1, Ne.symm hc], ih.2⟩

/-- The rest of a block comment behind its opening mark: characters that begin no mark, and
whole comments, up to the closing mark. -/
inductive Rest : List Char → Prop where
  | close : Rest ['*', '/']
  | nested {inner rest : List Char} :
      Rest inner → Rest rest → Rest ('/' :: '*' :: (inner ++ rest))
  | char {c : Char} {rest : List Char} :
      ¬['/', '*'] <+: c :: rest → ¬['*', '/'] <+: c :: rest → Rest rest → Rest (c :: rest)

/-- The rests of a comment and of the `depth` comments around it. -/
def Rests : Nat → List Char → Prop
  | 0, cs => Rest cs
  | depth + 1, cs => ∃ first others, Rest first ∧ Rests depth others ∧ cs = first ++ others

theorem Rest.ne_nil {cs : List Char} (h : Rest cs) : cs ≠ [] := by
  cases h <;> exact List.cons_ne_nil _ _

theorem Rests.nested {depth : Nat} {inner cs : List Char} (hinner : Rest inner)
    (h : Rests depth cs) : Rests depth ('/' :: '*' :: (inner ++ cs)) := by
  cases depth with
  | zero => exact Rest.nested hinner h
  | succ depth =>
    obtain ⟨first, others, hfirst, hothers, rfl⟩ := h
    exact ⟨_, others, .nested hinner hfirst, hothers, by simp⟩

theorem pair_isPrefix {a b c d : Char} {cs : List Char} :
    [a, b] <+: c :: d :: cs ↔ c = a ∧ d = b := by
  simp [List.cons_prefix_cons, eq_comm]

theorem Rests.char {depth : Nat} {c d : Char} {cs : List Char} (hopen : ¬(c = '/' ∧ d = '*'))
    (hclose : ¬(c = '*' ∧ d = '/')) (h : Rests depth (d :: cs)) :
    Rests depth (c :: d :: cs) := by
  cases depth with
  | zero => exact Rest.char (mt pair_isPrefix.1 hopen) (mt pair_isPrefix.1 hclose) h
  | succ depth =>
    obtain ⟨first, others, hfirst, hothers, hcs⟩ := h
    obtain ⟨e, es, rfl⟩ := List.exists_cons_of_ne_nil hfirst.ne_nil
    obtain ⟨rfl, rfl⟩ := List.cons_eq_cons.1 hcs
    exact ⟨c :: d :: es, others,
      .char (mt pair_isPrefix.1 hopen) (mt pair_isPrefix.1 hclose) hfirst, hothers, rfl⟩

theorem rests_of_closing? {depth : Nat} {cs : List Char} {n : Nat}
    (h : closing? depth cs = some n) : Rests depth (cs.take n) := by
  fun_induction closing? depth cs generalizing n with
  | case1 => cases h
  | case2 => cases h
  | case3 depth c d cs hopen ih =>
    obtain ⟨k, hk, rfl⟩ := Option.map_eq_some_iff.1 h
    obtain ⟨first, others, hfirst, hothers, hcs⟩ := ih hk
    obtain ⟨rfl, rfl⟩ := hopen
    show Rests depth ('/' :: '*' :: cs.take k)
    rw [hcs]
    exact .nested hfirst hothers
  | case4 c d cs hopen hclose =>
    cases h
    obtain ⟨rfl, rfl⟩ := hclose
    exact .close
  | case5 c d cs hopen hclose depth ih =>
    obtain ⟨k, hk, rfl⟩ := Option.map_eq_some_iff.1 h
    obtain ⟨rfl, rfl⟩ := hclose
    exact ⟨_, _, .close, ih hk, rfl⟩
  | case6 depth c d cs hopen hclose ih =>
    obtain ⟨k, hk, rfl⟩ := Option.map_eq_some_iff.1 h
    have hrest := ih hk
    cases k with
    | zero =>
      -- no comment ends in front of its closing mark
      cases depth with
      | zero => exact absurd rfl (Rest.ne_nil hrest)
      | succ depth =>
        obtain ⟨first, others, hfirst, -, hcs⟩ := hrest
        exact absurd (List.append_eq_nil_iff.1 hcs.symm).1 hfirst.ne_nil
    | succ k => exact .char hopen hclose hrest

theorem closing?_open (depth : Nat) (cs : List Char) :
    closing? depth ('/' :: '*' :: cs) = (closing? (depth + 1) cs).map (· + 2) := by
  rw [closing?.eq_def]
  rfl

theorem closing?_char {c d : Char} (hopen : ¬(c = '/' ∧ d = '*')) (hclose : ¬(c = '*' ∧ d = '/'))
    (depth : Nat) (cs : List Char) :
    closing? depth (c :: d :: cs) = (closing? depth (d :: cs)).map (· + 1) := by
  rw [closing?.eq_def]
  simp only [if_neg hopen, if_neg hclose]

/-- A character that begins no mark of a comment is passed. -/
theorem closing?_pass {c : Char} {cs : List Char} (hopen : ¬['/', '*'] <+: c :: cs)
    (hclose : ¬['*', '/'] <+: c :: cs) (depth : Nat) :
    closing? depth (c :: cs) = (closing? depth cs).map (· + 1) := by
  cases cs with
  | nil => simp [closing?]
  | cons d cs =>
    exact closing?_char (mt pair_isPrefix.2 hopen) (mt pair_isPrefix.2 hclose) depth cs

/-- One comment closes, and the search goes on for those around it. -/
theorem Rest.closing?_eq {cs : List Char} (h : Rest cs) (depth : Nat) (ds : List Char) :
    closing? depth (cs ++ ds) =
      match depth with
      | 0 => some cs.length
      | depth + 1 => (closing? depth ds).map (· + cs.length) := by
  induction h generalizing depth ds with
  | close => cases depth <;> simp [closing?]
  | @nested inner rest hinner hrest ihinner ihrest =>
    have hcs : ('/' :: '*' :: (inner ++ rest)) ++ ds = '/' :: '*' :: (inner ++ (rest ++ ds)) := by
      simp
    rw [hcs, closing?_open, ihinner (depth + 1)]
    simp only
    rw [ihrest depth]
    cases depth with
    | zero =>
      simp only [Option.map_some, List.length_cons, List.length_append, Option.some.injEq]
      omega
    | succ depth =>
      simp only [Option.map_map]
      congr 1
      funext n
      simp only [Function.comp_apply, List.length_cons, List.length_append]
      omega
  | @char c rest hopen hclose hrest ih =>
    obtain ⟨d, es, rfl⟩ := List.exists_cons_of_ne_nil hrest.ne_nil
    have hstep : closing? depth (c :: d :: es ++ ds) =
        (closing? depth (d :: es ++ ds)).map (· + 1) :=
      closing?_char (mt pair_isPrefix.2 hopen) (mt pair_isPrefix.2 hclose) depth (es ++ ds)
    rw [hstep, ih depth]
    cases depth with
    | zero => simp
    | succ depth =>
      simp only [Option.map_map]
      rfl

/-- **A block comment ends exactly where its grammar lets it end.** -/
theorem closing?_eq_some_iff {cs : List Char} {n : Nat} :
    closing? 0 cs = some n ↔ n ≤ cs.length ∧ Rest (cs.take n) := by
  constructor
  · intro h
    exact ⟨(closing?_append h []).2, rests_of_closing? h⟩
  · rintro ⟨hn, hrest⟩
    have h := hrest.closing?_eq 0 (cs.drop n)
    rw [List.take_append_drop] at h
    rw [h, List.length_take, Nat.min_eq_left hn]

/-- Without an end, no first part of the text is the rest of a comment. -/
theorem closing?_eq_none {cs : List Char} (h : closing? 0 cs = none) {rest : List Char}
    (hrest : Rest rest) : ¬rest <+: cs := by
  rintro ⟨ds, rfl⟩
  rw [hrest.closing?_eq 0 ds] at h
  cases h

end Comment

/-! ## String literals -/

namespace Quoted

theorem isEscape_iff {d : Char} : isEscape d = true ↔ d ∈ ['n', '\\', '"', '\n'] := by
  simp [isEscape, or_assoc]

/-- What can stand between quotes: characters other than quotes and backslashes, and backslashes
each with one character behind it, which has to make a meaningful pair if `strict`. -/
inductive Inside (strict : Bool) : List Char → Prop where
  | nil : Inside strict []
  | plain {c : Char} {cs : List Char} :
      c ≠ '"' → c ≠ '\\' → Inside strict cs → Inside strict (c :: cs)
  | pair {d : Char} {cs : List Char} :
      (strict = true → d ∈ ['n', '\\', '"', '\n']) → Inside strict cs → Inside strict ('\\' :: d :: cs)

/-- A text behind an opening quote whose last character closes the quotes. -/
def Closed (strict : Bool) (cs : List Char) : Prop :=
  ∃ inside, Inside strict inside ∧ cs = inside ++ ['"']

/-- A text that ends inside the quotes, perhaps between the two characters of a pair. -/
def Unclosed (strict : Bool) (cs : List Char) : Prop :=
  ∃ inside, Inside strict inside ∧ (cs = inside ∨ cs = inside ++ ['\\'])

theorem closing?_pair (d : Char) (cs : List Char) :
    closing? ('\\' :: d :: cs) = (closing? cs).map (· + 2) := by
  rw [closing?.eq_def]
  rfl

theorem badEscape?_pair {d : Char} {cs : List Char} (h : badEscape? ('\\' :: d :: cs) = none) :
    d ∈ ['n', '\\', '"', '\n'] ∧ badEscape? cs = none := by
  rw [← isEscape_iff]
  rw [badEscape?.eq_def] at h
  cases hd : isEscape d <;> simp_all

theorem closed_of_closing? {strict : Bool} {cs : List Char} {n : Nat}
    (hs : strict = true → badEscape? cs = none) (h : closing? cs = some n) :
    Closed strict (cs.take n) := by
  fun_induction closing? cs generalizing n with
  | case1 => cases h
  | case2 cs =>
    cases h
    exact ⟨[], .nil, rfl⟩
  | case3 => cases h
  | case4 d cs hq ih =>
    obtain ⟨k, hk, rfl⟩ := Option.map_eq_some_iff.1 h
    obtain ⟨inside, hinside, hcs⟩ := ih (fun hst => (badEscape?_pair (hs hst)).2) hk
    exact ⟨'\\' :: d :: inside, .pair (fun hst => (badEscape?_pair (hs hst)).1) hinside,
      congrArg (fun es => '\\' :: d :: es) hcs⟩
  | case5 c cs hq hb ih =>
    obtain ⟨k, hk, rfl⟩ := Option.map_eq_some_iff.1 h
    have hbad : strict = true → badEscape? cs = none := fun hst => by
      simpa [badEscape?_plain hq hb] using hs hst
    obtain ⟨inside, hinside, hcs⟩ := ih hbad hk
    exact ⟨c :: inside, .plain hq hb hinside, congrArg (c :: ·) hcs⟩

theorem unclosed_of_closing? {strict : Bool} {cs : List Char}
    (hs : strict = true → badEscape? cs = none) (h : closing? cs = none) : Unclosed strict cs := by
  fun_induction closing? cs with
  | case1 => exact ⟨[], .nil, .inl rfl⟩
  | case2 => cases h
  | case3 => exact ⟨[], .nil, .inr rfl⟩
  | case4 d cs hq ih =>
    obtain ⟨inside, hinside, hcs⟩ :=
      ih (fun hst => (badEscape?_pair (hs hst)).2) (Option.map_eq_none_iff.1 h)
    refine ⟨'\\' :: d :: inside, .pair (fun hst => (badEscape?_pair (hs hst)).1) hinside, ?_⟩
    exact hcs.imp (congrArg fun es => '\\' :: d :: es) (congrArg fun es => '\\' :: d :: es)
  | case5 c cs hq hb ih =>
    have hbad : strict = true → badEscape? cs = none := fun hst => by
      simpa [badEscape?_plain hq hb] using hs hst
    obtain ⟨inside, hinside, hcs⟩ := ih hbad (Option.map_eq_none_iff.1 h)
    exact ⟨c :: inside, .plain hq hb hinside, hcs.imp (congrArg (c :: ·)) (congrArg (c :: ·))⟩

/-- A quote behind the inside of a literal closes it. -/
theorem Inside.closing?_eq {strict : Bool} {inside : List Char} (h : Inside strict inside)
    (ds : List Char) : closing? (inside ++ '"' :: ds) = some (inside.length + 1) := by
  induction h with
  | nil => exact closing?_quote ds
  | plain hq hb _ ih =>
    rw [List.cons_append, closing?_plain hq hb, ih]
    rfl
  | pair _ _ ih =>
    rw [List.cons_append, List.cons_append, closing?_pair, ih]
    rfl

/-- Up to that quote no pair is without a meaning. -/
theorem Inside.badEscape?_eq {inside : List Char} (h : Inside true inside) (ds : List Char) :
    badEscape? (inside ++ '"' :: ds) = none := by
  induction h with
  | nil => exact badEscape?_quote ds
  | plain hq hb _ ih =>
    rw [List.cons_append, badEscape?_plain hq hb, ih]
    rfl
  | pair hd _ ih => simp [badEscape?, isEscape_iff.2 (hd rfl), ih]

/-- In front of the first pair without a meaning all pairs have one, and the end of the literal
is looked for behind it. -/
theorem badEscape?_eq_some {cs : List Char} {n : Nat} {d : Char}
    (h : badEscape? cs = some (n, d)) :
    ∃ inside rest, Inside true inside ∧ d ∉ ['n', '\\', '"', '\n'] ∧
      cs = inside ++ '\\' :: d :: rest ∧ n = inside.length + 1 ∧
      closing? cs = (closing? rest).map (· + (n + 1)) := by
  fun_induction badEscape? cs generalizing n with
  | case1 => cases h
  | case2 => cases h
  | case3 => cases h
  | case4 e cs he hq ih =>
    obtain ⟨⟨k, f⟩, hk, hpair⟩ := Option.map_eq_some_iff.1 h
    obtain ⟨rfl, rfl⟩ := Prod.mk.inj hpair
    obtain ⟨inside, rest, hinside, hf, rfl, rfl, hclose⟩ := ih hk
    refine ⟨'\\' :: e :: inside, rest, .pair (fun _ => isEscape_iff.1 he) hinside, hf, rfl, rfl, ?_⟩
    rw [closing?_pair, hclose, Option.map_map]
    rfl
  | case5 e cs he hq =>
    cases h
    exact ⟨[], cs, .nil, mt isEscape_iff.2 he, rfl, rfl, closing?_pair _ _⟩
  | case6 c cs hq hb ih =>
    obtain ⟨⟨k, f⟩, hk, hpair⟩ := Option.map_eq_some_iff.1 h
    obtain ⟨rfl, rfl⟩ := Prod.mk.inj hpair
    obtain ⟨inside, rest, hinside, hf, rfl, rfl, hclose⟩ := ih hk
    refine ⟨c :: inside, rest, .plain hq hb hinside, hf, rfl, rfl, ?_⟩
    rw [closing?_plain hq hb, hclose, Option.map_map]
    rfl

end Quoted

/-- **A literal that is given up ends where it would have ended anyway.** The search that sets in
behind the backslash finds the quote that the search through the whole literal finds. -/
theorem Segment.readString_bad {cs : List Char} {n : Nat} {d : Char}
    (h : Quoted.badEscape? cs = some (n, d)) :
    readString cs = (.malformed (.unexpectedEscape d) ('"' :: cs.take n),
      (Quoted.closing? cs).getD cs.length) := by
  obtain ⟨inside, rest, -, hd, hcs, rfl, hclose⟩ := Quoted.badEscape?_eq_some h
  have hdrop : cs.drop (inside.length + 1) = d :: rest := by
    rw [hcs]
    exact List.drop_length_add_append 1
  -- what follows the backslash is neither a quote nor a backslash
  have hpass : Quoted.closing? (d :: rest) = (Quoted.closing? rest).map (· + 1) := by
    refine Quoted.closing?_plain ?_ ?_ rest <;>
    · rintro rfl
      exact hd (by decide)
  rw [readString, h]
  simp only [abandonString, hdrop, hpass, hclose]
  cases Quoted.closing? rest with
  | none => simp [hcs, Nat.add_assoc, Nat.add_comm 1]
  | some k =>
    simp only [Option.map_some, Option.getD_some, Prod.mk.injEq, true_and]
    omega

/-- A literal goes on to its closing quote, with a mistake or without. -/
theorem Segment.readString_length (cs : List Char) :
    (readString cs).2 = (Quoted.closing? cs).getD cs.length := by
  cases hbad : Quoted.badEscape? cs with
  | some pair => rw [readString_bad hbad]
  | none =>
    cases hclose : Quoted.closing? cs with
    | none => rw [readString_open hbad hclose, Option.getD_none]
    | some n => rw [readString_closed hbad hclose, Option.getD_some]

end LazyDecl
