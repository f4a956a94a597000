import LazyDecl.Proofs.Text.Lexeme
import LazyDecl.Proofs.Text.Lines

/-!
Texts with a carriage return in front of every newline. Such a return is a blank, or it belongs
to a comment or a string literal, and what stands around it is read as before.

* `Segment.tokensFrom_withReturns`, `Segment.tokensFrom_withReturns_other`: what is neither a
  newline nor a semicolon gives the same token as without carriage returns, or none as there.
-/

namespace LazyDecl

/-- A text with a carriage return in front of every newline. -/
def withReturns (cs : List Char) : List Char :=
  cs.flatMap fun c => if c = '\n' then ['\r', '\n'] else [c]

theorem withReturns_nil : withReturns [] = [] := rfl

theorem withReturns_newline (cs : List Char) :
    withReturns ('\n' :: cs) = '\r' :: '\n' :: withReturns cs := rfl

theorem withReturns_cons {c : Char} (hc : c ≠ '\n') (cs : List Char) :
    withReturns (c :: cs) = c :: withReturns cs := by
  simp [withReturns, hc]

theorem withReturns_append (cs ds : List Char) :
    withReturns (cs ++ ds) = withReturns cs ++ withReturns ds :=
  List.flatMap_append

theorem withReturns_eq_self {cs : List Char} (h : '\n' ∉ cs) : withReturns cs = cs := by
  induction cs with
  | nil => rfl
  | cons c cs ih =>
    rw [List.mem_cons, not_or] at h
    rw [withReturns_cons (Ne.symm h.1), ih h.2]

theorem head?_withReturns (cs : List Char) :
    (withReturns cs).head? = cs.head?.map fun c => if c = '\n' then '\r' else c := by
  cases cs with
  | nil => rfl
  | cons c cs =>
    by_cases hc : c = '\n'
    · subst hc
      rfl
    · simp [withReturns_cons hc, hc]

theorem head?_withReturns_ne {c : Char} {cs : List Char} (hc : c ≠ '\r')
    (h : cs.head? ≠ some c) : (withReturns cs).head? ≠ some c := by
  intro hhead
  rw [head?_withReturns] at hhead
  obtain ⟨d, hd, hdc⟩ := Option.map_eq_some_iff.1 hhead
  split at hdc
  · exact hc hdc.symm
  · exact h (hdc ▸ hd)

/-- A carriage return in front of a newline stops what a newline does not go on with. -/
theorem stop_withReturns {p : Char → Bool} (hp : p '\r' = false) {cs : List Char}
    (h : ∀ c ∈ cs.head?, p c = false) : ∀ c ∈ (withReturns cs).head?, p c = false := by
  intro c hc
  rw [head?_withReturns] at hc
  obtain ⟨d, hd, rfl⟩ := Option.map_eq_some_iff.1 hc
  split
  · exact hp
  · exact h d hd

/-! ## Ends -/

/-- What two searches for an end find, in a text and in that text with carriage returns: the same
end, or both none. -/
inductive SameEnd (cs : List Char) : Option Nat → Option Nat → Prop where
  | none : SameEnd cs none none
  | some {n n' : Nat} : (withReturns cs).drop n' = withReturns (cs.drop n) →
      SameEnd cs (some n) (some n')

theorem SameEnd.append {cs : List Char} {n? n'? : Option Nat} (h : SameEnd cs n? n'?)
    (front : List Char) :
    SameEnd (front ++ cs) (n?.map (· + front.length))
      (n'?.map (· + (withReturns front).length)) := by
  cases h with
  | none => exact .none
  | some h =>
    refine .some ?_
    dsimp only
    rw [withReturns_append, Nat.add_comm, List.drop_length_add_append, h, Nat.add_comm,
      List.drop_length_add_append]

/-- A literal ends at the same quote, though a backslash in front of a newline comes to stand in
front of the carriage return. -/
theorem Quoted.closing?_withReturns (cs : List Char) :
    SameEnd cs (closing? cs) (closing? (withReturns cs)) := by
  fun_induction closing? cs with
  | case1 => exact .none
  | case2 cs =>
    rw [withReturns_cons (by decide), closing?_quote]
    exact .some rfl
  | case3 => exact .none
  | case4 d cs hq ih =>
    rw [withReturns_cons (by decide)]
    by_cases hd : d = '\n'
    · subst hd
      rw [withReturns_newline, closing?_pair, closing?_plain (by decide) (by decide), Option.map_map]
      exact ih.append ['\\', '\n']
    · rw [withReturns_cons hd, closing?_pair]
      have h := ih.append ['\\', d]
      rwa [withReturns_cons (by decide), withReturns_cons hd] at h
  | case5 c cs hq hb ih =>
    by_cases hc : c = '\n'
    · subst hc
      rw [withReturns_newline, closing?_plain (by decide) (by decide),
        closing?_plain (by decide) (by decide), Option.map_map]
      exact ih.append ['\n']
    · rw [withReturns_cons hc, closing?_plain hq hb]
      have h := ih.append [c]
      rwa [withReturns_cons hc] at h

/-- A pair without a meaning stays one. -/
theorem Quoted.badEscape?_withReturns {cs : List Char} (h : badEscape? cs ≠ none) :
    badEscape? (withReturns cs) ≠ none := by
  fun_induction badEscape? cs with
  | case1 => exact absurd rfl h
  | case2 => exact absurd rfl h
  | case3 => exact absurd rfl h
  | case4 d cs hd hq ih =>
    have ih := ih (by simpa using h)
    rw [withReturns_cons (by decide)]
    by_cases hn : d = '\n'
    · subst hn
      simp [withReturns_newline, badEscape?, isEscape]
    · rw [withReturns_cons hn]
      simpa [badEscape?, hd] using ih
  | case5 d cs hd hq =>
    have hn : d ≠ '\n' := by
      rintro rfl
      exact hd rfl
    rw [withReturns_cons (by decide), withReturns_cons hn]
    simp [badEscape?, hd]
  | case6 c cs hq hb ih =>
    have ih := ih (by simpa using h)
    by_cases hc : c = '\n'
    · subst hc
      rw [withReturns_newline, badEscape?_plain (by decide) (by decide),
        badEscape?_plain (by decide) (by decide)]
      simpa using ih
    · rw [withReturns_cons hc, badEscape?_plain hq hb]
      simpa using ih

theorem pair_isPrefix_withReturns {a b c : Char} {cs : List Char} (hb : b ≠ '\r')
    (h : [a, b] <+: c :: withReturns cs) : [a, b] <+: c :: cs := by
  obtain ⟨rfl, hhead⟩ := List.cons_prefix_cons.1 h
  cases cs with
  | nil => simp [withReturns_nil] at hhead
  | cons d cs =>
    by_cases hd : d = '\n'
    · subst hd
      rw [withReturns_newline] at hhead
      exact absurd (List.cons_prefix_cons.1 hhead).1 hb
    · rw [withReturns_cons hd] at hhead
      obtain ⟨rfl, -⟩ := List.cons_prefix_cons.1 hhead
      exact Comment.pair_isPrefix.2 ⟨rfl, rfl⟩

/-- A block comment ends at the same mark. -/
theorem Comment.closing?_withReturns (depth : Nat) (cs : List Char) :
    SameEnd cs (closing? depth cs) (closing? depth (withReturns cs)) := by
  fun_induction closing? depth cs with
  | case1 => exact .none
  | case2 depth c =>
    by_cases hc : c = '\n'
    · subst hc
      exact .none
    · rw [withReturns_cons hc]
      exact .none
  | case3 depth c d cs hopen ih =>
    obtain ⟨rfl, rfl⟩ := hopen
    rw [withReturns_cons (by decide), withReturns_cons (by decide), closing?_open]
    exact ih.append ['/', '*']
  | case4 c d cs hopen hclose =>
    obtain ⟨rfl, rfl⟩ := hclose
    rw [withReturns_cons (by decide), withReturns_cons (by decide)]
    exact .some rfl
  | case5 c d cs hopen hclose depth ih =>
    obtain ⟨rfl, rfl⟩ := hclose
    rw [withReturns_cons (by decide), withReturns_cons (by decide)]
    exact ih.append ['*', '/']
  | case6 depth c d cs hopen hclose ih =>
    have hopen : ¬['/', '*'] <+: c :: d :: cs := mt pair_isPrefix.1 hopen
    have hclose : ¬['*', '/'] <+: c :: d :: cs := mt pair_isPrefix.1 hclose
    by_cases hc : c = '\n'
    · subst hc
      have hreturn : closing? depth ('\r' :: '\n' :: withReturns (d :: cs)) =
          (closing? depth ('\n' :: withReturns (d :: cs))).map (· + 1) :=
        closing?_pass (by simp) (by simp) depth
      have hnewline : closing? depth ('\n' :: withReturns (d :: cs)) =
          (closing? depth (withReturns (d :: cs))).map (· + 1) :=
        closing?_pass (by simp) (by simp) depth
      rw [withReturns_newline, hreturn, hnewline, Option.map_map]
      exact ih.append ['\n']
    · rw [withReturns_cons hc,
        closing?_pass (mt (pair_isPrefix_withReturns (by decide)) hopen)
          (mt (pair_isPrefix_withReturns (by decide)) hclose)]
      have h := ih.append [c]
      rwa [withReturns_cons hc] at h

/-- Characters without a newline stay in front. -/
theorem take_withReturns {n : Nat} {cs : List Char} (h : '\n' ∉ cs.take n) :
    (withReturns cs).take n = cs.take n ∧ (withReturns cs).drop n = withReturns (cs.drop n) := by
  induction cs generalizing n with
  | nil => simp [withReturns_nil]
  | cons c cs ih =>
    cases n with
    | zero => simp
    | succ n =>
      rw [List.take_succ_cons, List.mem_cons, not_or] at h
      obtain ⟨htake, hdrop⟩ := ih h.2
      rw [withReturns_cons (Ne.symm h.1), List.take_succ_cons, List.take_succ_cons,
        List.drop_succ_cons, List.drop_succ_cons, htake, hdrop]
      exact ⟨rfl, rfl⟩

namespace Segment

/-! ## Tokens -/

theorem not_mem_of_forall {p : Char → Bool} {c : Char} {cs : List Char}
    (h : ∀ d ∈ cs, p d = true) (hc : p c = false) : c ∉ cs := by
  intro hmem
  rw [h c hmem] at hc
  cases hc

theorem readNumber_withReturns (cs : List Char) :
    readNumber (withReturns cs) = readNumber cs ∧ '\n' ∉ cs.take (readNumber cs).2 := by
  cases numberRest cs with
  | @integer digits rest hdigits hrest hpoint =>
    have hline : '\n' ∉ digits := not_mem_of_forall hdigits (by decide)
    have hrest' : ∀ c ∈ (withReturns rest).head?, c.isDigit = false :=
      stop_withReturns (by decide) hrest
    have hpoint' : ∀ ds, withReturns rest = '.' :: ds → ∀ d ∈ ds.head?, d.isDigit = false := by
      intro ds hds
      cases rest with
      | nil => cases hds
      | cons c rest =>
        by_cases hc : c = '\n'
        · subst hc
          cases hds
        · rw [withReturns_cons hc] at hds
          obtain ⟨rfl, rfl⟩ := List.cons_eq_cons.1 hds
          exact stop_withReturns (by decide) (hpoint rest rfl)
    rw [withReturns_append, withReturns_eq_self hline, readNumber_integer hdigits hrest hpoint,
      readNumber_integer hdigits hrest' hpoint', List.take_left]
    exact ⟨rfl, hline⟩
  | @decimal digits places rest hdigits hplaces hne hrest =>
    have hline : '\n' ∉ digits := not_mem_of_forall hdigits (by decide)
    have hline' : '\n' ∉ places := not_mem_of_forall hplaces (by decide)
    rw [withReturns_append, withReturns_eq_self hline, withReturns_cons (by decide),
      withReturns_append, withReturns_eq_self hline',
      readNumber_decimal hdigits hplaces hne hrest,
      readNumber_decimal hdigits hplaces hne (stop_withReturns (by decide) hrest), take_decimal]
    exact ⟨rfl, by simp [hline, hline']⟩

theorem readWord_withReturns (c : Char) (cs : List Char) :
    readWord c (withReturns cs) = readWord c cs ∧ '\n' ∉ cs.take (readWord c cs).2 := by
  obtain ⟨word, rest, rfl, -, hword, hrest⟩ := takeWhile_split continuesWord cs
  have hline : '\n' ∉ word := not_mem_of_forall hword (by decide)
  rw [withReturns_append, withReturns_eq_self hline, readWord, readWord, takeWhile_stop hword hrest,
    takeWhile_stop hword (stop_withReturns (by decide) hrest), List.take_left]
  exact ⟨rfl, hline⟩

theorem readSymbol_withReturns (c : Char) (cs : List Char) :
    readSymbol c (withReturns cs) = readSymbol c cs ∧ '\n' ∉ cs.take (readSymbol c cs).2 := by
  have hpair : (withReturns cs).head?.bind (TokenKind.ofPair? c) =
      cs.head?.bind (TokenKind.ofPair? c) := by
    rw [head?_withReturns]
    cases cs with
    | nil => rfl
    | cons d cs =>
      by_cases hd : d = '\n'
      · subst hd
        simp [TokenKind.ofPair?_none]
      · simp [hd]
  refine ⟨by rw [readSymbol, readSymbol, hpair], ?_⟩
  unfold readSymbol
  split
  · rename_i kind hkind
    obtain ⟨d, hd, hkind⟩ := Option.bind_eq_some_iff.1 hkind
    obtain ⟨ds, rfl⟩ := List.head?_eq_some_iff.1 hd
    rw [List.take_succ_cons, List.take_zero, List.mem_singleton]
    rintro rfl
    simp [TokenKind.ofPair?_none] at hkind
  · simp
  · simp

/-- A literal without a newline in it is read as before. -/
theorem readString_withReturns {cs : List Char} {kind : TokenKind}
    (h : (readString cs).1 = .token kind) (hn : '\n' ∉ cs.take (readString cs).2) :
    readString (withReturns cs) = readString cs := by
  obtain ⟨-, hbad, n, hclose⟩ := readString_token h
  have hclosed : Quoted.Closed true (cs.take n) := Quoted.closed_of_closing? (fun _ => hbad) hclose
  obtain ⟨inside, hinside, htake⟩ := hclosed
  have hcs : cs = inside ++ '"' :: cs.drop n := by
    have happend := (List.take_append_drop n cs).symm
    rwa [htake, List.append_assoc] at happend
  have hline : '\n' ∉ inside := by
    rw [readString_closed hbad hclose, htake, List.mem_append, not_or] at hn
    exact hn.1
  have hcs' : withReturns cs = inside ++ '"' :: withReturns (cs.drop n) := by
    rw [hcs, withReturns_append, withReturns_eq_self hline, withReturns_cons (by decide), ← hcs]
  rw [hcs, readString_closed (hinside.badEscape?_eq _) (hinside.closing?_eq _), ← hcs, hcs',
    readString_closed (hinside.badEscape?_eq _) (hinside.closing?_eq _)]

/-- A literal that is no token is none with carriage returns either. -/
theorem readString_withReturns_other {cs : List Char}
    (h : ∀ kind, (readString cs).1 ≠ .token kind) :
    (∀ kind, (readString (withReturns cs)).1 ≠ .token kind) ∧
      (withReturns cs).drop (readString (withReturns cs)).2 =
        withReturns (cs.drop (readString cs).2) := by
  have hends := Quoted.closing?_withReturns cs
  constructor
  · intro kind hkind
    obtain ⟨-, hbad', n', hclose'⟩ := readString_token hkind
    have hbad : Quoted.badEscape? cs = none :=
      not_not.1 fun hne => Quoted.badEscape?_withReturns hne hbad'
    rw [hclose'] at hends
    generalize hclose : Quoted.closing? cs = n? at hends
    cases hends
    exact h .string (congrArg Prod.fst (readString_closed hbad hclose))
  · rw [readString_length, readString_length]
    generalize Quoted.closing? cs = n? at hends ⊢
    generalize Quoted.closing? (withReturns cs) = n'? at hends ⊢
    cases hends with
    | none => simp [withReturns_nil]
    | some hdrop => exact hdrop

theorem readBlockComment_withReturns (cs : List Char) :
    (withReturns ('*' :: cs)).drop (readBlockComment (withReturns ('*' :: cs))).2 =
      withReturns (('*' :: cs).drop (readBlockComment ('*' :: cs)).2) := by
  have hends := Comment.closing?_withReturns 0 cs
  rw [withReturns_cons (by decide)]
  unfold readBlockComment
  simp only [List.drop_succ_cons, List.drop_zero]
  generalize Comment.closing? 0 cs = n? at hends ⊢
  generalize Comment.closing? 0 (withReturns cs) = n'? at hends ⊢
  cases hends with
  | none => simp [withReturns_nil]
  | some hdrop => exact hdrop

/-- What starts no comment starts none with carriage returns. -/
theorem comment_withReturns {c : Char} {cs : List Char}
    (h : c = '/' → cs.head? ≠ some '/' ∧ cs.head? ≠ some '*') :
    c = '/' → (withReturns cs).head? ≠ some '/' ∧ (withReturns cs).head? ≠ some '*' := by
  intro hslash
  obtain ⟨hline, hblock⟩ := h hslash
  exact ⟨head?_withReturns_ne (by decide) hline, head?_withReturns_ne (by decide) hblock⟩

/-- What is neither a newline nor a semicolon, and is read as a token, is read as before. -/
theorem read_withReturns {eol : Bool} {c : Char} {cs : List Char} {kind : TokenKind}
    (hnewline : c ≠ '\n') (hsemicolon : c ≠ ';') (h : (read eol c cs).1 = .token kind)
    (hstring : kind = .string → '\n' ∉ cs.take (read eol c cs).2) :
    read eol c (withReturns cs) = read eol c cs ∧ '\n' ∉ cs.take (read eol c cs).2 := by
  cases opening c cs with
  | blank hc =>
    rw [read_blank hc] at h
    cases h
  | newline => exact absurd rfl hnewline
  | semicolon => exact absurd rfl hsemicolon
  | quote =>
    rw [read_quote] at h hstring ⊢
    have hkind := (readString_token h).1
    rw [read_quote, readString_withReturns h (hstring hkind)]
    exact ⟨rfl, hstring hkind⟩
  | digit hc =>
    rw [read_digit hc, read_digit hc]
    exact readNumber_withReturns cs
  | letter hc hd =>
    rw [read_letter hc hd, read_letter hc hd]
    exact readWord_withReturns c cs
  | line =>
    rw [read_line] at h
    cases h
  | block =>
    rw [read_block] at h
    exact absurd h readBlockComment_not_token
  | mark hc hcomment =>
    rw [read_mark hc hcomment, read_mark hc (comment_withReturns hcomment)]
    exact readSymbol_withReturns c cs

/-- The next token is the same one, at another place. -/
theorem tokensFrom_withReturns {eol : Bool} {c : Char} {cs : List Char} {kind : TokenKind}
    (hnewline : c ≠ '\n') (hsemicolon : c ≠ ';') (h : (read eol c cs).1 = .token kind)
    (hstring : kind = .string → '\n' ∉ cs.take (read eol c cs).2) (q : Position) :
    ∃ q', tokensFrom eol q (c :: withReturns cs) =
      ⟨kind, String.ofList (c :: cs.take (read eol c cs).2), q, false⟩ ::
        tokensFrom false q' (withReturns (cs.drop (read eol c cs).2)) := by
  obtain ⟨hread, hline⟩ := read_withReturns hnewline hsemicolon h hstring
  obtain ⟨htake, hdrop⟩ := take_withReturns hline
  refine ⟨q.advance (c :: cs.take (read eol c cs).2), ?_⟩
  rw [tokensFrom_text hnewline (hread ▸ h), hread, htake, hdrop]

/-- A line comment is passed, up to a newline or to the end. -/
theorem tokensFrom_line {line rest : List Char} (hopen : line.head? = some '/')
    (hline : '\n' ∉ line) (hrest : ∀ c ∈ rest.head?, c = '\n') (eol : Bool) (q : Position) :
    tokensFrom eol q ('/' :: (line ++ rest)) = tokensFrom eol (q.advance ('/' :: line)) rest := by
  have hstart : '/' = '/' ∧ (line ++ rest).head? = some '/' := ⟨rfl, by simp [hopen]⟩
  have hlength : Comment.lineLength (line ++ rest) = line.length := by
    rw [Comment.lineLength, takeWhile_stop]
    · exact fun c hc => decide_eq_true (ne_of_mem_of_not_mem hc hline)
    · exact fun c hc => by simp [hrest c hc]
  have hread := read_lineComment hstart eol
  rw [tokensFrom_other (by simp [hread]), hread, hlength, List.take_left, List.drop_left]

/-- With carriage returns a line comment is passed, too, up to the same newline. -/
theorem tokensFrom_line_withReturns (cs : List Char) (eol : Bool) (q : Position) :
    ∃ q', tokensFrom eol q ('/' :: withReturns ('/' :: cs)) =
      tokensFrom eol q' (withReturns (('/' :: cs).drop (read eol '/' ('/' :: cs)).2)) := by
  obtain ⟨line, rest, hsplit, hlength, hline, hrest⟩ := takeWhile_split (· ≠ '\n') ('/' :: cs)
  have hopen : line.head? = some '/' := by
    rw [← hlength]
    simp
  have hline : '\n' ∉ line := not_mem_of_forall hline (by decide)
  have hnewline : ∀ c ∈ rest.head?, c = '\n' := fun c hc => by simpa using hrest c hc
  have hread : (read eol '/' ('/' :: cs)).2 = line.length := by
    rw [read_line, Comment.lineLength, hlength]
  rw [hread, hsplit, List.drop_left, withReturns_append, withReturns_eq_self hline]
  cases rest with
  | nil => exact ⟨_, tokensFrom_line hopen hline (by simp [withReturns_nil]) eol q⟩
  | cons c rest =>
    obtain rfl := hnewline c rfl
    -- the carriage return belongs to the comment
    have hreturn : tokensFrom eol q ('/' :: ((line ++ ['\r']) ++ '\n' :: withReturns rest)) =
        tokensFrom eol (q.advance ('/' :: line ++ ['\r'])) ('\n' :: withReturns rest) :=
      tokensFrom_line (by simp [hopen]) (by simp [hline]) (by simp) eol q
    have hblank := tokensFrom_blank (c := '\r') (by decide) eol (q.advance ('/' :: line))
      ('\n' :: withReturns rest)
    refine ⟨q.advance ('/' :: line), ?_⟩
    rw [List.append_assoc, Position.advance_append] at hreturn
    exact hreturn.trans hblank.symm

/-- Where no token is read, none is read with carriage returns. -/
theorem tokensFrom_withReturns_other {eol : Bool} {c : Char} {cs : List Char}
    (hnewline : c ≠ '\n') (hsemicolon : c ≠ ';') (h : ∀ kind, (read eol c cs).1 ≠ .token kind)
    (q : Position) :
    ∃ q', tokensFrom eol q (c :: withReturns cs) =
      tokensFrom eol q' (withReturns (cs.drop (read eol c cs).2)) := by
  have hskip (hk : ∀ kind, (read eol c (withReturns cs)).1 ≠ .token kind)
      (hdrop : (withReturns cs).drop (read eol c (withReturns cs)).2 =
        withReturns (cs.drop (read eol c cs).2)) :
      ∃ q', tokensFrom eol q (c :: withReturns cs) =
        tokensFrom eol q' (withReturns (cs.drop (read eol c cs).2)) :=
    ⟨_, by rw [tokensFrom_other hk, hdrop]⟩
  cases opening c cs with
  | blank hc =>
    refine hskip ?_ ?_
    · rw [read_blank hc]
      exact nofun
    · rw [read_blank hc, read_blank hc, List.drop_zero, List.drop_zero]
  | newline => exact absurd rfl hnewline
  | semicolon => exact absurd rfl hsemicolon
  | quote =>
    rw [read_quote] at h
    obtain ⟨hk, hdrop⟩ := readString_withReturns_other h
    refine hskip ?_ ?_
    · rw [read_quote]
      exact hk
    · rw [read_quote, read_quote]
      exact hdrop
  | digit hc =>
    rw [read_digit hc] at h
    obtain ⟨kind, hkind⟩ := readNumber_token cs
    exact absurd hkind (h kind)
  | letter hc hd =>
    rw [read_letter hc hd] at h
    exact absurd rfl (h _)
  | @line cs => exact tokensFrom_line_withReturns cs eol q
  | @block cs =>
    have hblock := readBlockComment_withReturns cs
    rw [withReturns_cons (by decide)] at hblock
    rw [withReturns_cons (by decide)] at hskip ⊢
    refine hskip ?_ ?_
    · rw [read_block]
      exact fun kind => readBlockComment_not_token
    · rw [read_block, read_block]
      exact hblock
  | mark hc hcomment =>
    obtain ⟨hread, hline⟩ := readSymbol_withReturns c cs
    rw [read_mark hc hcomment] at h hskip ⊢
    rw [read_mark hc (comment_withReturns hcomment), hread] at hskip
    exact hskip h (take_withReturns hline).2

end Segment

end LazyDecl
