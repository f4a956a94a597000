import Mathlib.Data.List.Chain
import LazyDecl.Proofs.Text.Munch

/-!
Line ends and redundant semicolons. No two line ends stand side by side, and a newline or a
semicolon that gives no token stands beside a token that does the same (`line_structure`).

* `Segment.parted`: the tokens in front of a piece that gives none, and those behind it;
* `Segment.newline_of_read`: newlines outside of comments, literals and malformed pieces are read
  on their own;
* `Segment.head_behind_redundant`: what follows a semicolon in front of the end of a unit.
-/

namespace LazyDecl

/-- The tokens of a source in front of the place behind `before`, and those behind it. -/
structure PartedAt (source : String) (before : List Char) (ts us : List Token) : Prop where
  tokens : tokens source = ts ++ us
  front : ∀ t ∈ ts, t.start < Position.behind before
  back : ∀ u ∈ us, Position.behind before < u.start

namespace Segment

/-- The character behind `before` is in no comment, no string literal and no malformed piece. -/
def Outside (source : String) (before : List Char) : Prop :=
  ∀ front s back inner, ofSource source = front ++ s :: back →
    before = front.flatMap (·.text) ++ inner → inner.length < s.text.length →
    s.kind ≠ .comment ∧ s.kind ≠ .token .string ∧ WellFormed s.kind

theorem start_of_token? {s : Segment} {t : Token} (h : s.token? = some t) : t.start = s.start := by
  unfold token? at h
  split at h <;> cases h
  rfl

/-- Each character of a text is in one of its segments. -/
theorem exists_holder {segments : List Segment} {before after : List Char} {c : Char}
    (h : segments.flatMap (·.text) = before ++ c :: after) :
    ∃ front s back inner rest, segments = front ++ s :: back ∧
      before = front.flatMap (·.text) ++ inner ∧ s.text = inner ++ c :: rest := by
  induction segments generalizing before with
  | nil => simp at h
  | cons s segments ih =>
    rw [List.flatMap_cons] at h
    rcases List.append_eq_append_iff.1 h with ⟨inner, rfl, hrest⟩ | ⟨rest, hs, hrest⟩
    · obtain ⟨front, s', back, inner, rest, rfl, rfl, hs'⟩ := ih hrest
      exact ⟨s :: front, s', back, inner, rest, rfl, by simp, hs'⟩
    · cases rest with
      | nil =>
        -- the segment ends right in front of the character
        have hnext : segments.flatMap (·.text) = [] ++ c :: after := hrest.symm
        obtain ⟨front, s', back, inner, rest, rfl, hinner, hs'⟩ := ih hnext
        rw [List.append_nil] at hs
        exact ⟨s :: front, s', back, inner, rest, rfl, by simp [hs, ← hinner], hs'⟩
      | cons d rest =>
        obtain ⟨rfl, -⟩ := List.cons_eq_cons.1 hrest
        exact ⟨[], s, segments, before, rest, rfl, rfl, hs⟩

/-- A piece that gives no token parts the tokens of the source. -/
theorem parted {source : String} {front back : List Segment} {s : Segment}
    (h : ofSource source = front ++ s :: back) (hs : s.token? = none) :
    PartedAt source (front.flatMap (·.text)) (front.filterMap token?)
      (back.filterMap token? ++ [.eof (Position.start.advance source.toList)]) := by
  obtain ⟨c, cs, hstaken, -⟩ := cut_split h
  have hstart : s.start = Position.behind (front.flatMap (·.text)) := by
    rw [hstaken, ← Position.advance_start]
    rfl
  have hsorted : (ofSource source).Pairwise fun s t => s.start < t.start := starts_sorted _ _ _
  have hmem : s ∈ ofSource source := h ▸ List.mem_append_right _ List.mem_cons_self
  have hend : s.start < Position.start.advance source.toList := start_lt_end hmem
  rw [h] at hsorted
  obtain ⟨-, hback, hfront⟩ := List.pairwise_append.1 hsorted
  refine ⟨?_, fun t ht => ?_, fun u hu => ?_⟩
  · rw [tokens_eq, textTokens, h, List.filterMap_append, List.filterMap_cons_none hs,
      List.append_assoc]
  · obtain ⟨s', hs', ht⟩ := List.mem_filterMap.1 ht
    rw [start_of_token? ht, ← hstart]
    exact hfront s' hs' s List.mem_cons_self
  · rw [← hstart]
    rcases List.mem_append.1 hu with hu | hu
    · obtain ⟨s', hs', hu⟩ := List.mem_filterMap.1 hu
      rw [start_of_token? hu]
      exact (List.pairwise_cons.1 hback).1 s' hs'
    · rw [List.mem_singleton.1 hu]
      exact hend

/-! ## What is read -/

/-- What can be read next, for each kind of piece. -/
inductive Piece (eol : Bool) (c : Char) (cs : List Char) : SegmentKind × Nat → Prop where
  | token {kind : TokenKind} {n : Nat} :
      IsLexeme kind (c :: cs.take n) → Piece eol c cs (.token kind, n)
  | blank : isBlank c = true → Piece eol c cs (.blank, 0)
  | repeatedEol : c = '\n' → eol = true → Piece eol c cs (.repeatedEol, 0)
  | redundantSemicolon :
      c = ';' → (eol || endsUnit cs) = true → Piece eol c cs (.redundantSemicolon, 0)
  | comment {n : Nat} : Piece eol c cs (.comment, n)
  | malformed {error : ScanError} {shown : List Char} {n : Nat} :
      Piece eol c cs (.malformed error shown, n)

/-- **What is read next.** -/
theorem piece (eol : Bool) (c : Char) (cs : List Char) : Piece eol c cs (read eol c cs) := by
  by_cases htoken : ∃ kind, (read eol c cs).1 = .token kind
  · obtain ⟨kind, hk⟩ := htoken
    rw [← Prod.eta (read eol c cs), hk]
    exact .token (read_isLexeme hk)
  cases opening c cs with
  | blank h =>
    rw [read_blank h]
    exact .blank h
  | newline =>
    rw [read_eol] at htoken ⊢
    cases eol with
    | true => exact .repeatedEol rfl rfl
    | false => exact absurd ⟨_, rfl⟩ htoken
  | semicolon =>
    rw [read_semicolon] at htoken ⊢
    split
    · rename_i h
      exact .redundantSemicolon rfl h
    · rename_i h
      rw [if_neg h] at htoken
      exact absurd ⟨_, rfl⟩ htoken
  | quote =>
    rw [read_quote] at htoken ⊢
    unfold readString at htoken ⊢
    split
    · exact .malformed
    · rename_i hbad hclose
      rw [hbad, hclose] at htoken
      exact absurd ⟨_, rfl⟩ htoken
    · exact .malformed
  | digit h =>
    rw [read_digit h] at htoken
    exact absurd (readNumber_token cs) htoken
  | letter h hd =>
    rw [read_letter h hd] at htoken
    exact absurd ⟨_, rfl⟩ htoken
  | line =>
    rw [read_line]
    exact .comment
  | block =>
    rw [read_block]
    unfold readBlockComment
    split
    · exact .comment
    · exact .malformed
  | mark h hslash =>
    rw [read_mark h hslash] at htoken ⊢
    unfold readSymbol at htoken ⊢
    split
    · rename_i hpair
      rw [hpair] at htoken
      exact absurd ⟨_, rfl⟩ htoken
    · rename_i hpair hchar
      rw [hpair, hchar] at htoken
      exact absurd ⟨_, rfl⟩ htoken
    · exact .malformed

/-! ## Newlines -/

/-- Of the lexemes, only literals and line ends hold a newline. -/
theorem IsLexeme.newline {kind : TokenKind} {cs : List Char} (h : IsLexeme kind cs)
    (hmem : '\n' ∈ cs) : kind = .string ∨ cs = ['\n'] := by
  have hdigit : '\n'.isDigit ≠ true := by decide
  cases h.recognized with
  | eol => exact .inr rfl
  | string => exact .inl rfl
  | semicolon => simp at hmem
  | @integer c digits hc hdigits =>
    rcases List.mem_cons.1 hmem with rfl | hd
    · exact absurd hc hdigit
    · exact absurd (hdigits _ hd) hdigit
  | @decimal c digits places hc hdigits hplaces =>
    have hall : '\n' = c ∨ '\n' ∈ digits ∨ '\n' ∈ places := by simpa using hmem
    rcases hall with rfl | hd | hd
    · exact absurd hc hdigit
    · exact absurd (hdigits _ hd) hdigit
    · exact absurd (hplaces _ hd) hdigit
  | word hc _ hword =>
    rcases List.mem_cons.1 hmem with rfl | hd
    · exact absurd hc (by decide)
    · exact absurd (hword _ hd) (by decide)
  | @pair c d _ hpair =>
    rcases List.mem_pair.1 hmem with rfl | rfl
    · exact absurd rfl (isMark_of_ofPair? hpair).1.ne_newline
    · rw [TokenKind.ofPair?_none (by decide)] at hpair
      cases hpair
  | char hchar => exact absurd (List.mem_singleton.1 hmem).symm (isMark_of_ofChar? hchar).ne_newline

/-- **Outside of comments, literals and malformed pieces a newline is read on its own.** -/
theorem newline_of_read {eol : Bool} {c : Char} {cs : List Char}
    (hmem : '\n' ∈ c :: cs.take (read eol c cs).2) (hcomment : (read eol c cs).1 ≠ .comment)
    (hstring : (read eol c cs).1 ≠ .token .string) (hwell : WellFormed (read eol c cs).1) :
    c = '\n' := by
  have hpiece := piece eol c cs
  generalize read eol c cs = answer at *
  cases hpiece with
  | token hlexeme =>
    rcases hlexeme.newline hmem with rfl | htext
    · exact absurd rfl hstring
    · exact (List.cons_eq_cons.1 htext).1
  | blank | redundantSemicolon => exact (List.mem_singleton.1 hmem).symm
  | repeatedEol h => exact h
  | comment => exact absurd rfl hcomment
  | malformed => exact absurd rfl (hwell _ _)

theorem exists_eol {segments : List Segment} (h : endsLine false segments = true) :
    ∃ t, (segments.filterMap token?).getLast? = some t ∧ t.kind = .eol := by
  rw [endsLine_eq_getLast?] at h
  obtain ⟨t, ht, hk⟩ := (Option.any_eq_true _ _).1 h
  exact ⟨t, ht, of_decide_eq_true hk⟩

/-- A line end among the tokens of some first segments stands at a newline of their text. -/
theorem exists_newline {source : String} {front back : List Segment} {t : Token}
    (h : ofSource source = front ++ back) (ht : t ∈ front.filterMap token?) (hk : t.kind = .eol) :
    ∃ before after, front.flatMap (·.text) = before ++ '\n' :: after ∧
      t.start = Position.behind before := by
  obtain ⟨before, c, cs, after, ⟨-, hstart, eol, n, hread, hlexeme⟩, hfront⟩ :=
    exists_readAt h ht
  have hkind : (read eol c cs).1 = .token .eol := by rw [hread, hk]
  have hnewline := (read_isLexeme hkind).eq_spelling rfl
  rw [hread, ← hlexeme] at hnewline
  rw [hnewline] at hfront
  exact ⟨before, after, hfront, hstart⟩

/-! ## Semicolons -/

/-- Behind a semicolon that separates nothing a token follows that ends a unit. -/
theorem head_behind_redundant {cs : List Char} (h : endsUnit cs = true) (p q : Position) :
    ∃ u, (tokensFrom false p cs ++ [Token.eof q]).head? = some u ∧
      (u.kind = .eol ∨ u.kind = .semicolon ∨ u.kind = .eof) := by
  induction cs generalizing p with
  | nil =>
    rw [tokensFrom_nil]
    exact ⟨.eof q, rfl, .inr (.inr rfl)⟩
  | cons c cs ih =>
    have hc : c = '\n' ∨ c = ';' := by simpa [endsUnit] using h
    rcases hc with rfl | rfl
    · rw [tokensFrom_newline]
      exact ⟨_, rfl, .inl rfl⟩
    · rw [tokensFrom_semicolon]
      cases hends : endsUnit cs with
      | true => exact ih hends (p.next ';')
      | false => exact ⟨_, rfl, .inr (.inl rfl)⟩

end Segment

/-! ## Sources -/

/-- What becomes of the newlines and semicolons of a source. -/
structure LineStructure (source : String) : Prop where
  hidden_iff : ∀ t ∈ tokens source, t.hidden = true ↔ t.kind = .eol
  /-- No line end and no semicolon comes right behind a line end. -/
  apart : (tokens source).IsChain fun t u => t.kind = .eol → u.kind ≠ .eol ∧ u.kind ≠ .semicolon
  /-- A newline is a line end, or the last token in front of it is one that an earlier newline
  has made. -/
  newline : ∀ before after, source.toList = before ++ '\n' :: after →
    Segment.Outside source before →
    (∃ t ∈ tokens source, t.kind = .eol ∧ t.start = Position.behind before) ∨
    ∃ ts us t, PartedAt source before ts us ∧ ts.getLast? = some t ∧ t.kind = .eol ∧
      ∃ front back, before = front ++ '\n' :: back ∧ t.start = Position.behind front
  /-- Of the tokens in front of and behind a redundant semicolon, one does what it would do. -/
  semicolon : ∀ d ∈ (scanDiagnostics source).warnings, ∃ before after ts us,
    source.toList = before ++ ';' :: after ∧ d.message = "redundant ';'" ∧
    d.token = ⟨.unknown, ";", Position.behind before, false⟩ ∧ PartedAt source before ts us ∧
    ((∃ t, ts.getLast? = some t ∧ t.kind = .eol) ∨
      ∃ u, us.head? = some u ∧ (u.kind = .eol ∨ u.kind = .semicolon ∨ u.kind = .eof))

namespace Segment

theorem tokensFrom_apart (eol : Bool) (p : Position) (cs : List Char) :
    (tokensFrom eol p cs).IsChain fun t u =>
      t.kind = .eol → u.kind ≠ .eol ∧ u.kind ≠ .semicolon := by
  induction eol, p, cs using token_induction with
  | nil => simp [tokensFrom_nil]
  | token eol p c cs kind hk ih =>
    rw [tokensFrom_token hk]
    refine List.isChain_cons.2 ⟨fun u hu heol => ?_, ih⟩
    have hafter : afterEol eol (.token kind) = true := decide_eq_true heol
    rw [hafter] at hu
    simpa [Token.separates] using head_behind_eol _ _ u hu
  | other eol p c cs hother ih =>
    rw [tokensFrom_other hother]
    exact ih

/-- **A newline is a line end, or it comes behind one.** -/
theorem newline_kept {source : String} {before after : List Char}
    (h : source.toList = before ++ '\n' :: after) (houtside : Outside source before) :
    (∃ t ∈ tokens source, t.kind = .eol ∧ t.start = Position.behind before) ∨
    ∃ ts us t, PartedAt source before ts us ∧ ts.getLast? = some t ∧ t.kind = .eol ∧
      ∃ front back, before = front ++ '\n' :: back ∧ t.start = Position.behind front := by
  have htext : (ofSource source).flatMap (·.text) = before ++ '\n' :: after :=
    (cut_text false .start source.toList).trans h
  obtain ⟨front, s, back, inner, rest, hsplit, rfl, hs⟩ := exists_holder htext
  have hlength : inner.length < s.text.length := by simp [hs]
  obtain ⟨hcomment, hstring, hwell⟩ := houtside front s back inner hsplit rfl hlength
  have hmem : '\n' ∈ s.text := by simp [hs]
  obtain ⟨c, cs, rfl, -⟩ := cut_split hsplit
  obtain rfl := newline_of_read hmem hcomment hstring hwell
  have hread := read_eol (endsLine false front) cs
  rw [hread] at hs hsplit
  -- the newline is all of its segment
  obtain ⟨rfl, -⟩ : inner = [] ∧ rest = [] := by
    have hsum := congrArg List.length hs
    simp only [taken, List.take_zero, List.length_append, List.length_cons,
      List.length_nil] at hsum
    exact ⟨List.eq_nil_of_length_eq_zero (by omega), List.eq_nil_of_length_eq_zero (by omega)⟩
  rw [List.append_nil]
  cases hends : endsLine false front with
  | false =>
    rw [hends] at hsplit
    refine .inl ⟨⟨.eol, "\n", Position.behind (front.flatMap (·.text)), true⟩, ?_, rfl, rfl⟩
    rw [tokens_eq, textTokens, hsplit, ← Position.advance_start]
    simp [taken, token?]
  | true =>
    rw [hends] at hsplit
    obtain ⟨t, ht, hkind⟩ := exists_eol hends
    obtain ⟨before, after, hbefore, hstart⟩ :=
      exists_newline hsplit (List.mem_of_getLast? ht) hkind
    exact .inr ⟨_, _, t, parted hsplit rfl, ht, hkind, before, after, hbefore, hstart⟩

/-- **A redundant semicolon stands beside a token that does what it would do.** -/
theorem semicolon_kept {source : String} {d : Diagnostic}
    (h : d ∈ (scanDiagnostics source).warnings) : ∃ before after ts us,
    source.toList = before ++ ';' :: after ∧ d.message = "redundant ';'" ∧
    d.token = ⟨.unknown, ";", Position.behind before, false⟩ ∧ PartedAt source before ts us ∧
    ((∃ t, ts.getLast? = some t ∧ t.kind = .eol) ∨
      ∃ u, us.head? = some u ∧ (u.kind = .eol ∨ u.kind = .semicolon ∨ u.kind = .eof)) := by
  obtain ⟨hd, hwarning⟩ := List.mem_filter.1 h
  obtain ⟨s, hs, hsd⟩ := List.mem_filterMap.1 hd
  obtain ⟨front, back, hsplit⟩ := List.append_of_mem hs
  obtain ⟨c, cs, rfl, hback⟩ := cut_split hsplit
  have hpiece := piece (endsLine false front) c cs
  generalize read (endsLine false front) c cs = answer at *
  cases hpiece with
  | token | blank | repeatedEol | comment => cases hsd
  | malformed =>
    cases hsd
    cases hwarning
  | redundantSemicolon hc hredundant =>
    subst hc
    cases hsd
    have htext : source.toList = front.flatMap (·.text) ++ ';' :: cs := by
      rw [toList_of_split hsplit, hback]
      simp [taken]
    refine ⟨_, cs, _, _, htext, rfl, ?_, parted hsplit rfl, ?_⟩
    · rw [← Position.advance_start]
      rfl
    cases hends : endsLine false front with
    | true =>
      exact .inl (exists_eol hends)
    | false =>
      rw [hends] at hredundant
      have hrest := cut_rest (hsplit.trans (List.append_cons ..))
      -- behind the semicolon a line has no more ended than in front of it
      rw [endsLine_concat, hends, hback] at hrest
      rw [hrest]
      exact .inr (head_behind_redundant hredundant _ _)

end Segment

/-- **Line ends and redundant semicolons.** -/
theorem line_structure (source : String) : LineStructure source where
  hidden_iff t ht := by
    rw [tokens_eq] at ht
    rcases List.mem_append.1 ht with ht | ht
    · exact (plain_textTokens source t ht).2
    · rw [List.mem_singleton.1 ht]
      exact ⟨nofun, nofun⟩
  apart := by
    rw [tokens_eq]
    refine List.isChain_append.2
      ⟨Segment.tokensFrom_apart _ _ _, List.isChain_singleton _, fun t _ u hu _ => ?_⟩
    obtain rfl : Token.eof _ = u := Option.some.inj hu
    exact ⟨nofun, nofun⟩
  newline _ _ := Segment.newline_kept
  semicolon _ := Segment.semicolon_kept

/-- A second newline comes behind the line end of the first one, and so does the semicolon. -/
theorem line_structure_repeated :
    let source := "a\n\n;b"
    Segment.Outside source ['a', '\n'] ∧
      (∃ ts us t, PartedAt source ['a', '\n'] ts us ∧ ts.getLast? = some t ∧ t.kind = .eol) ∧
      ∃ d ∈ (scanDiagnostics source).warnings, ∃ before ts us, PartedAt source before ts us ∧
        d.token.start = Position.behind before := by
  intro source
  have hkinds : (Segment.ofSource source).map (·.kind) =
      [.token .identifier, .token .eol, .repeatedEol, .redundantSemicolon, .token .identifier] := by
    decide +kernel
  have houtside : Segment.Outside source ['a', '\n'] := by
    intro front s back inner h _ _
    have hs : s.kind ∈ (Segment.ofSource source).map (·.kind) :=
      List.mem_map_of_mem (h ▸ List.mem_append_right _ List.mem_cons_self)
    rw [hkinds] at hs
    simp only [List.mem_cons, List.not_mem_nil, or_false] at hs
    rcases hs with hs | hs | hs | hs | hs <;> simp [hs, Segment.WellFormed]
  have hnone : ∀ t ∈ tokens source, t.kind = .eol → t.start ≠ Position.behind ['a', '\n'] := by
    decide +kernel
  have htext : source.toList = ['a', '\n'] ++ '\n' :: [';', 'b'] := by decide +kernel
  have hlength : (scanDiagnostics source).warnings.length = 1 := by decide +kernel
  refine ⟨houtside, ?_, ?_⟩
  · rcases (line_structure source).newline _ _ htext houtside with h | h
    · obtain ⟨t, ht, hk, hstart⟩ := h
      exact absurd hstart (hnone t ht hk)
    · obtain ⟨ts, us, t, hparted, hlast, hk, -⟩ := h
      exact ⟨ts, us, t, hparted, hlast, hk⟩
  · obtain ⟨d, hd⟩ := List.length_eq_one_iff.1 hlength
    have hmem : d ∈ (scanDiagnostics source).warnings := hd ▸ List.mem_cons_self
    obtain ⟨before, after, ts, us, -, -, hplace, hparted, -⟩ :=
      (line_structure source).semicolon d hmem
    exact ⟨d, hmem, before, ts, us, hparted, by rw [hplace]⟩

end LazyDecl
