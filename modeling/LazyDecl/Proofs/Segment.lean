import LazyDecl.Proofs.Input
import LazyDecl.Segment

/-!
Tokens of a source text: line ends, and nothing else, are hidden, and the only end mark
is the last token.
-/

namespace LazyDecl

/-- A kind that text other than a newline can have. -/
def TokenKind.IsText (kind : TokenKind) : Prop := kind ≠ .eof ∧ kind ≠ .eol

/-- A pair of characters is an operator only with one of these behind the first. -/
theorem TokenKind.ofPair?_none {d : Char} (h : d ≠ '>' ∧ d ≠ '=' ∧ d ≠ '&' ∧ d ≠ '|') (c : Char) :
    ofPair? c d = none := by
  unfold ofPair?
  split <;> simp_all

namespace Segment

theorem wordKind_isText (word : List Char) : (wordKind word).IsText := by
  unfold wordKind
  split
  · exact ⟨nofun, nofun⟩
  · split <;> exact ⟨nofun, nofun⟩

theorem ofPair?_isText {c d : Char} {kind : TokenKind} (h : TokenKind.ofPair? c d = some kind) :
    kind.IsText := by
  unfold TokenKind.ofPair? at h
  split at h <;> cases h <;> exact ⟨nofun, nofun⟩

theorem ofChar?_isText {c : Char} {kind : TokenKind} (h : TokenKind.ofChar? c = some kind) :
    kind.IsText := by
  unfold TokenKind.ofChar? at h
  split at h <;> cases h <;> exact ⟨nofun, nofun⟩

theorem readNumber_isText {cs : List Char} {kind : TokenKind}
    (h : (readNumber cs).1 = .token kind) : kind.IsText := by
  unfold readNumber at h
  dsimp only at h
  split at h
  · split at h <;> cases h <;> exact ⟨nofun, nofun⟩
  · cases h
    exact ⟨nofun, nofun⟩

theorem readNumber_token (cs : List Char) : ∃ kind, (readNumber cs).1 = .token kind := by
  unfold readNumber
  dsimp only
  split
  · split <;> exact ⟨_, rfl⟩
  · exact ⟨_, rfl⟩

theorem readString_closed {cs : List Char} {n : Nat} (hbad : Quoted.badEscape? cs = none)
    (hclose : Quoted.closing? cs = some n) : readString cs = (.token .string, n) := by
  rw [readString, hbad, hclose]

theorem readString_open {cs : List Char} (hbad : Quoted.badEscape? cs = none)
    (hclose : Quoted.closing? cs = none) :
    readString cs = (.malformed .unterminatedString ('"' :: cs), cs.length) := by
  rw [readString, hbad, hclose]

/-- Only a literal without a mistake is a token. -/
theorem readString_token {cs : List Char} {kind : TokenKind}
    (h : (readString cs).1 = .token kind) :
    kind = .string ∧ Quoted.badEscape? cs = none ∧ ∃ n, Quoted.closing? cs = some n := by
  unfold readString at h
  split at h
  · cases h
  · rename_i hbad hclose
    cases h
    exact ⟨rfl, hbad, _, hclose⟩
  · cases h

theorem readString_isText {cs : List Char} {kind : TokenKind}
    (h : (readString cs).1 = .token kind) : kind.IsText := by
  rw [(readString_token h).1]
  exact ⟨nofun, nofun⟩

theorem readBlockComment_not_token {cs : List Char} {kind : TokenKind} :
    (readBlockComment cs).1 ≠ .token kind := by
  unfold readBlockComment
  split <;> nofun

theorem readSymbol_isText {c : Char} {cs : List Char} {kind : TokenKind}
    (h : (readSymbol c cs).1 = .token kind) : kind.IsText := by
  unfold readSymbol at h
  split at h
  · rename_i found
    cases h
    obtain ⟨d, -, hd⟩ := Option.bind_eq_some_iff.1 found
    exact ofPair?_isText hd
  · rename_i found
    cases h
    exact ofChar?_isText found
  · cases h

/-- Only a newline is a line end, and no text is an end mark. -/
theorem read_isText {eol : Bool} {c : Char} {cs : List Char} {kind : TokenKind}
    (hc : c ≠ '\n') (h : (read eol c cs).1 = .token kind) : kind.IsText := by
  unfold read at h
  rw [if_neg hc] at h
  split at h
  · cases h
  split at h
  · split at h <;> cases h
    exact ⟨nofun, nofun⟩
  split at h
  · exact readString_isText h
  split at h
  · exact readNumber_isText h
  split at h
  · exact SegmentKind.token.inj h ▸ wordKind_isText _
  split at h
  · cases h
  split at h
  · exact absurd h readBlockComment_not_token
  · exact readSymbol_isText h

theorem read_eol (eol : Bool) (cs : List Char) :
    read eol '\n' cs = (if eol then .repeatedEol else .token .eol, 0) := by
  rw [read, if_neg (by decide), if_pos rfl]

theorem read_semicolon (eol : Bool) (cs : List Char) :
    read eol ';' cs =
      (if eol || endsUnit cs then .redundantSemicolon else .token .semicolon, 0) := by
  rw [read, if_neg (by decide), if_neg (by decide), if_pos rfl]

theorem read_blank {c : Char} (h : isBlank c = true) (eol : Bool) (cs : List Char) :
    read eol c cs = (.blank, 0) := by
  rw [read, if_pos h]

theorem read_quote (eol : Bool) (cs : List Char) : read eol '"' cs = readString cs := by
  rw [read, if_neg (by decide), if_neg (by decide), if_neg (by decide), if_pos rfl]

/-- A character that starts a number or a word starts nothing else. -/
theorem not_special {c : Char} (h : c.isDigit = true ∨ startsWord c = true) :
    isBlank c = false ∧ c ≠ '\n' ∧ c ≠ ';' ∧ c ≠ '"' := by
  have hne : ∀ d, d.isDigit = false → startsWord d = false → c ≠ d := by
    rintro d hd hw rfl
    rcases h with h | h
    · exact absurd (h.symm.trans hd) nofun
    · exact absurd (h.symm.trans hw) nofun
  refine ⟨?_, hne _ (by decide) (by decide), hne _ (by decide) (by decide),
    hne _ (by decide) (by decide)⟩
  simp [isBlank, hne ' ' (by decide) (by decide), hne '\t' (by decide) (by decide),
    hne '\r' (by decide) (by decide)]

theorem read_digit {c : Char} (h : c.isDigit = true) (eol : Bool) (cs : List Char) :
    read eol c cs = readNumber cs := by
  obtain ⟨hblank, hnewline, hsemicolon, hquote⟩ := not_special (.inl h)
  rw [read, hblank, if_neg nofun, if_neg hnewline, if_neg hsemicolon, if_neg hquote, if_pos h]

theorem read_letter {c : Char} (h : startsWord c = true) (hd : c.isDigit = false) (eol : Bool)
    (cs : List Char) : read eol c cs = readWord c cs := by
  obtain ⟨hblank, hnewline, hsemicolon, hquote⟩ := not_special (.inr h)
  rw [read, hblank, if_neg nofun, if_neg hnewline, if_neg hsemicolon, if_neg hquote, hd,
    if_neg nofun, if_pos h]

theorem read_line (eol : Bool) (cs : List Char) :
    read eol '/' ('/' :: cs) = (.comment, Comment.lineLength ('/' :: cs)) := by
  rw [read, if_neg (by decide), if_neg (by decide), if_neg (by decide), if_neg (by decide),
    if_neg (by decide), if_neg (by decide), if_pos ⟨rfl, rfl⟩]

theorem read_block (eol : Bool) (cs : List Char) :
    read eol '/' ('*' :: cs) = readBlockComment ('*' :: cs) := by
  rw [read, if_neg (by decide), if_neg (by decide), if_neg (by decide), if_neg (by decide),
    if_neg (by decide), if_neg (by decide), if_neg (by simp), if_pos ⟨rfl, rfl⟩]

/-- A character that is no blank, no mark of its own, and starts neither a number nor a word. -/
structure IsMark (c : Char) : Prop where
  not_blank : isBlank c = false
  ne_newline : c ≠ '\n'
  ne_semicolon : c ≠ ';'
  ne_quote : c ≠ '"'
  not_digit : c.isDigit = false
  not_letter : startsWord c = false

theorem read_mark {c : Char} {cs : List Char} (h : IsMark c)
    (hcomment : c = '/' → cs.head? ≠ some '/' ∧ cs.head? ≠ some '*') (eol : Bool) :
    read eol c cs = readSymbol c cs := by
  rw [read, h.not_blank, if_neg nofun, if_neg h.ne_newline, if_neg h.ne_semicolon,
    if_neg h.ne_quote, h.not_digit, if_neg nofun, h.not_letter, if_neg nofun,
    if_neg fun hc => (hcomment hc.1).1 hc.2, if_neg fun hc => (hcomment hc.1).2 hc.2]

/-- How a text can open. There is one equation of `read` for each way. -/
inductive Opening : Char → List Char → Prop where
  | blank {c : Char} {cs : List Char} : isBlank c = true → Opening c cs
  | newline {cs : List Char} : Opening '\n' cs
  | semicolon {cs : List Char} : Opening ';' cs
  | quote {cs : List Char} : Opening '"' cs
  | digit {c : Char} {cs : List Char} : c.isDigit = true → Opening c cs
  | letter {c : Char} {cs : List Char} :
      startsWord c = true → c.isDigit = false → Opening c cs
  | line {cs : List Char} : Opening '/' ('/' :: cs)
  | block {cs : List Char} : Opening '/' ('*' :: cs)
  | mark {c : Char} {cs : List Char} : IsMark c →
      (c = '/' → cs.head? ≠ some '/' ∧ cs.head? ≠ some '*') → Opening c cs

theorem opening (c : Char) (cs : List Char) : Opening c cs := by
  cases hblank : isBlank c with
  | true => exact .blank hblank
  | false =>
  by_cases hnewline : c = '\n'
  · exact hnewline ▸ .newline
  by_cases hsemicolon : c = ';'
  · exact hsemicolon ▸ .semicolon
  by_cases hquote : c = '"'
  · exact hquote ▸ .quote
  cases hdigit : c.isDigit with
  | true => exact .digit hdigit
  | false =>
  cases hletter : startsWord c with
  | true => exact .letter hletter hdigit
  | false =>
  have hmark : IsMark c := ⟨hblank, hnewline, hsemicolon, hquote, hdigit, hletter⟩
  by_cases hslash : c = '/'
  · subst hslash
    match cs with
    | '/' :: cs => exact .line
    | '*' :: cs => exact .block
    | [] => exact .mark hmark fun _ => ⟨nofun, nofun⟩
    | d :: cs =>
      by_cases hd : d = '/'
      · exact hd ▸ .line
      by_cases hd' : d = '*'
      · exact hd' ▸ .block
      exact .mark hmark fun _ => by simp [hd, hd']
  · exact .mark hmark fun h => absurd h hslash

theorem read_ne_eof (eol : Bool) (c : Char) (cs : List Char) :
    (read eol c cs).1 ≠ .token .eof := by
  intro h
  by_cases hc : c = '\n'
  · subst hc
    rw [read_eol] at h
    cases eol <;> cases h
  · exact (read_isText hc h).1 rfl

theorem cut_cons (eol : Bool) (p : Position) (c : Char) (cs : List Char) :
    cut eol p (c :: cs) =
      ⟨(read eol c cs).1, p, c :: cs.take (read eol c cs).2⟩ ::
        cut (afterEol eol (read eol c cs).1) (p.advance (c :: cs.take (read eol c cs).2))
          (cs.drop (read eol c cs).2) := by
  rw [cut]

/-- To prove something of all texts, prove it of the empty one, and of every text of which
the rest behind the first segment has it. -/
@[elab_as_elim]
theorem cut_induction {motive : Bool → Position → List Char → Prop}
    (nil : ∀ eol p, motive eol p [])
    (cons : ∀ eol p c cs,
      motive (afterEol eol (read eol c cs).1) (p.advance (c :: cs.take (read eol c cs).2))
        (cs.drop (read eol c cs).2) → motive eol p (c :: cs))
    (eol : Bool) (p : Position) (cs : List Char) : motive eol p cs := by
  refine cut.induct motive nil (fun eol p c cs kind n hread ih => cons eol p c cs ?_) eol p cs
  rw [hread]
  exact ih

theorem cut_ne_eof {eol : Bool} {p : Position} {cs : List Char} {s : Segment}
    (h : s ∈ cut eol p cs) : s.kind ≠ .token .eof := by
  induction eol, p, cs using cut_induction with
  | nil => simp [cut] at h
  | cons eol p c cs ih =>
    rw [cut_cons] at h
    rcases List.mem_cons.1 h with rfl | h
    · exact read_ne_eof eol c cs
    · exact ih h

end Segment

/-- The token apart from where it stands. -/
def Token.unplaced (t : Token) : Token := { t with start := .start }

/-- Line ends, and nothing else, are hidden, and no token is an end mark. -/
def Plain (ts : List Token) : Prop :=
  ∀ t ∈ ts, t.kind ≠ .eof ∧ (t.hidden = true ↔ t.kind = .eol)

theorem Plain.suffix {ts us : List Token} (h : Plain ts) (hs : us <:+ ts) : Plain us :=
  fun t ht => h t (hs.mem ht)

theorem Plain.append {ts us : List Token} (h : Plain ts) (hu : Plain us) : Plain (ts ++ us) :=
  List.forall_mem_append.2 ⟨h, hu⟩

theorem Plain.visible {t : Token} {ts : List Token} (h : Plain ts) (ht : t ∈ ts)
    (hk : t.kind ≠ .eol) : t.hidden = false :=
  Bool.eq_false_iff.2 fun hidden => hk ((h t ht).2.1 hidden)

theorem plain_of_eols {ts : List Token} (h : ∀ t ∈ ts, t.kind = .eol ∧ t.hidden = true) :
    Plain ts := by
  intro t ht
  obtain ⟨hk, hidden⟩ := h t ht
  simp [hk, hidden]

/-- A brace that the hidden view shows is the next visible token. -/
theorem Plain.takes_leftBrace {i : Input} (hi : Plain i.rest)
    (hb : (!i.skipped && i.check .hidden .leftBrace) = true) :
    ∃ t, t.kind = .leftBrace ∧ i.Takes .visible t (i.advance .visible).2 := by
  have hk : (i.peek .hidden).kind = .leftBrace :=
    (Input.check_iff (by decide)).1 ((Bool.and_eq_true _ _ ▸ hb).2)
  cases hr : i.rest with
  | nil =>
    have hfinal : i.peek .hidden = i.final := by simp [Input.peek, hr]
    rw [hfinal, i.final_eof] at hk
    cases hk
  | cons t us =>
    have ht : i.peek .hidden = t := by simp [Input.peek, hr]
    rw [ht] at hk
    have hvisible : t.hidden = false := by
      cases hh : t.hidden with
      | false => rfl
      | true =>
        have := ((hi t (by simp [hr])).2).1 hh
        rw [hk] at this
        cases this
    have hp : i.peek .visible = t := by simp [Input.peek, hr, hvisible]
    exact ⟨t, hk, hp ▸ Input.takes_peek (by rw [hp, hk]; decide)⟩

/-- The tokens of a source text but for the mark at its end. -/
def textTokens (source : String) : List Token :=
  (Segment.ofSource source).filterMap Segment.token?

theorem tokens_eq (source : String) :
    tokens source = textTokens source ++ [.eof (Position.start.advance source.toList)] := rfl

theorem plain_textTokens (source : String) : Plain (textTokens source) := by
  intro t ht
  obtain ⟨s, hs, hst⟩ := List.mem_filterMap.1 ht
  unfold Segment.token? at hst
  split at hst
  · rename_i kind hkind
    cases hst
    refine ⟨fun he => Segment.cut_ne_eof hs ?_, by simp⟩
    rw [hkind]
    exact congrArg SegmentKind.token he
  · cases hst

theorem ofTokens_tokens (source : String) :
    Input.ofTokens (tokens source) =
      { rest := textTokens source
        final := .eof (Position.start.advance source.toList)
        final_eof := rfl } :=
  Input.ofTokens_concat _ rfl

/-- The first token that can be seen, if there is one, is a name. -/
def OpensWithName (ts : List Token) : Prop := ∀ t ∈ ts.find? (!·.hidden), t.kind = .identifier

/-- The first token that can be seen, if there is one, is no semicolon. -/
def OpensUnit (ts : List Token) : Prop := ∀ t ∈ ts.find? (!·.hidden), t.kind ≠ .semicolon

theorem OpensWithName.opensUnit {ts : List Token} (h : OpensWithName ts) : OpensUnit ts :=
  fun t ht => by rw [h t ht]; decide

end LazyDecl
