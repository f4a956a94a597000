import LazyDecl.Proofs.Text.Turns

/-!
Maximal munch. The lexeme of a token is the longest one that stands there.

* `Segment.IsLexeme.kind_unique`: a lexeme tells its kind;
* `Segment.IsLexeme.length_le_read`: what is read is as long as any lexeme that stands there;
* `maximal_munch`: all of this for the tokens of a source.
-/

namespace LazyDecl

namespace Segment

/-! ## Lexemes and their kinds -/

/-- A line end or a semicolon starts no other lexeme. -/
theorem IsLexeme.kind_of_separator {kind : TokenKind} {c : Char} {cs : List Char}
    (h : IsLexeme kind (c :: cs)) (hc : IsBreak c) :
    kind = if c = '\n' then .eol else .semicolon := by
  have hdigit : c.isDigit = false := by rcases hc with rfl | rfl <;> decide
  have hletter : startsWord c = false := by rcases hc with rfl | rfl <;> decide
  have hmark : ¬IsMark c := fun hmark => hc.elim hmark.ne_newline hmark.ne_semicolon
  cases h.recognized with
  | eol => rfl
  | semicolon => rfl
  | string => exact absurd hc (by unfold IsBreak; decide)
  | integer hd | decimal hd => exact absurd (hd.symm.trans hdigit) nofun
  | word hd => exact absurd (hd.symm.trans hletter) nofun
  | pair hpair => exact absurd (isMark_of_ofPair? hpair).1 hmark
  | char hchar => exact absurd (isMark_of_ofChar? hchar) hmark

/-- **A lexeme tells its kind.** -/
theorem IsLexeme.kind_unique {kind kind' : TokenKind} {cs : List Char} (h : IsLexeme kind cs)
    (h' : IsLexeme kind' cs) : kind = kind' := by
  obtain ⟨c, cs, rfl⟩ := List.exists_cons_of_ne_nil h.ne_nil
  by_cases hc : IsBreak c
  · rw [h.kind_of_separator hc, h'.kind_of_separator hc]
  · obtain ⟨hnewline, hsemicolon⟩ := not_or.1 hc
    have hstops : ∀ d ∈ ([] : List Char).head?, Stops d := nofun
    have hread := h.read_eq hnewline hsemicolon false hstops
    rw [h'.read_eq hnewline hsemicolon false hstops] at hread
    exact (SegmentKind.token.inj (congrArg Prod.fst hread)).symm

/-- The kinds that are written in one way are given to what is written so. -/
theorem IsLexeme.kind_eq_iff {kind k : TokenKind} {cs s : List Char} (h : IsLexeme kind cs)
    (hs : k.spelling? = some s) : kind = k ↔ cs = s := by
  constructor
  · rintro rfl
    exact h.eq_spelling hs
  · rintro rfl
    exact h.kind_unique (.spelled hs)

/-! ## The longest lexeme -/

theorem length_le_takeWhile {p : Char → Bool} {cs : List Char} (h : ∀ c ∈ cs, p c = true)
    (rest : List Char) : cs.length ≤ ((cs ++ rest).takeWhile p).length := by
  rw [List.takeWhile_append_of_pos h, List.length_append]
  exact Nat.le_add_right _ _

theorem length_le_readNumber {digits : List Char} (h : ∀ c ∈ digits, c.isDigit = true)
    (rest : List Char) : digits.length ≤ (readNumber (digits ++ rest)).2 := by
  have hle := length_le_takeWhile h rest
  unfold readNumber
  dsimp only
  split
  · split <;> dsimp only <;> omega
  · exact hle

/-- **What is read is as long as any lexeme that stands there.** -/
theorem IsLexeme.length_le_read {kind : TokenKind} {c : Char} {cs : List Char}
    (h : IsLexeme kind (c :: cs)) (eol : Bool) (rest : List Char) :
    cs.length ≤ (read eol c (cs ++ rest)).2 := by
  cases h.recognized with
  | eol | semicolon | char => exact Nat.zero_le _
  | @string inside hinside =>
    have htext : inside ++ ['"'] ++ rest = inside ++ '"' :: rest := by simp
    rw [read_quote, htext, readString_closed (hinside.badEscape?_eq _) (hinside.closing?_eq _),
      List.length_append, List.length_singleton]
  | integer hc hdigits =>
    rw [read_digit hc]
    exact length_le_readNumber hdigits rest
  | @decimal _ digits places hc hdigits hplaces hne =>
    -- more digits may follow
    obtain ⟨more, rest, rfl, -, hmore, hrest⟩ := takeWhile_split Char.isDigit rest
    have htext : digits ++ '.' :: places ++ (more ++ rest) =
        digits ++ '.' :: (places ++ more ++ rest) := by simp
    have hall : ∀ d ∈ places ++ more, d.isDigit = true := by
      simpa [or_imp, forall_and] using ⟨hplaces, hmore⟩
    rw [read_digit hc, htext, readNumber_decimal hdigits hall (by simp [hne]) hrest]
    simp only [List.length_append, List.length_cons]
    omega
  | word hc hd hword =>
    rw [read_letter hc hd]
    exact length_le_takeWhile hword rest
  | @pair _ d _ hpair =>
    obtain ⟨hmark, hslash⟩ := isMark_of_ofPair? hpair
    rw [read_mark hmark (fun h => absurd h hslash)]
    simp [readSymbol, hpair]

/-- No token is read where a comment starts. -/
theorem not_comment_of_token {eol : Bool} {c : Char} {cs : List Char} {kind : TokenKind}
    (h : (read eol c cs).1 = .token kind) :
    ¬['/', '/'] <+: c :: cs ∧ ¬['/', '*'] <+: c :: cs := by
  constructor
  · rintro ⟨rest, hrest⟩
    obtain ⟨rfl, rfl⟩ : '/' = c ∧ '/' :: rest = cs := List.cons_eq_cons.1 hrest
    rw [read_line] at h
    cases h
  · rintro ⟨rest, hrest⟩
    obtain ⟨rfl, rfl⟩ : '/' = c ∧ '*' :: rest = cs := List.cons_eq_cons.1 hrest
    rw [read_block] at h
    exact readBlockComment_not_token h

/-- In the text that goes on with `after`, the longest lexeme of all is `lexeme`, of this kind and no
other, and no comment starts there. -/
structure Munched (kind : TokenKind) (lexeme after : List Char) : Prop where
  valid : IsLexeme kind lexeme
  spelled : ∀ k s, k.spelling? = some s → (kind = k ↔ lexeme = s)
  longest : ∀ k cs, IsLexeme k cs → cs <+: lexeme ++ after → cs.length ≤ lexeme.length
  no_comment : ¬['/', '/'] <+: lexeme ++ after ∧ ¬['/', '*'] <+: lexeme ++ after

theorem munched_of_read {eol : Bool} {c : Char} {cs : List Char} {kind : TokenKind} {n : Nat}
    (h : read eol c cs = (.token kind, n)) : Munched kind (c :: cs.take n) (cs.drop n) := by
  have hkind : (read eol c cs).1 = .token kind := congrArg Prod.fst h
  have hlexeme := read_isLexeme hkind
  rw [h] at hlexeme
  have htext : c :: cs.take n ++ cs.drop n = c :: cs := by simp
  refine ⟨hlexeme, fun k s => hlexeme.kind_eq_iff, fun k ds hds hprefix => ?_, ?_⟩
  · obtain ⟨d, ds, rfl⟩ := List.exists_cons_of_ne_nil hds.ne_nil
    rw [htext] at hprefix
    obtain ⟨rfl, rest, rfl⟩ := List.cons_prefix_cons.1 hprefix
    have hle := hds.length_le_read eol rest
    rw [h] at hle
    simp only [List.length_cons, List.length_take, List.length_append]
    omega
  · rw [htext]
    exact not_comment_of_token hkind

end Segment

/-- **Maximal munch.** A token other than the end mark is what its lexeme says, its lexeme stands
at the token's place, and no longer lexeme and no comment starts there. Keywords are the tokens
with the lexemes `true` and `false`. -/
theorem maximal_munch (source : String) : ∀ t ∈ tokens source, t.kind ≠ .eof →
    (∃ before after, source.toList = before ++ (t.lexeme.toList ++ after) ∧
      t.start = Position.behind before ∧ Segment.Munched t.kind t.lexeme.toList after) ∧
    (t.kind = .boolean true ↔ t.lexeme = "true") ∧
    (t.kind = .boolean false ↔ t.lexeme = "false") := by
  intro t ht hne
  rw [tokens_eq] at ht
  have hmem : t ∈ textTokens source := by
    refine (List.mem_append.1 ht).resolve_right fun heof => hne ?_
    rw [List.mem_singleton.1 heof]
    rfl
  obtain ⟨before, c, cs, -, ⟨htext, hstart, eol, n, hread, hlexeme⟩, -⟩ :=
    Segment.exists_readAt (List.append_nil _).symm hmem
  have hmunched := Segment.munched_of_read hread
  rw [← hlexeme] at hmunched
  have hsource : source.toList = before ++ (t.lexeme.toList ++ cs.drop n) := by
    rw [htext, hlexeme, List.cons_append, List.take_append_drop]
  refine ⟨⟨before, cs.drop n, hsource, hstart, hmunched⟩, ?_, ?_⟩
  · rw [hmunched.spelled _ _ rfl, ← String.toList_inj]
    rfl
  · rw [hmunched.spelled _ _ rfl, ← String.toList_inj]
    rfl

/-- A number in front of a point, operators that share their characters, and words that begin like
a keyword. -/
theorem maximal_munch_shared :
    let source := "1.2.x=>==truex true"
    (⟨.decimal, "1.2", ⟨1, 1⟩, false⟩ : Token) ∈ tokens source ∧
      (⟨.fatArrow, "=>", ⟨1, 6⟩, false⟩ : Token) ∈ tokens source ∧
      (⟨.equalEqual, "==", ⟨1, 8⟩, false⟩ : Token) ∈ tokens source ∧
      (∃ before after, source.toList = before ++ ("=>".toList ++ after) ∧
        ⟨1, 6⟩ = Position.behind before ∧ Segment.Munched .fatArrow "=>".toList after) ∧
      (∃ before after, source.toList = before ++ ("==".toList ++ after) ∧
        ⟨1, 8⟩ = Position.behind before ∧ Segment.Munched .equalEqual "==".toList after) ∧
      (∃ before after, source.toList = before ++ ("1.2".toList ++ after) ∧
        ⟨1, 1⟩ = Position.behind before ∧ Segment.Munched .decimal "1.2".toList after) := by
  intro source
  have hdecimal : (⟨.decimal, "1.2", ⟨1, 1⟩, false⟩ : Token) ∈ tokens source := by decide +kernel
  have harrow : (⟨.fatArrow, "=>", ⟨1, 6⟩, false⟩ : Token) ∈ tokens source := by decide +kernel
  have hequal : (⟨.equalEqual, "==", ⟨1, 8⟩, false⟩ : Token) ∈ tokens source := by decide +kernel
  exact ⟨hdecimal, harrow, hequal, (maximal_munch source _ harrow (by decide)).1,
    (maximal_munch source _ hequal (by decide)).1, (maximal_munch source _ hdecimal (by decide)).1⟩

end LazyDecl
