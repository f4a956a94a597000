import LazyDecl.Proofs.Text.Shape

/-!
The lexemes of the language, each with the kind of token that it is: a grammar with a table of its
own for the marks and keywords (`TokenKind.spelling?`, `Segment.IsLexeme`). The tables of the scan
come to the same lexemes (`Segment.recognized_iff`). What is read as a token is a lexeme of its
kind (`Segment.read_isLexeme`), and a lexeme in front of what does not go on with it is read as
just that token (`Segment.IsLexeme.read_eq`).
-/

namespace LazyDecl

namespace Segment

theorem takeWhile_stop {p : Char → Bool} {cs rest : List Char} (hcs : ∀ c ∈ cs, p c = true)
    (hrest : ∀ c ∈ rest.head?, p c = false) : (cs ++ rest).takeWhile p = cs := by
  rw [List.takeWhile_append_of_pos hcs]
  cases rest with
  | nil => simp
  | cons d rest => simp [hrest d rfl]

theorem takeWhile_split (p : Char → Bool) (cs : List Char) :
    ∃ front rest, cs = front ++ rest ∧ cs.takeWhile p = front ∧ (∀ c ∈ front, p c = true) ∧
      ∀ c ∈ rest.head?, p c = false := by
  refine ⟨cs.takeWhile p, cs.dropWhile p, List.takeWhile_append_dropWhile.symm, rfl,
    fun c hc => List.mem_takeWhile_imp hc, fun c hc => ?_⟩
  have hhead := List.head?_dropWhile_not p cs
  rw [hc] at hhead
  exact hhead

/-! ## Numbers -/

theorem readNumber_integer {digits rest : List Char} (hdigits : ∀ c ∈ digits, c.isDigit = true)
    (hrest : ∀ c ∈ rest.head?, c.isDigit = false)
    (hpoint : ∀ ds, rest = '.' :: ds → ∀ d ∈ ds.head?, d.isDigit = false) :
    readNumber (digits ++ rest) = (.token .integer, digits.length) := by
  unfold readNumber
  simp only [takeWhile_stop hdigits hrest, List.drop_left]
  split
  · rename_i ds
    have hnil : ∀ c ∈ ([] : List Char), c.isDigit = true := nofun
    have hnone : ds.takeWhile Char.isDigit = [] := takeWhile_stop hnil (hpoint ds rfl)
    simp [hnone]
  · rfl

theorem readNumber_decimal {digits places rest : List Char}
    (hdigits : ∀ c ∈ digits, c.isDigit = true) (hplaces : ∀ c ∈ places, c.isDigit = true)
    (hne : places ≠ []) (hrest : ∀ c ∈ rest.head?, c.isDigit = false) :
    readNumber (digits ++ '.' :: (places ++ rest)) =
      (.token .decimal, digits.length + 1 + places.length) := by
  have hpoint : ∀ c ∈ ('.' :: (places ++ rest)).head?, c.isDigit = false := by
    intro c hc
    cases hc
    decide
  unfold readNumber
  simp only [takeWhile_stop hdigits hpoint, List.drop_left, takeWhile_stop hplaces hrest]
  rw [if_neg (by simpa using hne)]

/-- How a text behind the first digit of a number can go on. -/
inductive NumberRest : List Char → Prop where
  | integer {digits rest : List Char} : (∀ c ∈ digits, c.isDigit = true) →
      (∀ c ∈ rest.head?, c.isDigit = false) →
      (∀ ds, rest = '.' :: ds → ∀ d ∈ ds.head?, d.isDigit = false) → NumberRest (digits ++ rest)
  | decimal {digits places rest : List Char} : (∀ c ∈ digits, c.isDigit = true) →
      (∀ c ∈ places, c.isDigit = true) → places ≠ [] → (∀ c ∈ rest.head?, c.isDigit = false) →
      NumberRest (digits ++ '.' :: (places ++ rest))

theorem numberRest (cs : List Char) : NumberRest cs := by
  obtain ⟨digits, rest, rfl, -, hdigits, hrest⟩ := takeWhile_split Char.isDigit cs
  by_cases hpoint : ∃ ds d, rest = '.' :: ds ∧ d ∈ ds.head? ∧ d.isDigit = true
  · obtain ⟨ds, d, rfl, hd, hdigit⟩ := hpoint
    obtain ⟨places, rest, rfl, -, hplaces, hrest'⟩ := takeWhile_split Char.isDigit ds
    have hne : places ≠ [] := by
      rintro rfl
      exact absurd (hdigit.symm.trans (hrest' d hd)) nofun
    exact .decimal hdigits hplaces hne hrest'
  · exact .integer hdigits hrest fun ds hds d hd =>
      Bool.eq_false_iff.2 fun hdigit => hpoint ⟨ds, d, hds, hd, hdigit⟩

theorem take_decimal (digits places rest : List Char) :
    (digits ++ '.' :: (places ++ rest)).take (digits.length + 1 + places.length) =
      digits ++ '.' :: places := by
  rw [Nat.add_assoc, List.take_length_add_append, Nat.add_comm 1, List.take_succ_cons,
    List.take_left]

end Segment

/-! ## Lexemes -/

/-- The text of the tokens that are written in one way only. -/
def TokenKind.spelling? : TokenKind → Option (List Char)
  | boolean true => some ['t', 'r', 'u', 'e']
  | boolean false => some ['f', 'a', 'l', 's', 'e']
  | leftParen => some ['(']
  | rightParen => some [')']
  | leftBrace => some ['{']
  | rightBrace => some ['}']
  | leftBracket => some ['[']
  | rightBracket => some [']']
  | comma => some [',']
  | dot => some ['.']
  | colon => some [':']
  | question => some ['?']
  | tilde => some ['~']
  | arrow => some ['-', '>']
  | fatArrow => some ['=', '>']
  | assign => some ['=']
  | plus => some ['+']
  | minus => some ['-']
  | star => some ['*']
  | slash => some ['/']
  | ampersand => some ['&']
  | pipe => some ['|']
  | doubleAmpersand => some ['&', '&']
  | doublePipe => some ['|', '|']
  | bang => some ['!']
  | bangEqual => some ['!', '=']
  | equalEqual => some ['=', '=']
  | less => some ['<']
  | lessEqual => some ['<', '=']
  | greater => some ['>']
  | greaterEqual => some ['>', '=']
  | semicolon => some [';']
  | eol => some ['\n']
  | identifier | integer | decimal | string | unknown | eof => none

namespace Segment

def IsDigit (c : Char) : Prop := '0' ≤ c ∧ c ≤ '9'

/-- Letters, and the underscore with them. -/
def IsLetter (c : Char) : Prop := 'a' ≤ c ∧ c ≤ 'z' ∨ 'A' ≤ c ∧ c ≤ 'Z' ∨ c = '_'

/-- The lexemes of each kind of token. No identifier is a keyword. -/
inductive IsLexeme : TokenKind → List Char → Prop where
  | spelled {kind : TokenKind} {cs : List Char} : kind.spelling? = some cs → IsLexeme kind cs
  | identifier {c : Char} {cs : List Char} : IsLetter c → (∀ d ∈ cs, IsLetter d ∨ IsDigit d) →
      (∀ b, (TokenKind.boolean b).spelling? ≠ some (c :: cs)) → IsLexeme .identifier (c :: cs)
  | integer {c : Char} {digits : List Char} : IsDigit c → (∀ d ∈ digits, IsDigit d) →
      IsLexeme .integer (c :: digits)
  | decimal {c : Char} {digits places : List Char} : IsDigit c → (∀ d ∈ digits, IsDigit d) →
      (∀ d ∈ places, IsDigit d) → places ≠ [] → IsLexeme .decimal (c :: (digits ++ '.' :: places))
  | string {inside : List Char} :
      Quoted.Inside true inside → IsLexeme .string ('"' :: (inside ++ ['"']))

theorem IsLexeme.ne_nil {kind : TokenKind} {cs : List Char} (h : IsLexeme kind cs) : cs ≠ [] := by
  cases h with
  | spelled hs =>
    rintro rfl
    unfold TokenKind.spelling? at hs
    split at hs <;> cases hs
  | _ => exact List.cons_ne_nil _ _

/-- Lexemes of the kinds that are written in one way. -/
theorem IsLexeme.eq_spelling {kind : TokenKind} {cs s : List Char} (h : IsLexeme kind cs)
    (hs : kind.spelling? = some s) : cs = s := by
  cases h with
  | spelled hcs => exact Option.some.inj (hcs.symm.trans hs)
  | _ => cases hs

theorem IsLexeme.inside_of_string {cs : List Char} (h : IsLexeme .string cs) :
    ∃ inside, Quoted.Inside true inside ∧ cs = '"' :: (inside ++ ['"']) := by
  cases h with
  | spelled hs => cases hs
  | string hinside => exact ⟨_, hinside, rfl⟩

/-! ## What the scan makes of lexemes -/

theorem isDigit_iff {c : Char} : c.isDigit = true ↔ IsDigit c :=
  Bool.and_eq_true_iff.trans (and_congr decide_eq_true_iff decide_eq_true_iff)

theorem isUpper_iff {c : Char} : c.isUpper = true ↔ 'A' ≤ c ∧ c ≤ 'Z' := decide_eq_true_iff

theorem isLower_iff {c : Char} : c.isLower = true ↔ 'a' ≤ c ∧ c ≤ 'z' :=
  Bool.and_eq_true_iff.trans (and_congr decide_eq_true_iff decide_eq_true_iff)

theorem startsWord_iff {c : Char} : startsWord c = true ↔ IsLetter c := by
  have hclass : startsWord c = (c.isUpper || c.isLower || decide (c = '_')) := rfl
  simp only [hclass, Bool.or_eq_true, decide_eq_true_eq, isUpper_iff, isLower_iff, or_assoc]
  exact or_left_comm

theorem continuesWord_iff {c : Char} : continuesWord c = true ↔ IsLetter c ∨ IsDigit c := by
  rw [← startsWord_iff, ← isDigit_iff]
  simp only [continuesWord, startsWord, Char.isAlphanum, Bool.or_eq_true]
  exact or_right_comm

/-- The lexemes once more, by the tables of the scan: words, pairs of marks and single marks. -/
inductive Recognized : TokenKind → List Char → Prop where
  | eol : Recognized .eol ['\n']
  | semicolon : Recognized .semicolon [';']
  | string {inside : List Char} :
      Quoted.Inside true inside → Recognized .string ('"' :: (inside ++ ['"']))
  | integer {c : Char} {digits : List Char} : c.isDigit = true →
      (∀ d ∈ digits, d.isDigit = true) → Recognized .integer (c :: digits)
  | decimal {c : Char} {digits places : List Char} : c.isDigit = true →
      (∀ d ∈ digits, d.isDigit = true) → (∀ d ∈ places, d.isDigit = true) → places ≠ [] →
      Recognized .decimal (c :: (digits ++ '.' :: places))
  | word {c : Char} {cs : List Char} : startsWord c = true → c.isDigit = false →
      (∀ d ∈ cs, continuesWord d = true) → Recognized (wordKind (c :: cs)) (c :: cs)
  | pair {c d : Char} {kind : TokenKind} :
      TokenKind.ofPair? c d = some kind → Recognized kind [c, d]
  | char {c : Char} {kind : TokenKind} : TokenKind.ofChar? c = some kind → Recognized kind [c]

theorem recognized_keyword (b : Bool) {cs : List Char}
    (h : (TokenKind.boolean b).spelling? = some cs) : Recognized (.boolean b) cs := by
  have htrue : Recognized (wordKind ['t', 'r', 'u', 'e']) ['t', 'r', 'u', 'e'] :=
    .word (by decide) (by decide) (List.all_eq_true.1 (by decide))
  have hfalse : Recognized (wordKind ['f', 'a', 'l', 's', 'e']) ['f', 'a', 'l', 's', 'e'] :=
    .word (by decide) (by decide) (List.all_eq_true.1 (by decide))
  cases b <;> cases h
  · exact hfalse
  · exact htrue

theorem recognized_spelling {kind : TokenKind} {cs : List Char}
    (h : kind.spelling? = some cs) : Recognized kind cs := by
  unfold TokenKind.spelling? at h
  -- the keywords are words to the scan, everything else in the table is a mark
  split at h <;>
    first
    | exact recognized_keyword _ h
    | cases h <;>
        first
        | exact .char rfl
        | exact .pair rfl
        | exact .eol
        | exact .semicolon

theorem IsLetter.not_digit {c : Char} (h : IsLetter c) : c.isDigit = false := by
  refine Bool.eq_false_iff.2 fun hdigit => ?_
  have hupper := (isDigit_iff.1 hdigit).2
  rcases h with ⟨h, -⟩ | ⟨h, -⟩ | rfl
  · exact absurd (Char.le_trans h hupper) (by decide)
  · exact absurd (Char.le_trans h hupper) (by decide)
  · exact absurd hupper (by decide)

theorem IsLexeme.recognized {kind : TokenKind} {cs : List Char} (h : IsLexeme kind cs) :
    Recognized kind cs := by
  cases h with
  | spelled hs => exact recognized_spelling hs
  | @identifier c cs hc hcs hkeyword =>
    have hkind : wordKind (c :: cs) = .identifier := by
      rw [wordKind, if_neg fun h => hkeyword true (congrArg some h.symm),
        if_neg fun h => hkeyword false (congrArg some h.symm)]
    rw [← hkind]
    exact .word (startsWord_iff.2 hc) hc.not_digit fun d hd => continuesWord_iff.2 (hcs d hd)
  | integer hc hdigits =>
    exact .integer (isDigit_iff.2 hc) fun d hd => isDigit_iff.2 (hdigits d hd)
  | decimal hc hdigits hplaces hne =>
    exact .decimal (isDigit_iff.2 hc) (fun d hd => isDigit_iff.2 (hdigits d hd))
      (fun d hd => isDigit_iff.2 (hplaces d hd)) hne
  | string hinside => exact .string hinside

theorem isLexeme_wordKind {c : Char} {cs : List Char} (hc : startsWord c = true)
    (hcs : ∀ d ∈ cs, continuesWord d = true) : IsLexeme (wordKind (c :: cs)) (c :: cs) := by
  unfold wordKind
  split
  · rename_i htrue
    exact .spelled (congrArg some htrue.symm)
  · rename_i htrue
    split
    · rename_i hfalse
      exact .spelled (congrArg some hfalse.symm)
    · rename_i hfalse
      refine .identifier (startsWord_iff.1 hc) (fun d hd => continuesWord_iff.1 (hcs d hd)) ?_
      rintro (_ | _) hkeyword
      · exact hfalse (Option.some.inj hkeyword).symm
      · exact htrue (Option.some.inj hkeyword).symm

theorem spelling?_ofPair? {c d : Char} {kind : TokenKind} (h : TokenKind.ofPair? c d = some kind) :
    kind.spelling? = some [c, d] := by
  unfold TokenKind.ofPair? at h
  split at h <;> cases h <;> rfl

theorem spelling?_ofChar? {c : Char} {kind : TokenKind} (h : TokenKind.ofChar? c = some kind) :
    kind.spelling? = some [c] := by
  unfold TokenKind.ofChar? at h
  split at h <;> cases h <;> rfl

/-- **The scan recognizes the lexemes of the language, and nothing else.** -/
theorem recognized_iff {kind : TokenKind} {cs : List Char} :
    Recognized kind cs ↔ IsLexeme kind cs := by
  refine ⟨fun h => ?_, IsLexeme.recognized⟩
  cases h with
  | eol | semicolon => exact .spelled rfl
  | string hinside => exact .string hinside
  | integer hc hdigits =>
    exact .integer (isDigit_iff.1 hc) fun d hd => isDigit_iff.1 (hdigits d hd)
  | decimal hc hdigits hplaces hne =>
    exact .decimal (isDigit_iff.1 hc) (fun d hd => isDigit_iff.1 (hdigits d hd))
      (fun d hd => isDigit_iff.1 (hplaces d hd)) hne
  | word hc _ hcs => exact isLexeme_wordKind hc hcs
  | pair hpair => exact .spelled (spelling?_ofPair? hpair)
  | char hchar => exact .spelled (spelling?_ofChar? hchar)

theorem readNumber_recognized {c : Char} {cs : List Char} {kind : TokenKind} (hc : c.isDigit = true)
    (h : (readNumber cs).1 = .token kind) : Recognized kind (c :: cs.take (readNumber cs).2) := by
  cases numberRest cs with
  | integer hdigits hrest hpoint =>
    rw [readNumber_integer hdigits hrest hpoint] at h ⊢
    cases h
    rw [List.take_left]
    exact .integer hc hdigits
  | decimal hdigits hplaces hne hrest =>
    rw [readNumber_decimal hdigits hplaces hne hrest] at h ⊢
    cases h
    rw [take_decimal]
    exact .decimal hc hdigits hplaces hne

theorem readString_recognized {cs : List Char} {kind : TokenKind}
    (h : (readString cs).1 = .token kind) : Recognized kind ('"' :: cs.take (readString cs).2) := by
  obtain ⟨rfl, hbad, n, hclose⟩ := readString_token h
  have hclosed : Quoted.Closed true (cs.take n) := Quoted.closed_of_closing? (fun _ => hbad) hclose
  obtain ⟨inside, hinside, htext⟩ := hclosed
  rw [readString_closed hbad hclose, htext]
  exact .string hinside

theorem readSymbol_recognized {c : Char} {cs : List Char} {kind : TokenKind}
    (h : (readSymbol c cs).1 = .token kind) : Recognized kind (c :: cs.take (readSymbol c cs).2) := by
  unfold readSymbol at h ⊢
  split
  · rename_i hpair
    rw [hpair] at h
    cases h
    obtain ⟨d, hd, hkind⟩ := Option.bind_eq_some_iff.1 hpair
    obtain ⟨ds, rfl⟩ := List.head?_eq_some_iff.1 hd
    exact .pair hkind
  · rename_i hpair hchar
    rw [hpair, hchar] at h
    cases h
    exact .char hchar
  · rename_i hpair hchar
    rw [hpair, hchar] at h
    cases h

theorem read_recognized {eol : Bool} {c : Char} {cs : List Char} {kind : TokenKind}
    (h : (read eol c cs).1 = .token kind) : Recognized kind (c :: cs.take (read eol c cs).2) := by
  cases opening c cs with
  | blank hc =>
    rw [read_blank hc] at h
    cases h
  | newline =>
    rw [read_eol] at h ⊢
    cases eol <;> cases h
    exact .eol
  | semicolon =>
    rw [read_semicolon] at h ⊢
    dsimp only at h ⊢
    split at h <;> cases h
    exact .semicolon
  | quote =>
    rw [read_quote] at h ⊢
    exact readString_recognized h
  | digit hc =>
    rw [read_digit hc] at h ⊢
    exact readNumber_recognized hc h
  | letter hc hd =>
    obtain ⟨word, rest, rfl, htake, hword, -⟩ := takeWhile_split continuesWord cs
    rw [read_letter hc hd] at h ⊢
    unfold readWord at h ⊢
    rw [htake] at h ⊢
    cases h
    dsimp only
    rw [List.take_left]
    exact .word hc hd hword
  | line =>
    rw [read_line] at h
    cases h
  | block =>
    rw [read_block] at h
    exact absurd h readBlockComment_not_token
  | mark hc hcomment =>
    rw [read_mark hc hcomment] at h ⊢
    exact readSymbol_recognized h

/-- **What is read as a token is a lexeme of its kind.** -/
theorem read_isLexeme {eol : Bool} {c : Char} {cs : List Char} {kind : TokenKind}
    (h : (read eol c cs).1 = .token kind) : IsLexeme kind (c :: cs.take (read eol c cs).2) :=
  recognized_iff.1 (read_recognized h)

/-- Behind a line end every semicolon is redundant. -/
theorem read_true_ne_semicolon (c : Char) (cs : List Char) :
    (read true c cs).1 ≠ .token .semicolon := by
  intro h
  obtain ⟨rfl, -⟩ := List.cons_eq_cons.1 ((read_isLexeme h).eq_spelling rfl)
  rw [read_semicolon] at h
  cases h

/-! ## Lexemes in front of what does not go on with them -/

/-- A character that goes on with no lexeme. -/
structure Stops (d : Char) : Prop where
  ends_word : continuesWord d = false
  ne_point : d ≠ '.'
  no_pair : d ≠ '>' ∧ d ≠ '=' ∧ d ≠ '&' ∧ d ≠ '|'
  no_comment : d ≠ '/' ∧ d ≠ '*'

theorem Stops.not_digit {d : Char} (h : Stops d) : d.isDigit = false := by
  have hword := h.ends_word
  simp only [continuesWord, Char.isAlphanum, Bool.or_eq_false_iff] at hword
  exact hword.1.2

theorem stops_blank : Stops ' ' := ⟨by decide, by decide, by decide, by decide⟩

theorem isMark_of_ofChar? {c : Char} {kind : TokenKind} (h : TokenKind.ofChar? c = some kind) :
    IsMark c := by
  unfold TokenKind.ofChar? at h
  split at h <;>
    first
    | exact ⟨by decide, by decide, by decide, by decide, by decide, by decide⟩
    | cases h

/-- The first character of a pair is an operator of its own, and it starts no comment. -/
theorem isMark_of_ofPair? {c d : Char} {kind : TokenKind}
    (h : TokenKind.ofPair? c d = some kind) : IsMark c ∧ c ≠ '/' := by
  unfold TokenKind.ofPair? at h
  split at h <;>
    first
    | exact ⟨isMark_of_ofChar? rfl, by decide⟩
    | cases h

/-- **A lexeme in front of what does not go on with it is read as its token.** Line ends and
semicolons are left out: how they are read depends on the tokens in front of them. -/
theorem IsLexeme.read_eq {kind : TokenKind} {c : Char} {cs : List Char}
    (h : IsLexeme kind (c :: cs)) (hnewline : c ≠ '\n') (hsemicolon : c ≠ ';') (eol : Bool)
    {rest : List Char} (hrest : ∀ d ∈ rest.head?, Stops d) :
    read eol c (cs ++ rest) = (.token kind, cs.length) := by
  have hdigit : ∀ d ∈ rest.head?, d.isDigit = false := fun d hd => (hrest d hd).not_digit
  cases h.recognized with
  | eol => exact absurd rfl hnewline
  | semicolon => exact absurd rfl hsemicolon
  | @string inside hinside =>
    have htext : inside ++ ['"'] ++ rest = inside ++ '"' :: rest := by simp
    rw [read_quote, htext, readString_closed (hinside.badEscape?_eq _) (hinside.closing?_eq _),
      List.length_append, List.length_singleton]
  | integer hc hdigits =>
    rw [read_digit hc]
    refine readNumber_integer hdigits hdigit ?_
    rintro ds rfl
    exact absurd rfl (hrest '.' rfl).ne_point
  | @decimal _ digits places hc hdigits hplaces hne =>
    have htext : digits ++ '.' :: places ++ rest = digits ++ '.' :: (places ++ rest) := by
      simp
    rw [read_digit hc, htext, readNumber_decimal hdigits hplaces hne hdigit]
    simp [Nat.add_assoc, Nat.add_comm 1]
  | word hc hd hword =>
    have hend : ∀ d ∈ rest.head?, continuesWord d = false := fun d hd => (hrest d hd).ends_word
    rw [read_letter hc hd, readWord, takeWhile_stop hword hend]
  | @pair _ d _ hpair =>
    obtain ⟨hmark, hslash⟩ := isMark_of_ofPair? hpair
    rw [read_mark hmark (fun h => absurd h hslash)]
    simp [readSymbol, hpair]
  | char hchar =>
    have hcomment : rest.head? ≠ some '/' ∧ rest.head? ≠ some '*' :=
      ⟨fun h => (hrest _ h).no_comment.1 rfl, fun h => (hrest _ h).no_comment.2 rfl⟩
    have hpair : rest.head?.bind (TokenKind.ofPair? c) = none :=
      Option.bind_eq_none_iff.2 fun d hd => TokenKind.ofPair?_none (hrest d hd).no_pair c
    rw [List.nil_append, read_mark (isMark_of_ofChar? hchar) (fun _ => hcomment)]
    simp [readSymbol, hpair, hchar]

/-- **A token in front of a blank is read again.** Between line ends and semicolons, too: what
follows a token that was read does not make it redundant. -/
theorem read_again {eol : Bool} {c : Char} {cs : List Char} {kind : TokenKind}
    (h : (read eol c cs).1 = .token kind) (ds : List Char) :
    read eol c (cs.take (read eol c cs).2 ++ ' ' :: ds) =
      (.token kind, (cs.take (read eol c cs).2).length) := by
  by_cases hnewline : c = '\n'
  · subst hnewline
    rw [read_eol] at h ⊢
    rw [read_eol, ← h]
    rfl
  by_cases hsemicolon : c = ';'
  · subst hsemicolon
    rw [read_semicolon] at h ⊢
    cases eol with
    | true => cases h
    | false =>
      cases hends : endsUnit cs with
      | true =>
        rw [hends] at h
        cases h
      | false =>
        rw [hends] at h
        rw [read_semicolon, ← h]
        rfl
  refine (read_isLexeme h).read_eq hnewline hsemicolon eol fun d hd => ?_
  cases hd
  exact stops_blank

end Segment

end LazyDecl
