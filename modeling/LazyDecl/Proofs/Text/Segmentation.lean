import Mathlib.Data.List.Induction
import LazyDecl.Proofs.Text.Shape

/-!
The segments of a source text. They lie side by side without a gap, each of them has exactly one
role in the text, and tokens, diagnostics and positions are read off them
(`segmentation_ofSource`).

* `Segment.read_fits`: whatever is read next has a role;
* `Segment.Role.Fits.eq_shownRole`: no piece has two;
* `Segment.cut_split`: where a segment stands in the text it was cut from;
* `Position.advance_start`: a position counts newlines and the characters behind the last one.
-/

namespace LazyDecl

/-! ## Positions -/

/-- The position just behind a text: one line more than it has newlines, one column more than
there are characters behind the last of them. -/
def Position.behind (cs : List Char) : Position :=
  ⟨1 + cs.count '\n', 1 + (cs.reverse.takeWhile (· ≠ '\n')).length⟩

theorem Position.advance_start (cs : List Char) : start.advance cs = behind cs := by
  induction cs using List.reverseRecOn with
  | nil => rfl
  | append_singleton cs c ih =>
    rw [advance_append, ih]
    show (behind cs).next c = behind (cs ++ [c])
    by_cases hc : c = '\n'
    · subst hc
      simp [next, behind, Nat.add_assoc]
    · simp [next, behind, hc, Nat.add_comm]

namespace Segment

/-! ## Roles -/

/-- The roles that the pieces of a text can have. -/
inductive Role where
  | token
  | blank
  /-- A newline where a line has just ended. -/
  | repeatedEol
  /-- A semicolon that separates nothing. -/
  | redundantSemicolon
  | comment
  | malformed

/-- The comments in front of the text `rest`. -/
inductive IsComment (rest : List Char) : List Char → Prop where
  | line {cs : List Char} :
      '\n' ∉ cs → (∀ c ∈ rest.head?, c = '\n') → IsComment rest ('/' :: '/' :: cs)
  | block {cs : List Char} : Comment.Rest cs → IsComment rest ('/' :: '*' :: cs)

theorem IsComment.head?_eq {rest cs : List Char} (h : IsComment rest cs) :
    cs.head? = some '/' := by
  cases h <;> rfl

/-- The malformed constructs in front of the text `rest`: what is wrong with them, the part of
them that is shown, and the construct itself. A literal with a meaningless pair still goes on to
the quote that closes it. -/
inductive IsMalformed (rest : List Char) : ScanError → List Char → List Char → Prop where
  | character {c : Char} :
      IsMark c → TokenKind.ofChar? c = none → IsMalformed rest (.unexpectedCharacter c) [c] [c]
  | escape {d : Char} {inside cs : List Char} :
      Quoted.Inside true inside → d ∉ ['n', '\\', '"', '\n'] →
      Quoted.Closed false cs ∨ rest = [] ∧ Quoted.Unclosed false cs →
      IsMalformed rest (.unexpectedEscape d) ('"' :: (inside ++ ['\\']))
        ('"' :: (inside ++ '\\' :: d :: cs))
  | string {cs : List Char} : rest = [] → Quoted.Unclosed true cs →
      IsMalformed rest .unterminatedString ('"' :: cs) ('"' :: cs)
  | comment {cs : List Char} : rest = [] → (∀ inner, Comment.Rest inner → ¬inner <+: cs) →
      IsMalformed rest .unterminatedComment ['/', '*'] ('/' :: '*' :: cs)

/-- What makes a segment have a role behind the tokens `before` and in front of the text `rest`:
its text, the token that it is, and what it reports. -/
def Role.Fits (before : List Token) (s : Segment) (rest : List Char) : Role → Prop
  | token => s.diagnostic? = none ∧ ∃ t, s.token? = some t ∧
      t.kind ≠ .eof ∧ t.lexeme.toList = s.text ∧ t.start = s.start
  | blank => s.token? = none ∧ s.diagnostic? = none ∧
      (s.text = [' '] ∨ s.text = ['\t'] ∨ s.text = ['\r'])
  | repeatedEol => s.token? = none ∧ s.diagnostic? = none ∧
      s.text = ['\n'] ∧ before.getLast?.any (·.kind = .eol) = true
  | redundantSemicolon => s.token? = none ∧ s.text = [';'] ∧
      s.diagnostic? = some
        { phase := .scanning, severity := .warning, message := "redundant ';'"
          token := ⟨.unknown, ";", s.start, false⟩ }
  | comment => s.token? = none ∧ s.diagnostic? = none ∧ IsComment rest s.text
  | malformed => s.token? = none ∧ ∃ error shown, IsMalformed rest error shown s.text ∧
      s.diagnostic? = some
        { phase := .scanning, severity := .error, message := error.message
          token := ⟨.unknown, String.ofList shown, s.start, false⟩ }

/-- The role that a segment shows: tokens by being one, mistakes by what they report, and the
rest by their first character. -/
def shownRole (s : Segment) : Role :=
  match s.token?, s.diagnostic? with
  | some _, _ => .token
  | none, some d => if d.severity = .warning then .redundantSemicolon else .malformed
  | none, none =>
    if s.text.head? = some '/' then .comment
    else if s.text.head? = some '\n' then .repeatedEol
    else .blank

/-- **A piece has no role but the one it shows.** -/
theorem Role.Fits.eq_shownRole {before : List Token} {s : Segment} {rest : List Char} {r : Role}
    (h : r.Fits before s rest) : r = s.shownRole := by
  cases r with
  | token =>
    obtain ⟨-, t, ht, -⟩ := h
    simp [shownRole, ht]
  | blank =>
    obtain ⟨ht, hd, htext⟩ := h
    rcases htext with htext | htext | htext <;> simp [shownRole, ht, hd, htext]
  | repeatedEol =>
    obtain ⟨ht, hd, htext, -⟩ := h
    simp [shownRole, ht, hd, htext]
  | redundantSemicolon =>
    obtain ⟨ht, -, hd⟩ := h
    simp [shownRole, ht, hd]
  | comment =>
    obtain ⟨ht, hd, hcomment⟩ := h
    simp [shownRole, ht, hd, hcomment.head?_eq]
  | malformed =>
    obtain ⟨ht, error, shown, -, hd⟩ := h
    simp [shownRole, ht, hd]

section Reading

variable {before : List Token} {p : Position}

/-- The segment of the text `c :: cs` that an answer of `read` stands for. -/
def taken (p : Position) (c : Char) (cs : List Char) (answer : SegmentKind × Nat) : Segment :=
  ⟨answer.1, p, c :: cs.take answer.2⟩

theorem token_fits {s : Segment} {kind : TokenKind} (hk : s.kind = .token kind)
    (hne : kind ≠ .eof) (rest : List Char) : Role.token.Fits before s rest := by
  refine ⟨by simp [diagnostic?, hk], ⟨kind, String.ofList s.text, s.start, kind = .eol⟩, ?_, hne,
    String.toList_ofList, rfl⟩
  simp [token?, hk]

theorem readString_fits {cs : List Char} (h : ∀ kind, (readString cs).1 ≠ .token kind) :
    Role.malformed.Fits before (taken p '"' cs (readString cs)) (cs.drop (readString cs).2) := by
  cases hbad : Quoted.badEscape? cs with
  | some pair =>
    obtain ⟨n, d⟩ := pair
    rw [readString_bad hbad]
    refine ⟨rfl, .unexpectedEscape d, '"' :: cs.take n, ?_, rfl⟩
    obtain ⟨inside, rest, hinside, hd, rfl, rfl, hclose⟩ := Quoted.badEscape?_eq_some hbad
    have hshown : (inside ++ '\\' :: d :: rest).take (inside.length + 1) = inside ++ ['\\'] :=
      List.take_length_add_append 1
    rw [hshown]
    -- the literal ends where its part behind the pair does
    cases hrest : Quoted.closing? rest with
    | some k =>
      have hk : Quoted.closing? (inside ++ '\\' :: d :: rest) = some (inside.length + (k + 2)) := by
        rw [hclose, hrest]
        simp only [Option.map_some, Option.some.injEq]
        omega
      simp only [taken, hk, Option.getD_some, List.take_length_add_append,
        List.drop_length_add_append]
      exact .escape hinside hd (.inl (Quoted.closed_of_closing? nofun hrest))
    | none =>
      have hk : Quoted.closing? (inside ++ '\\' :: d :: rest) = none := by rw [hclose, hrest]; rfl
      simp only [taken, hk, Option.getD_none, List.take_length, List.drop_length]
      exact .escape hinside hd (.inr ⟨rfl, Quoted.unclosed_of_closing? nofun hrest⟩)
  | none =>
    cases hclose : Quoted.closing? cs with
    | some n => exact absurd (congrArg Prod.fst (readString_closed hbad hclose)) (h .string)
    | none =>
      rw [readString_open hbad hclose]
      refine ⟨rfl, .unterminatedString, '"' :: cs, ?_, rfl⟩
      simp only [taken, List.take_length, List.drop_length]
      exact .string rfl (Quoted.unclosed_of_closing? (fun _ => hbad) hclose)

theorem readBlockComment_fits (cs : List Char) :
    ∃ r : Role, r.Fits before (taken p '/' ('*' :: cs) (readBlockComment ('*' :: cs)))
      (('*' :: cs).drop (readBlockComment ('*' :: cs)).2) := by
  unfold readBlockComment
  rw [List.drop_succ_cons, List.drop_zero]
  cases hclose : Comment.closing? 0 cs with
  | some n => exact ⟨.comment, rfl, rfl, .block (Comment.closing?_eq_some_iff.1 hclose).2⟩
  | none =>
    refine ⟨.malformed, rfl, .unterminatedComment, ['/', '*'], ?_, rfl⟩
    simp only [taken, List.take_length, List.drop_length]
    exact .comment rfl fun inner hinner => Comment.closing?_eq_none hclose hinner

theorem readSymbol_fits {c : Char} {cs : List Char} (hc : IsMark c)
    (h : ∀ kind, (readSymbol c cs).1 ≠ .token kind) :
    Role.malformed.Fits before (taken p c cs (readSymbol c cs)) (cs.drop (readSymbol c cs).2) := by
  unfold readSymbol at h ⊢
  split
  · rename_i kind hpair
    rw [hpair] at h
    exact absurd rfl (h kind)
  · rename_i kind hpair hchar
    rw [hpair, hchar] at h
    exact absurd rfl (h kind)
  · rename_i hpair hchar
    exact ⟨rfl, .unexpectedCharacter c, [c], .character hc hchar, rfl⟩

/-- **Whatever is read next has a role.** -/
theorem read_fits {eol : Bool} (heol : eol = before.getLast?.any (·.kind = .eol)) (c : Char)
    (cs : List Char) :
    ∃ r : Role, r.Fits before (taken p c cs (read eol c cs)) (cs.drop (read eol c cs).2) := by
  by_cases htoken : ∃ kind, (read eol c cs).1 = .token kind
  · obtain ⟨kind, hk⟩ := htoken
    exact ⟨.token, token_fits hk (fun he => read_ne_eof eol c cs (he ▸ hk)) _⟩
  have hnot : ∀ kind, (read eol c cs).1 ≠ .token kind := fun kind hk => htoken ⟨kind, hk⟩
  cases opening c cs with
  | blank h =>
    rw [read_blank h]
    refine ⟨.blank, rfl, rfl, ?_⟩
    simpa [taken, isBlank, or_assoc] using h
  | newline =>
    cases eol with
    | false => exact absurd (by rw [read_eol]; rfl) (hnot .eol)
    | true =>
      rw [read_eol]
      exact ⟨.repeatedEol, rfl, rfl, rfl, heol.symm⟩
  | semicolon =>
    cases hends : eol || endsUnit cs with
    | false => exact absurd (by rw [read_semicolon, hends]; rfl) (hnot .semicolon)
    | true =>
      rw [read_semicolon, hends]
      exact ⟨.redundantSemicolon, rfl, rfl, rfl⟩
  | quote =>
    rw [read_quote] at hnot ⊢
    exact ⟨.malformed, readString_fits hnot⟩
  | digit h =>
    rw [read_digit h] at htoken
    exact absurd (readNumber_token cs) htoken
  | letter h hd =>
    rw [read_letter h hd] at htoken
    exact absurd ⟨_, rfl⟩ htoken
  | @line cs =>
    have hlength : Comment.lineLength ('/' :: cs) = Comment.lineLength cs + 1 := by
      simp [Comment.lineLength]
    obtain ⟨hline, hrest⟩ := Comment.lineLength_spec cs
    rw [read_line, hlength]
    exact ⟨.comment, rfl, rfl, .line hline hrest⟩
  | @block cs =>
    rw [read_block]
    exact readBlockComment_fits cs
  | mark h hcomment =>
    rw [read_mark h hcomment] at hnot ⊢
    exact ⟨.malformed, readSymbol_fits h hnot⟩

end Reading

/-! ## Where the segments stand -/

/-- The segments make up the text. -/
theorem cut_text (eol : Bool) (p : Position) (cs : List Char) :
    (cut eol p cs).flatMap (·.text) = cs := by
  induction eol, p, cs using cut_induction with
  | nil => simp [cut]
  | cons eol p c cs ih =>
    rw [cut_cons, List.flatMap_cons, ih, List.cons_append, List.take_append_drop]

theorem endsLine_concat (eol : Bool) (segments : List Segment) (s : Segment) :
    endsLine eol (segments ++ [s]) = afterEol (endsLine eol segments) s.kind := by
  simp [endsLine]

/-- Whether the last token of some segments ends a line is seen from the last token. -/
theorem endsLine_eq_getLast? (segments : List Segment) :
    endsLine false segments = (segments.filterMap token?).getLast?.any (·.kind = .eol) := by
  induction segments using List.reverseRecOn with
  | nil => rfl
  | append_singleton segments s ih =>
    rw [endsLine_concat, List.filterMap_append]
    cases hk : s.kind <;> simp [afterEol, token?, hk, ih]

/-- **What a segment is cut from.** It is what is read behind the segments in front of it, it
stands behind their text, and the segments behind it make up the rest of the text. -/
theorem cut_split {eol : Bool} {p : Position} {cs : List Char} {front back : List Segment}
    {s : Segment} (h : cut eol p cs = front ++ s :: back) :
    ∃ c ds, s = taken (p.advance (front.flatMap (·.text))) c ds (read (endsLine eol front) c ds) ∧
      back.flatMap (·.text) = ds.drop (read (endsLine eol front) c ds).2 := by
  induction front generalizing eol p cs with
  | nil =>
    cases cs with
    | nil => simp [cut] at h
    | cons c ds =>
      rw [cut_cons, List.nil_append] at h
      obtain ⟨rfl, rfl⟩ := List.cons_eq_cons.1 h
      exact ⟨c, ds, rfl, cut_text _ _ _⟩
  | cons s' front ih =>
    cases cs with
    | nil => simp [cut] at h
    | cons c ds =>
      rw [cut_cons, List.cons_append] at h
      obtain ⟨rfl, hrest⟩ := List.cons_eq_cons.1 h
      rw [List.flatMap_cons, Position.advance_append]
      exact ih hrest

end Segment

/-! ## The segmentation of a source -/

/-- The segments cut a source text up: into which pieces, with which role each, and what is read
off them. -/
structure Segmentation (source : String) (segments : List Segment) : Prop where
  text : segments.flatMap (·.text) = source.toList
  text_ne_nil : ∀ s ∈ segments, s.text ≠ []
  role : ∀ front s back, segments = front ++ s :: back →
    ∃! r : Segment.Role, r.Fits (front.filterMap Segment.token?) s (back.flatMap (·.text))
  start : ∀ front s back, segments = front ++ s :: back →
    s.start = Position.behind (front.flatMap (·.text))
  tokens : tokens source =
    segments.filterMap Segment.token? ++ [Token.eof (Position.behind source.toList)]
  errors : (scanDiagnostics source).errors =
    (segments.filterMap Segment.diagnostic?).filter (·.severity = .error)
  warnings : (scanDiagnostics source).warnings =
    (segments.filterMap Segment.diagnostic?).filter (·.severity = .warning)

/-- **Segmentation of the source.** -/
theorem segmentation_ofSource (source : String) :
    Segmentation source (Segment.ofSource source) where
  text := Segment.cut_text _ _ _
  text_ne_nil s hs := by
    obtain ⟨front, back, hsplit⟩ := List.append_of_mem hs
    obtain ⟨c, ds, rfl, -⟩ := Segment.cut_split hsplit
    exact List.cons_ne_nil _ _
  role front s back hsplit := by
    obtain ⟨c, ds, rfl, hback⟩ := Segment.cut_split hsplit
    obtain ⟨r, hr⟩ := Segment.read_fits (Segment.endsLine_eq_getLast? front) c ds
      (p := Position.start.advance (front.flatMap (·.text)))
    rw [hback]
    exact ⟨r, hr, fun r' hr' => hr'.eq_shownRole.trans hr.eq_shownRole.symm⟩
  start front s back hsplit := by
    obtain ⟨c, ds, rfl, -⟩ := Segment.cut_split hsplit
    exact Position.advance_start _
  tokens := by
    rw [← Position.advance_start]
    rfl
  errors := by
    refine List.filter_congr fun d hd => ?_
    obtain ⟨s, -, hs⟩ := List.mem_filterMap.1 hd
    unfold Segment.diagnostic? at hs
    split at hs <;> cases hs <;> rfl
  warnings := rfl

end LazyDecl
