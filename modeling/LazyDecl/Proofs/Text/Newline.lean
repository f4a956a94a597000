import Mathlib.Data.List.TakeWhile
import LazyDecl.Proofs.Segment

/-!
Text behind a newline or a semicolon. What is well formed in a text reads the same when one
of them and more text come behind it (`Segment.read_break`), but for a line comment, which
only a newline ends.

* `Segment.cut_newline`: the text is cut where a newline stands;
* `Segment.cut_semicolon`: a semicolon at the end of a text adds no token.
-/

namespace LazyDecl

theorem takeWhile_break {p : Char → Bool} {x : Char} (hp : p x = false) (cs ds : List Char) :
    (cs ++ x :: ds).takeWhile p = cs.takeWhile p := by
  induction cs with
  | nil => simp [hp]
  | cons c cs ih =>
    cases hc : p c <;> simp [hc, ih]

theorem head?_break {c x : Char} (hc : c ≠ x) (cs ds : List Char) :
    (cs ++ x :: ds).head? = some c ↔ cs.head? = some c := by
  cases cs with
  | nil => simp [Ne.symm hc]
  | cons d cs => simp

/-! ## Quotes and block comments -/

theorem Quoted.closing?_quote (cs : List Char) : closing? ('"' :: cs) = some 1 := by
  rw [closing?.eq_def]
  rfl

theorem Quoted.closing?_plain {c : Char} (hq : ¬c = '"') (hb : ¬c = '\\') (cs : List Char) :
    closing? (c :: cs) = (closing? cs).map (· + 1) := by
  rw [closing?.eq_def]
  simp only [if_neg hq, if_neg hb]

theorem Quoted.badEscape?_quote (cs : List Char) : badEscape? ('"' :: cs) = none := by
  rw [badEscape?.eq_def]
  rfl

theorem Quoted.badEscape?_plain {c : Char} (hq : ¬c = '"') (hb : ¬c = '\\') (cs : List Char) :
    badEscape? (c :: cs) = (badEscape? cs).map fun (n, e) => (n + 1, e) := by
  rw [badEscape?.eq_def]
  simp only [if_neg hq, if_neg hb]

theorem Quoted.closing?_append {cs : List Char} {n : Nat} (h : closing? cs = some n)
    (ds : List Char) : closing? (cs ++ ds) = some n ∧ n ≤ cs.length := by
  fun_induction closing? cs generalizing n with
  | case1 => cases h
  | case2 cs =>
    cases h
    exact ⟨closing?_quote _, by simp⟩
  | case3 => cases h
  | case4 d cs hq ih =>
    obtain ⟨k, hk, rfl⟩ := Option.map_eq_some_iff.1 h
    obtain ⟨happ, hle⟩ := ih hk
    exact ⟨by simp [closing?, happ], by simpa using hle⟩
  | case5 c cs hq hb ih =>
    obtain ⟨k, hk, rfl⟩ := Option.map_eq_some_iff.1 h
    obtain ⟨happ, hle⟩ := ih hk
    refine ⟨?_, by simpa using hle⟩
    rw [List.cons_append, closing?_plain hq hb, happ]
    rfl

theorem Quoted.badEscape?_append {cs : List Char} {n : Nat} (h : closing? cs = some n)
    (ds : List Char) : badEscape? (cs ++ ds) = badEscape? cs := by
  fun_induction closing? cs generalizing n with
  | case1 => cases h
  | case2 cs => rw [List.cons_append, badEscape?_quote, badEscape?_quote]
  | case3 => cases h
  | case4 d cs hq ih =>
    obtain ⟨k, hk, rfl⟩ := Option.map_eq_some_iff.1 h
    simp [badEscape?, ih hk]
  | case5 c cs hq hb ih =>
    obtain ⟨k, hk, rfl⟩ := Option.map_eq_some_iff.1 h
    rw [List.cons_append, badEscape?_plain hq hb, badEscape?_plain hq hb, ih hk]

theorem Comment.closing?_append {depth : Nat} {cs : List Char} {n : Nat}
    (h : closing? depth cs = some n) (ds : List Char) :
    closing? depth (cs ++ ds) = some n ∧ n ≤ cs.length := by
  fun_induction closing? depth cs generalizing n with
  | case1 => cases h
  | case2 => cases h
  | case3 depth c d cs hopen ih =>
    obtain ⟨k, hk, rfl⟩ := Option.map_eq_some_iff.1 h
    obtain ⟨happ, hle⟩ := ih hk
    exact ⟨by simp [closing?, hopen, happ], by simpa using hle⟩
  | case4 c d cs hopen hclose =>
    cases h
    exact ⟨by simp [closing?, hclose], by simp⟩
  | case5 c d cs hopen hclose depth ih =>
    obtain ⟨k, hk, rfl⟩ := Option.map_eq_some_iff.1 h
    obtain ⟨happ, hle⟩ := ih hk
    exact ⟨by simp [closing?, hclose, happ], by simpa using hle⟩
  | case6 depth c d cs hopen hclose ih =>
    obtain ⟨k, hk, rfl⟩ := Option.map_eq_some_iff.1 h
    obtain ⟨happ, hle⟩ := ih hk
    rw [List.cons_append] at happ
    refine ⟨?_, by simpa using hle⟩
    rw [List.cons_append, List.cons_append, closing?.eq_def]
    simp only [if_neg hopen, if_neg hclose, happ]
    rfl

theorem Comment.lineLength_break {x : Char} {cs : List Char} (h : x = '\n' ∨ '\n' ∈ cs)
    (ds : List Char) : lineLength (cs ++ x :: ds) = lineLength cs := by
  unfold lineLength
  rcases h with rfl | h
  · rw [takeWhile_break (by decide)]
  · obtain ⟨es, fs, rfl⟩ := List.append_of_mem h
    rw [List.append_assoc, List.cons_append, takeWhile_break (by decide),
      takeWhile_break (by decide)]

/-- Without a newline a line comment takes all of a text. -/
theorem Comment.lineLength_eq {cs : List Char} (h : '\n' ∉ cs) : lineLength cs = cs.length := by
  unfold lineLength
  rw [List.takeWhile_eq_self_iff.2 fun c hc => decide_eq_true (ne_of_mem_of_not_mem hc h)]

/-! ## Segments -/

namespace Segment

/-- Whether a piece is more than a mistake. -/
def WellFormed (kind : SegmentKind) : Prop := ∀ error shown, kind ≠ .malformed error shown

/-- The characters that end a unit. -/
def IsBreak (x : Char) : Prop := x = '\n' ∨ x = ';'

section Break

variable {x : Char} (hx : IsBreak x)

include hx

theorem readWord_break (c : Char) (cs ds : List Char) :
    readWord c (cs ++ x :: ds) = readWord c cs := by
  have hword : continuesWord x = false := by
    rcases hx with rfl | rfl <;> decide
  simp only [readWord, takeWhile_break hword]

theorem readNumber_break (cs ds : List Char) :
    readNumber (cs ++ x :: ds) = readNumber cs := by
  have hdigit : Char.isDigit x = false := by
    rcases hx with rfl | rfl <;> decide
  have hpoint : x ≠ '.' := by
    rcases hx with rfl | rfl <;> decide
  have hle : (cs.takeWhile Char.isDigit).length ≤ cs.length := (List.takeWhile_prefix _).length_le
  unfold readNumber
  dsimp only
  rw [takeWhile_break hdigit, List.drop_append_of_le_length hle]
  cases cs.drop (cs.takeWhile Char.isDigit).length with
  | nil =>
    rw [List.nil_append]
    split
    · rename_i h
      cases h
      exact absurd rfl hpoint
    · rfl
  | cons c es =>
    by_cases hc : c = '.'
    · subst hc
      simp only [List.cons_append, takeWhile_break hdigit]
    · rw [List.cons_append]
      split
      · rename_i h
        cases h
        exact absurd rfl hc
      · split
        · rename_i h
          cases h
          exact absurd rfl hc
        · rfl

theorem readSymbol_break (c : Char) (cs ds : List Char) :
    readSymbol c (cs ++ x :: ds) = readSymbol c cs := by
  have hpair : TokenKind.ofPair? c x = none :=
    TokenKind.ofPair?_none (by rcases hx with rfl | rfl <;> decide) c
  have h : (cs ++ x :: ds).head?.bind (TokenKind.ofPair? c) =
      cs.head?.bind (TokenKind.ofPair? c) := by
    cases cs with
    | nil => simp [hpair]
    | cons d cs => rfl
  rw [readSymbol, readSymbol, h]

end Break

theorem readWord_le (c : Char) (cs : List Char) : (readWord c cs).2 ≤ cs.length :=
  (List.takeWhile_prefix _).length_le

theorem readNumber_le (cs : List Char) : (readNumber cs).2 ≤ cs.length := by
  have hle : (cs.takeWhile Char.isDigit).length ≤ cs.length := (List.takeWhile_prefix _).length_le
  unfold readNumber
  dsimp only
  split
  · rename_i ds hds
    have hlen := congrArg List.length hds
    have hplaces : (ds.takeWhile Char.isDigit).length ≤ ds.length :=
      (List.takeWhile_prefix _).length_le
    simp only [List.length_drop, List.length_cons] at hlen
    split
    · exact hle
    · show (cs.takeWhile Char.isDigit).length + 1 + (ds.takeWhile Char.isDigit).length ≤ cs.length
      omega
  · exact hle

theorem readString_append {cs : List Char} (h : WellFormed (readString cs).1) (ds : List Char) :
    readString (cs ++ ds) = readString cs ∧ (readString cs).2 ≤ cs.length := by
  unfold readString at h ⊢
  cases hb : Quoted.badEscape? cs with
  | some pair => exact absurd rfl ((hb ▸ h) _ _)
  | none =>
    cases hc : Quoted.closing? cs with
    | none =>
      rw [hb, hc] at h
      exact absurd rfl (h _ _)
    | some n =>
      obtain ⟨happ, hle⟩ := Quoted.closing?_append hc ds
      rw [Quoted.badEscape?_append hc, hb, happ]
      exact ⟨rfl, hle⟩

theorem readBlockComment_append {cs : List Char} (h : WellFormed (readBlockComment cs).1)
    (hcs : cs ≠ []) (ds : List Char) :
    readBlockComment (cs ++ ds) = readBlockComment cs ∧
      (readBlockComment cs).2 ≤ cs.length := by
  obtain ⟨c, cs, rfl⟩ := List.exists_cons_of_ne_nil hcs
  unfold readBlockComment at h ⊢
  simp only [List.cons_append, List.drop_succ_cons, List.drop_zero] at h ⊢
  cases hc : Comment.closing? 0 cs with
  | none =>
    rw [hc] at h
    exact absurd rfl (h _ _)
  | some n =>
    obtain ⟨happ, hle⟩ := Comment.closing?_append hc ds
    rw [happ]
    exact ⟨rfl, Nat.succ_le_succ hle⟩

theorem readSymbol_le {c : Char} {cs : List Char} : (readSymbol c cs).2 ≤ cs.length := by
  unfold readSymbol
  cases cs with
  | nil => cases TokenKind.ofChar? c <;> exact Nat.le_refl _
  | cons d cs => split <;> simp

/-- What is well formed reads the same in front of the end of a unit. Only a newline ends a
line comment. -/
theorem read_break {eol : Bool} {c x : Char} {cs : List Char} (hx : IsBreak x)
    (hline : c = '/' ∧ cs.head? = some '/' → x = '\n' ∨ '\n' ∈ cs)
    (h : WellFormed (read eol c cs).1) (ds : List Char) :
    read eol c (cs ++ x :: ds) = read eol c cs ∧ (read eol c cs).2 ≤ cs.length := by
  have hslash := head?_break (c := '/') (x := x) (by rcases hx with rfl | rfl <;> decide) cs ds
  have hblock := head?_break (c := '*') (x := x) (by rcases hx with rfl | rfl <;> decide) cs ds
  have hends : endsUnit (cs ++ x :: ds) = endsUnit cs := by
    cases cs with
    | nil => rcases hx with rfl | rfl <;> rfl
    | cons d cs => rfl
  cases opening c cs with
  | blank hc =>
    rw [read_blank hc, read_blank hc]
    exact ⟨rfl, Nat.zero_le _⟩
  | newline =>
    rw [read_eol, read_eol]
    exact ⟨rfl, Nat.zero_le _⟩
  | semicolon =>
    rw [read_semicolon, read_semicolon, hends]
    exact ⟨rfl, Nat.zero_le _⟩
  | quote =>
    rw [read_quote] at h
    rw [read_quote, read_quote]
    exact readString_append h _
  | digit hc =>
    rw [read_digit hc, read_digit hc, readNumber_break hx]
    exact ⟨rfl, readNumber_le cs⟩
  | letter hc hd =>
    rw [read_letter hc hd, read_letter hc hd, readWord_break hx]
    exact ⟨rfl, readWord_le c cs⟩
  | @line cs =>
    rw [List.cons_append, read_line, read_line, ← List.cons_append,
      Comment.lineLength_break (hline ⟨rfl, rfl⟩)]
    exact ⟨rfl, (List.takeWhile_prefix _).length_le⟩
  | @block cs =>
    rw [read_block] at h
    rw [List.cons_append, read_block, read_block]
    exact readBlockComment_append h (List.cons_ne_nil _ _) _
  | mark hc hcomment =>
    have hcomment' : c = '/' → (cs ++ x :: ds).head? ≠ some '/' ∧
        (cs ++ x :: ds).head? ≠ some '*' := fun h =>
      ⟨mt hslash.1 (hcomment h).1, mt hblock.1 (hcomment h).2⟩
    rw [read_mark hc hcomment, read_mark hc hcomment', readSymbol_break hx]
    exact ⟨rfl, readSymbol_le⟩

theorem read_lineComment {c : Char} {cs : List Char} (h : c = '/' ∧ cs.head? = some '/')
    (eol : Bool) : read eol c cs = (.comment, Comment.lineLength cs) := by
  obtain ⟨rfl, hcs⟩ := h
  obtain ⟨ds, rfl⟩ := List.head?_eq_some_iff.1 hcs
  exact read_line eol ds

/-! ## Texts -/

/-- Whether the last token of a run of segments ends a line; `eol` tells it for the
tokens in front. -/
def endsLine (eol : Bool) (segments : List Segment) : Bool :=
  segments.foldl (fun eol s => afterEol eol s.kind) eol

/-- In front of the end of a unit a well-formed segment is cut off as before. -/
theorem cut_append_break {eol : Bool} {p : Position} {c x : Char} {cs : List Char}
    (hx : IsBreak x) (hline : c = '/' ∧ cs.head? = some '/' → x = '\n' ∨ '\n' ∈ cs)
    (h : WellFormed (read eol c cs).1) (ds : List Char) :
    cut eol p (c :: cs ++ x :: ds) =
      ⟨(read eol c cs).1, p, c :: cs.take (read eol c cs).2⟩ ::
        cut (afterEol eol (read eol c cs).1) (p.advance (c :: cs.take (read eol c cs).2))
          (cs.drop (read eol c cs).2 ++ x :: ds) := by
  obtain ⟨hread, hle⟩ := read_break hx hline h ds
  rw [List.cons_append, cut_cons, hread, List.take_append_of_le_length hle,
    List.drop_append_of_le_length hle]

/-- A line comment goes to the end of a text without a newline. -/
theorem cut_lineComment {eol : Bool} {p : Position} {c : Char} {cs : List Char}
    (h : c = '/' ∧ cs.head? = some '/') (hcs : '\n' ∉ cs) :
    cut eol p (c :: cs) = [⟨.comment, p, c :: cs⟩] := by
  rw [cut_cons, read_lineComment h, Comment.lineLength_eq hcs]
  simp [cut]

/-- **A newline behind well-formed text starts afresh.** -/
theorem cut_newline {eol : Bool} {p : Position} {cs : List Char}
    (h : ∀ s ∈ cut eol p cs, WellFormed s.kind) (ds : List Char) :
    cut eol p (cs ++ '\n' :: ds) =
      cut eol p cs ++ cut (endsLine eol (cut eol p cs)) (p.advance cs) ('\n' :: ds) := by
  induction eol, p, cs using cut_induction with
  | nil => simp [cut, endsLine]
  | cons eol p c cs ih =>
    rw [cut_cons eol p c cs] at h ⊢
    obtain ⟨hhead, hrest⟩ := List.forall_mem_cons.1 h
    rw [cut_append_break (.inl rfl) (fun _ => .inl rfl) hhead, ih hrest]
    have hadvance : (p.advance (c :: cs.take (read eol c cs).2)).advance
        (cs.drop (read eol c cs).2) = p.advance (c :: cs) := by
      rw [← Position.advance_append, List.cons_append, List.take_append_drop]
    rw [hadvance]
    rfl

/-- **A semicolon at the end of a text is no token.** Either it separates nothing, or it
belongs to a line comment. -/
theorem cut_semicolon {eol : Bool} {p : Position} {cs : List Char}
    (h : ∀ s ∈ cut eol p cs, WellFormed s.kind) :
    (cut eol p (cs ++ [';'])).filterMap token? = (cut eol p cs).filterMap token? ∧
      ∀ s ∈ cut eol p (cs ++ [';']), WellFormed s.kind := by
  induction eol, p, cs using cut_induction with
  | nil eol p =>
    have hread : read eol ';' [] = (.redundantSemicolon, 0) := by
      rw [read_semicolon, endsUnit, Bool.or_true, if_pos rfl]
    have hcut : cut eol p [';'] = [⟨.redundantSemicolon, p, [';']⟩] := by
      rw [cut_cons, hread]
      simp [cut]
    rw [List.nil_append, hcut]
    exact ⟨by simp [cut, token?], by simp [WellFormed]⟩
  | cons eol p c cs ih =>
    by_cases hend : (c = '/' ∧ cs.head? = some '/') ∧ '\n' ∉ cs
    · obtain ⟨hline, hnone⟩ := hend
      have hline' : c = '/' ∧ (cs ++ [';']).head? = some '/' :=
        ⟨hline.1, (head?_break (by decide) cs []).2 hline.2⟩
      rw [List.cons_append, cut_lineComment hline' (by simp [hnone]), cut_lineComment hline hnone]
      exact ⟨rfl, by simp [WellFormed]⟩
    · have hbreak : c = '/' ∧ cs.head? = some '/' → ';' = '\n' ∨ '\n' ∈ cs := fun hline =>
        .inr (not_not.1 fun hno => hend ⟨hline, hno⟩)
      rw [cut_cons eol p c cs] at h ⊢
      obtain ⟨hhead, hrest⟩ := List.forall_mem_cons.1 h
      obtain ⟨htokens, hwell⟩ := ih hrest
      rw [cut_append_break (.inr rfl) hbreak hhead, List.filterMap_cons, List.filterMap_cons,
        htokens]
      exact ⟨rfl, List.forall_mem_cons.2 ⟨hhead, hwell⟩⟩

end Segment

end LazyDecl
