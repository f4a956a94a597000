import LazyDecl.Proofs.Text.Composition

/-!
Turns of the scan. In each turn one piece is taken off the text, and the scan goes on right
behind it.

* `Segment.cut_rest`: what is behind some segments is cut as a text of its own;
* `Segment.starts_sorted`: each segment starts further on than those in front of it;
* `Segment.exists_readAt`: where a token comes from;
* `Segment.Comes.turn`: the next turn, told from what is read next.
-/

namespace LazyDecl

/-! ## The order of places -/

/-- Places in the order of reading. -/
instance : LT Position where
  lt p q := p.line < q.line ∨ p.line = q.line ∧ p.column < q.column

theorem Position.lt_trans {p q r : Position} (h : p < q) (h' : q < r) : p < r := by
  have h₁ : p.line < q.line ∨ p.line = q.line ∧ p.column < q.column := h
  have h₂ : q.line < r.line ∨ q.line = r.line ∧ q.column < r.column := h'
  show p.line < r.line ∨ p.line = r.line ∧ p.column < r.column
  omega

theorem Position.lt_next (p : Position) (c : Char) : p < p.next c := by
  by_cases hc : c = '\n'
  · rw [next, if_pos hc]
    exact .inl (Nat.lt_succ_self _)
  · rw [next, if_neg hc]
    exact .inr ⟨rfl, Nat.lt_succ_self _⟩

/-- Every character leads further on. -/
theorem Position.lt_advance (p : Position) (c : Char) (cs : List Char) :
    p < p.advance (c :: cs) := by
  induction cs generalizing p c with
  | nil => exact p.lt_next c
  | cons d cs ih => exact lt_trans (p.lt_next c) (ih (p.next c) d)

namespace Segment

/-! ## What is behind some segments -/

/-- **The segments behind others are those of the text that is left.** -/
theorem cut_rest {eol : Bool} {p : Position} {cs : List Char} {front back : List Segment}
    (h : cut eol p cs = front ++ back) :
    back = cut (endsLine eol front) (p.advance (front.flatMap (·.text)))
      (back.flatMap (·.text)) := by
  induction front generalizing eol p cs with
  | nil =>
    rw [List.nil_append] at h
    rw [← h, cut_text]
    rfl
  | cons s front ih =>
    cases cs with
    | nil => simp [cut] at h
    | cons c ds =>
      rw [cut_cons, List.cons_append] at h
      obtain ⟨rfl, hrest⟩ := List.cons_eq_cons.1 h
      rw [List.flatMap_cons, Position.advance_append]
      exact ih hrest

theorem start_lt_end {eol : Bool} {p : Position} {cs : List Char} {s : Segment}
    (h : s ∈ cut eol p cs) : s.start < p.advance cs := by
  induction eol, p, cs using cut_induction with
  | nil => simp [cut] at h
  | cons eol p c cs ih =>
    have htext : c :: cs.take (read eol c cs).2 ++ cs.drop (read eol c cs).2 = c :: cs := by simp
    rw [cut_cons] at h
    rcases List.mem_cons.1 h with rfl | h
    · exact p.lt_advance c cs
    · rw [← Position.advance_append, htext] at ih
      exact ih h

theorem start_of_mem {eol : Bool} {p : Position} {cs : List Char} {s : Segment}
    (h : s ∈ cut eol p cs) : s.start = p ∨ p < s.start := by
  induction eol, p, cs using cut_induction with
  | nil => simp [cut] at h
  | cons eol p c cs ih =>
    rw [cut_cons] at h
    rcases List.mem_cons.1 h with rfl | h
    · exact .inl rfl
    · have hlt := p.lt_advance c (cs.take (read eol c cs).2)
      rcases ih h with hs | hs
      · exact .inr (hs ▸ hlt)
      · exact .inr (Position.lt_trans hlt hs)

/-- **Each segment starts further on than those in front of it.** -/
theorem starts_sorted (eol : Bool) (p : Position) (cs : List Char) :
    (cut eol p cs).Pairwise fun s t => s.start < t.start := by
  induction eol, p, cs using cut_induction with
  | nil => simp [cut]
  | cons eol p c cs ih =>
    rw [cut_cons]
    refine List.pairwise_cons.2 ⟨fun t ht => ?_, ih⟩
    have hlt := p.lt_advance c (cs.take (read eol c cs).2)
    rcases start_of_mem ht with hs | hs
    · exact hs ▸ hlt
    · exact Position.lt_trans hlt hs

theorem toList_of_split {source : String} {front back : List Segment} {s : Segment}
    (h : ofSource source = front ++ s :: back) :
    source.toList = front.flatMap (·.text) ++ (s.text ++ back.flatMap (·.text)) := by
  rw [← cut_text false .start source.toList, ← ofSource, h, List.flatMap_append,
    List.flatMap_cons]

/-- What is read at a token of a source: the text `c :: cs` stands behind `before` and is read as the
token. -/
structure ReadAt (source : String) (t : Token) (before : List Char) (c : Char) (cs : List Char) :
    Prop where
  text : source.toList = before ++ c :: cs
  start : t.start = Position.behind before
  read : ∃ eol n, read eol c cs = (.token t.kind, n) ∧ t.lexeme.toList = c :: cs.take n

/-- **Each token of some first segments was read at a place of their text.** -/
theorem exists_readAt {source : String} {front back : List Segment} {t : Token}
    (h : ofSource source = front ++ back) (ht : t ∈ front.filterMap token?) :
    ∃ before c cs after, ReadAt source t before c cs ∧
      front.flatMap (·.text) = before ++ (t.lexeme.toList ++ after) := by
  obtain ⟨s, hs, hst⟩ := List.mem_filterMap.1 ht
  obtain ⟨front, between, rfl⟩ := List.append_of_mem hs
  rw [List.append_assoc, List.cons_append] at h
  obtain ⟨c, cs, hstaken, hrest⟩ := cut_split h
  have hkind : s.kind = .token t.kind ∧ t.lexeme.toList = s.text ∧ t.start = s.start := by
    unfold token? at hst
    split at hst
    · rename_i kind hkind
      cases hst
      exact ⟨hkind, String.toList_ofList, rfl⟩
    · cases hst
  obtain ⟨hkind, hlexeme, hstart⟩ := hkind
  refine ⟨front.flatMap (·.text), c, cs, between.flatMap (·.text), ⟨?_, ?_, ?_⟩, ?_⟩
  · rw [toList_of_split h, hrest, hstaken]
    simp [taken]
  · rw [hstart, hstaken, ← Position.advance_start]
    rfl
  · refine ⟨endsLine false front, (Segment.read (endsLine false front) c cs).2, ?_, ?_⟩
    · rw [← hkind, hstaken]
      rfl
    · rw [hlexeme, hstaken]
      rfl
  · rw [List.flatMap_append, List.flatMap_cons, hlexeme]

/-! ## Turns -/

/-- The scan of a source has cut off the segments `front` and comes to the text `cs`. -/
def Comes (source : String) (front : List Segment) (cs : List Char) : Prop :=
  ∃ back, ofSource source = front ++ back ∧ back.flatMap (·.text) = cs

/-- The segments of `rest`, cut right behind `piece`. All that the scan knows of the text in front
is the place and whether the last token ends a line. -/
def resumed (front : List Segment) (piece : List Char) (ts : List Token) (rest : List Char) :
    List Segment :=
  cut ((front.filterMap token? ++ ts).getLast?.any (·.kind = .eol))
    (Position.behind (front.flatMap (·.text) ++ piece)) rest

/-- Behind the segments `front` the scan takes `piece` in one turn, which gives the tokens `ts`, the
errors `es` and no warning, and goes on with `rest`. -/
structure Turn (source : String) (front : List Segment) (piece : List Char) (ts : List Token)
    (es : List Diagnostic) (rest : List Char) : Prop where
  segments : ∃ s, s.text = piece ∧ ofSource source = front ++ s :: resumed front piece ts rest
  tokens : tokens source =
    front.filterMap token? ++ ts ++ (resumed front piece ts rest).filterMap token? ++
      [.eof (Position.behind source.toList)]
  errors : (scanDiagnostics source).errors =
    (diagnostics front).errors ++ es ++ (diagnostics (resumed front piece ts rest)).errors
  warnings : (scanDiagnostics source).warnings =
    (diagnostics front).warnings ++ (diagnostics (resumed front piece ts rest)).warnings

/-- What is reported of a malformed piece that starts at the place. -/
def mistake (p : Position) (error : ScanError) (shown : List Char) : Diagnostic :=
  { phase := .scanning, severity := .error, message := error.message
    token := ⟨.unknown, String.ofList shown, p, false⟩ }

section Comes

variable {source : String} {front : List Segment} {c : Char} {cs : List Char}

/-- **The next turn**, if it does not depend on whether a line has ended. Its tokens and errors
are those of its one segment. -/
theorem Comes.turn (h : Comes source front (c :: cs)) {kind : SegmentKind} {n : Nat}
    (hread : ∀ eol, read eol c cs = (kind, n)) (hkind : kind ≠ .redundantSemicolon)
    {ts : List Token} {es : List Diagnostic}
    (hts : (token? ⟨kind, Position.behind (front.flatMap (·.text)), c :: cs.take n⟩).toList = ts)
    (hes : errors ⟨kind, Position.behind (front.flatMap (·.text)), c :: cs.take n⟩ = es) :
    Turn source front (c :: cs.take n) ts es (cs.drop n) := by
  obtain ⟨back, hsource, hback⟩ := h
  generalize hs : (⟨kind, Position.behind (front.flatMap (·.text)), c :: cs.take n⟩ : Segment) = s
    at hts hes
  have hends : afterEol (endsLine false front) kind =
      (front.filterMap token? ++ ts).getLast?.any (·.kind = .eol) := by
    have hlast : endsLine false (front ++ [s]) = afterEol (endsLine false front) kind := by
      rw [endsLine_concat, ← hs]
    rw [← hlast, endsLine_eq_getLast?, List.filterMap_append, ← hts]
    cases ht : s.token? <;> simp [ht]
  have hcut : back = s :: resumed front (c :: cs.take n) ts (cs.drop n) := by
    have hrest := cut_rest (show cut false .start source.toList = front ++ back from hsource)
    rw [hback, cut_cons, hread, hends, Position.advance_start] at hrest
    rw [hrest, resumed, ← hs, ← Position.advance_start, ← Position.advance_start,
      Position.advance_append]
  have hparts : ofSource source =
      front ++ ([s] ++ resumed front (c :: cs.take n) ts (cs.drop n)) := by
    rw [hsource, hcut]
    rfl
  have hwarnings : (diagnostics [s]).warnings = [] := by
    cases kind with
    | redundantSemicolon => exact absurd rfl hkind
    | _ => rw [← hs]; rfl
  have hdiagnostics : scanDiagnostics source = diagnostics front ++
      (diagnostics [s] ++ diagnostics (resumed front (c :: cs.take n) ts (cs.drop n))) := by
    rw [scanDiagnostics, hparts, diagnostics_append, diagnostics_append]
  refine ⟨⟨s, by rw [← hs], hparts⟩, ?_, ?_, ?_⟩
  · rw [tokens_eq, textTokens, hparts, Position.advance_start, List.filterMap_append,
      List.filterMap_append, ← hts]
    cases ht : s.token? <;> simp [ht]
  · have herrors : (diagnostics [s]).errors = es := by
      rw [errors_eq_flatMap, List.flatMap_singleton, hes]
    rw [hdiagnostics, List.append_assoc, ← herrors]
    rfl
  · rw [hdiagnostics, ← List.nil_append (diagnostics (resumed _ _ _ _)).warnings, ← hwarnings]
    rfl

end Comes

end Segment

end LazyDecl
