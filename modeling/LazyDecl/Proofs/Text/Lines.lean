import LazyDecl.Proofs.Text.Newline

/-!
Two texts with a newline between them. The tokens of the second one stand further down, and
a line end in front of them is lost (`tokens_newline`), and that is all the same if a
semicolon stands in front of the newline (`tokens_semicolon_newline`). What the scan reports
on the one text is followed by what it reports on the other (`scanDiagnostics_newline`).
-/

namespace LazyDecl

def Diagnostic.map (f : Token → Token) (d : Diagnostic) : Diagnostic := { d with token := f d.token }

namespace Diagnostics

def map (f : Token → Token) (ds : Diagnostics) : Diagnostics :=
  { ds with
    errors := ds.errors.map (Diagnostic.map f)
    warnings := ds.warnings.map (Diagnostic.map f) }

/-- Diagnostics of one phase and then more of them. -/
instance : Append Diagnostics where
  append ds es := { ds with
    errors := ds.errors ++ es.errors
    warnings := ds.warnings ++ es.warnings }

end Diagnostics

namespace Segment

/-! ## Text behind a line end -/

/-- Only newlines and semicolons are read differently behind a line end. -/
theorem read_of_ne {c : Char} (hn : c ≠ '\n') (hs : c ≠ ';') (eol : Bool) (cs : List Char) :
    read eol c cs = read false c cs := by
  unfold read
  rw [if_neg hn, if_neg hs, if_neg hn, if_neg hs]

/-- The tokens of a text. -/
def tokensFrom (eol : Bool) (p : Position) (cs : List Char) : List Token :=
  (cut eol p cs).filterMap token?

theorem tokensFrom_nil (eol : Bool) (p : Position) : tokensFrom eol p [] = [] := by
  simp [tokensFrom, cut]

theorem tokensFrom_token {eol : Bool} {p : Position} {c : Char} {cs : List Char}
    {kind : TokenKind} (hk : (read eol c cs).1 = .token kind) :
    tokensFrom eol p (c :: cs) =
      ⟨kind, String.ofList (c :: cs.take (read eol c cs).2), p, kind = .eol⟩ ::
        tokensFrom (afterEol eol (.token kind)) (p.advance (c :: cs.take (read eol c cs).2))
          (cs.drop (read eol c cs).2) := by
  rw [tokensFrom, cut_cons, hk]
  rfl

theorem tokensFrom_text {eol : Bool} {p : Position} {c : Char} {cs : List Char}
    {kind : TokenKind} (hc : c ≠ '\n') (hk : (read eol c cs).1 = .token kind) :
    tokensFrom eol p (c :: cs) =
      ⟨kind, String.ofList (c :: cs.take (read eol c cs).2), p, false⟩ ::
        tokensFrom false (p.advance (c :: cs.take (read eol c cs).2))
          (cs.drop (read eol c cs).2) := by
  have hne := (read_isText hc hk).2
  rw [tokensFrom_token hk]
  simp [afterEol, hne]

theorem afterEol_other {kind : SegmentKind} (h : ∀ k, kind ≠ .token k) (eol : Bool) :
    afterEol eol kind = eol := by
  cases kind with
  | token k => exact absurd rfl (h k)
  | _ => rfl

theorem token?_eq_none {s : Segment} (h : ∀ k, s.kind ≠ .token k) : s.token? = none := by
  obtain ⟨kind, start, text⟩ := s
  cases kind with
  | token k => exact absurd rfl (h k)
  | _ => rfl

theorem tokensFrom_other {eol : Bool} {p : Position} {c : Char} {cs : List Char}
    (hk : ∀ kind, (read eol c cs).1 ≠ .token kind) :
    tokensFrom eol p (c :: cs) =
      tokensFrom eol (p.advance (c :: cs.take (read eol c cs).2))
        (cs.drop (read eol c cs).2) := by
  unfold tokensFrom
  rw [cut_cons, afterEol_other hk, List.filterMap_cons_none (token?_eq_none hk)]

/-- Induction over a text by its tokens: either a token is read next, or what is read leaves it as
it was whether a line has ended. -/
@[elab_as_elim]
theorem token_induction {motive : Bool → Position → List Char → Prop}
    (nil : ∀ eol p, motive eol p [])
    (token : ∀ eol p c cs kind, (read eol c cs).1 = .token kind →
      motive (afterEol eol (.token kind)) (p.advance (c :: cs.take (read eol c cs).2))
        (cs.drop (read eol c cs).2) → motive eol p (c :: cs))
    (other : ∀ eol p c cs, (∀ kind, (read eol c cs).1 ≠ .token kind) →
      motive eol (p.advance (c :: cs.take (read eol c cs).2)) (cs.drop (read eol c cs).2) →
        motive eol p (c :: cs))
    (eol : Bool) (p : Position) (cs : List Char) : motive eol p cs := by
  induction eol, p, cs using cut_induction with
  | nil eol p => exact nil eol p
  | cons eol p c cs ih =>
    by_cases htoken : ∃ kind, (read eol c cs).1 = .token kind
    · obtain ⟨kind, hk⟩ := htoken
      rw [hk] at ih
      exact token eol p c cs kind hk ih
    · have hother : ∀ kind, (read eol c cs).1 ≠ .token kind := fun kind hk => htoken ⟨kind, hk⟩
      rw [afterEol_other hother] at ih
      exact other eol p c cs hother ih

theorem tokensFrom_blank {c : Char} (hc : isBlank c = true) (eol : Bool) (q : Position)
    (cs : List Char) : tokensFrom eol q (c :: cs) = tokensFrom eol (q.next c) cs := by
  rw [tokensFrom_other (by simp [read_blank hc]), read_blank hc]
  rfl

theorem tokensFrom_newline (eol : Bool) (p : Position) (cs : List Char) :
    tokensFrom eol p ('\n' :: cs) =
      (if eol then [] else [⟨.eol, "\n", p, true⟩]) ++ tokensFrom true (p.next '\n') cs := by
  rw [tokensFrom, cut_cons, read_eol]
  cases eol <;> rfl

theorem tokensFrom_semicolon (eol : Bool) (p : Position) (cs : List Char) :
    tokensFrom eol p (';' :: cs) =
      if eol || endsUnit cs then tokensFrom eol (p.next ';') cs
      else ⟨.semicolon, ";", p, false⟩ :: tokensFrom false (p.next ';') cs := by
  rw [tokensFrom, cut_cons, read_semicolon]
  split <;> rfl

/-- Behind a line end a text starts with what can be seen. -/
theorem tokensFrom_true (p : Position) (cs : List Char) :
    (tokensFrom true p cs).dropWhile (·.hidden) = tokensFrom true p cs := by
  generalize heol : true = eol
  induction eol, p, cs using token_induction with
  | nil => simp [tokensFrom_nil]
  | token eol p c cs kind hk _ =>
    subst heol
    have hc : c ≠ '\n' := by
      rintro rfl
      rw [read_eol] at hk
      cases hk
    rw [tokensFrom_text hc hk, List.dropWhile_cons_of_neg (by simp)]
  | other eol p c cs hother ih =>
    rw [tokensFrom_other hother]
    exact ih heol

/-- The first run of segments is what the second one becomes behind a line end: it lacks at
most a line end in front of all other tokens. -/
inductive Behind : List Segment → List Segment → Prop
  | same (segments : List Segment) : Behind segments segments
  | eol (p : Position) (segments : List Segment) :
      Behind (⟨.repeatedEol, p, ['\n']⟩ :: segments) (⟨.token .eol, p, ['\n']⟩ :: segments)
  | other {s : Segment} {segments segments' : List Segment} : s.token? = none →
      Behind segments segments' → Behind (s :: segments) (s :: segments')

/-- **Behind a line end a text that does not start with a semicolon loses at most a line
end.** -/
theorem cut_behind {p : Position} {cs : List Char}
    (h : OpensUnit (tokensFrom false p cs)) :
    Behind (cut true p cs) (cut false p cs) := by
  generalize heol : false = eol at h ⊢
  induction eol, p, cs using cut_induction with
  | nil =>
    simp only [cut]
    exact .same []
  | cons eol p c cs ih =>
    subst heol
    rw [cut_cons, cut_cons]
    by_cases hnewline : c = '\n'
    · subst hnewline
      rw [read_eol, read_eol]
      exact .eol p _
    by_cases hsemi : c = ';'
    · subst hsemi
      cases hends : endsUnit cs with
      | true =>
        have hread : ∀ eol, read eol ';' cs = (.redundantSemicolon, 0) := by
          intro eol
          rw [read_semicolon, hends, Bool.or_true, if_pos rfl]
        rw [tokensFrom_other (by simp [hread]), hread] at h
        rw [hread] at ih
        rw [hread, hread]
        exact .other rfl (ih rfl h)
      | false =>
        -- a semicolon that counts would be the first token to be seen
        have hread : read false ';' cs = (.token .semicolon, 0) := by
          rw [read_semicolon, hends]
          rfl
        rw [tokensFrom_text (by decide) (congrArg Prod.fst hread)] at h
        exact absurd rfl (h _ rfl)
    rw [read_of_ne hnewline hsemi true cs]
    by_cases htoken : ∃ kind, (read false c cs).1 = .token kind
    · obtain ⟨kind, hk⟩ := htoken
      have heol : ∀ eol, afterEol eol (read false c cs).1 = false := by
        intro eol
        rw [hk]
        exact decide_eq_false (read_isText hnewline hk).2
      rw [heol, heol]
      exact .same _
    · have hother : ∀ kind, (read false c cs).1 ≠ .token kind := fun kind hk => htoken ⟨kind, hk⟩
      rw [tokensFrom_other hother] at h
      rw [afterEol_other hother] at ih
      rw [afterEol_other hother, afterEol_other hother]
      exact .other (token?_eq_none hother) (ih rfl h)

theorem Behind.tokens {segments segments' : List Segment} (h : Behind segments segments') :
    segments'.filterMap token? = segments.filterMap token? ∨
      ∃ t, t.hidden = true ∧ segments'.filterMap token? = t :: segments.filterMap token? := by
  induction h with
  | same segments => exact .inl rfl
  | eol p segments => exact .inr ⟨⟨.eol, "\n", p, true⟩, rfl, rfl⟩
  | other hs _ ih =>
    rw [List.filterMap_cons_none hs, List.filterMap_cons_none hs]
    exact ih

theorem Behind.diagnostics {segments segments' : List Segment} (h : Behind segments segments') :
    segments.filterMap diagnostic? = segments'.filterMap diagnostic? := by
  induction h with
  | same segments => rfl
  | eol p segments => rfl
  | other _ _ ih => rw [List.filterMap_cons, List.filterMap_cons, ih]

theorem tokensFrom_behind {p : Position} {cs : List Char}
    (h : OpensUnit (tokensFrom false p cs)) :
    tokensFrom true p cs = (tokensFrom false p cs).dropWhile (·.hidden) := by
  have htrue := tokensFrom_true p cs
  rcases (cut_behind h).tokens with heq | ⟨t, ht, heq⟩
  · have heq : tokensFrom false p cs = tokensFrom true p cs := heq
    rw [heq, htrue]
  · have heq : tokensFrom false p cs = t :: tokensFrom true p cs := heq
    rw [heq, List.dropWhile_cons_of_pos ht, htrue]

end Segment

/-! ## Lines -/

/-- The same place in a text with `n` more lines in front. -/
def Position.down (n : Nat) (p : Position) : Position := { p with line := p.line + n }

def Token.down (n : Nat) (t : Token) : Token := { t with start := t.start.down n }

def Segment.down (n : Nat) (s : Segment) : Segment := { s with start := s.start.down n }

theorem Position.next_down (n : Nat) (p : Position) (c : Char) :
    (p.down n).next c = (p.next c).down n := by
  unfold next
  split <;> simp [down, Nat.add_right_comm]

theorem Position.advance_down (n : Nat) (p : Position) (cs : List Char) :
    (p.down n).advance cs = (p.advance cs).down n := by
  induction cs generalizing p with
  | nil => rfl
  | cons c cs ih => rw [advance_cons, advance_cons, next_down, ih]

theorem Position.line_advance (p : Position) (cs : List Char) :
    (p.advance cs).line = p.line + cs.count '\n' := by
  induction cs generalizing p with
  | nil => rfl
  | cons c cs ih =>
    rw [advance_cons, ih, next]
    by_cases hc : c = '\n'
    · simp [hc]
      omega
    · simp [hc]

/-- A newline leads to the start, as many lines down as there are newlines so far. -/
theorem Position.next_newline (cs : List Char) :
    (start.advance cs).next '\n' = start.down (cs.count '\n' + 1) := by
  have h := line_advance start cs
  show (⟨(start.advance cs).line + 1, 1⟩ : Position) = ⟨start.line + (cs.count '\n' + 1), 1⟩
  rw [h, Nat.add_assoc]

namespace Segment

theorem cut_down (eol : Bool) (n : Nat) (p : Position) (cs : List Char) :
    cut eol (p.down n) cs = (cut eol p cs).map (down n) := by
  induction eol, p, cs using cut_induction with
  | nil => simp [cut]
  | cons eol p c cs ih =>
    rw [cut_cons, cut_cons, List.map_cons, Position.advance_down, ih]
    rfl

theorem tokensFrom_down (eol : Bool) (n : Nat) (p : Position) (cs : List Char) :
    tokensFrom eol (p.down n) cs = (tokensFrom eol p cs).map (Token.down n) := by
  have h : ∀ s : Segment, (s.down n).token? = s.token?.map (Token.down n) := by
    rintro ⟨kind, start, text⟩
    cases kind <;> rfl
  unfold tokensFrom
  rw [cut_down, List.filterMap_map, List.map_filterMap]
  exact congrArg (fun f => List.filterMap f _) (funext h)

theorem endsLine_eq (eol : Bool) (segments : List Segment) :
    endsLine eol segments =
      ((segments.filterMap token?).getLast?.map (·.hidden)).getD eol := by
  induction segments generalizing eol with
  | nil => rfl
  | cons s segments ih =>
    have hstep : endsLine eol (s :: segments) = endsLine (afterEol eol s.kind) segments := rfl
    rw [hstep, ih]
    obtain ⟨kind, start, text⟩ := s
    cases kind with
    | token kind =>
      have ht : token? ⟨.token kind, start, text⟩ =
          some ⟨kind, String.ofList text, start, decide (kind = .eol)⟩ := rfl
      rw [List.filterMap_cons_some ht, List.getLast?_cons]
      cases (segments.filterMap token?).getLast? <;> rfl
    | _ => rw [List.filterMap_cons_none rfl]; rfl

theorem wellFormed_of_errors {source : String} (h : (scanDiagnostics source).errors = []) :
    ∀ s ∈ ofSource source, WellFormed s.kind := by
  intro s hs error shown hk
  have hd : ∃ d, diagnostic? s = some d ∧ d.severity = .error := by
    simp [diagnostic?, hk]
  obtain ⟨d, hd, hsev⟩ := hd
  have hmem : d ∈ (scanDiagnostics source).errors :=
    List.mem_filter.2 ⟨List.mem_filterMap.2 ⟨s, hs, hd⟩, by simp [hsev]⟩
  rw [h] at hmem
  cases hmem

theorem errors_of_wellFormed {source : String} (h : ∀ s ∈ ofSource source, WellFormed s.kind) :
    (scanDiagnostics source).errors = [] := by
  refine List.filter_eq_nil_iff.2 fun d hd => ?_
  obtain ⟨s, hs, hd⟩ := List.mem_filterMap.1 hd
  have hwell := h s hs
  unfold diagnostic? at hd
  split at hd
  · rename_i error shown hk
    exact absurd hk (hwell error shown)
  · cases hd
    simp
  · cases hd

end Segment

/-- How far down a newline and more text stand behind a text. -/
def linesBelow (source : String) : Nat := source.toList.count '\n' + 1

/-- Where two texts with a newline between them end. -/
theorem end_newline (s₁ s₂ : String) :
    Position.start.advance (s₁ ++ "\n" ++ s₂).toList =
      (Position.start.advance s₂.toList).down (linesBelow s₁) := by
  have htext : (s₁ ++ "\n" ++ s₂).toList = s₁.toList ++ '\n' :: s₂.toList := by simp
  rw [htext, Position.advance_append, Position.advance_cons, Position.next_newline,
    Position.advance_down]
  rfl

/-- A line end for `ts` to go on with, which is there unless `ts` ends with one. -/
structure LineEnd (ts ends : List Token) : Prop where
  eols : ∀ t ∈ ends, t.kind = .eol ∧ t.hidden = true
  getLast? : ∃ t, (ts ++ ends).getLast? = some t ∧ t.hidden = true

namespace Segment

/-- What a newline adds to the segments in front of it. -/
def newline (eol : Bool) (p : Position) : Segment :=
  ⟨if eol then .repeatedEol else .token .eol, p, ['\n']⟩

theorem ofSource_newline {s₁ : String} (h : (scanDiagnostics s₁).errors = []) (s₂ : String) :
    ofSource (s₁ ++ "\n" ++ s₂) =
      ofSource s₁ ++
        newline (endsLine false (ofSource s₁)) (Position.start.advance s₁.toList) ::
          (cut true .start s₂.toList).map (down (linesBelow s₁)) := by
  have htext : (s₁ ++ "\n" ++ s₂).toList = s₁.toList ++ '\n' :: s₂.toList := by simp
  have hafter : ∀ eol, afterEol eol (if eol then .repeatedEol else .token .eol) = true := by
    intro eol
    cases eol <;> rfl
  rw [ofSource, htext, cut_newline (wellFormed_of_errors h), cut_cons, read_eol]
  dsimp only
  rw [hafter, ← cut_down]
  congr 3
  exact Position.next_newline s₁.toList

theorem lineEnd_newline (source : String) (p : Position) :
    LineEnd (textTokens source) (newline (endsLine false (ofSource source)) p).token?.toList := by
  have h := endsLine_eq false (ofSource source)
  cases hend : endsLine false (ofSource source) with
  | false =>
    exact ⟨by simp [newline, token?], ⟨.eol, "\n", p, true⟩, by simp [newline, token?], rfl⟩
  | true =>
    refine ⟨by simp [newline, token?], ?_⟩
    rw [hend] at h
    cases hl : ((ofSource source).filterMap token?).getLast? with
    | none =>
      rw [hl] at h
      cases h
    | some t =>
      rw [hl] at h
      have ht : (textTokens source).getLast? = some t := hl
      exact ⟨t, by simpa [newline, token?] using ht, h.symm⟩

theorem diagnostics_append (segments segments' : List Segment) :
    diagnostics (segments ++ segments') = diagnostics segments ++ diagnostics segments' := by
  simp only [diagnostics, List.filterMap_append, List.filter_append]
  rfl

theorem diagnostics_down (n : Nat) (segments : List Segment) :
    diagnostics (segments.map (down n)) = (diagnostics segments).map (Token.down n) := by
  have h : ∀ s : Segment, (s.down n).diagnostic? = s.diagnostic?.map (Diagnostic.map (Token.down n)) := by
    rintro ⟨kind, start, text⟩
    cases kind <;> rfl
  have hfound : (segments.map (down n)).filterMap diagnostic? =
      (segments.filterMap diagnostic?).map (Diagnostic.map (Token.down n)) := by
    rw [List.filterMap_map, List.map_filterMap]
    exact congrArg (fun f => List.filterMap f _) (funext h)
  simp only [diagnostics, Diagnostics.map, hfound, List.filter_map]
  rfl

end Segment

/-- The tokens of the text `s` are those of `s₁`, a line end, and those of `s₂`, which stand
further down and have lost a line end in front. -/
def OnNextLine (s₁ s₂ s : String) : Prop :=
  ∃ ends, LineEnd (textTokens s₁) ends ∧
    tokens s = textTokens s₁ ++ ends ++
      ((textTokens s₂).dropWhile (·.hidden)).map (Token.down (linesBelow s₁)) ++
        [.eof ((Position.start.advance s₂.toList).down (linesBelow s₁))]

section Newline

variable {s₁ s₂ : String} (h₁ : (scanDiagnostics s₁).errors = [])

include h₁

/-- **Tokens of two texts with a newline between them.** -/
theorem tokens_newline (h₂ : OpensUnit (textTokens s₂)) : OnNextLine s₁ s₂ (s₁ ++ "\n" ++ s₂) := by
  refine ⟨_, Segment.lineEnd_newline s₁ (Position.start.advance s₁.toList), ?_⟩
  have hbelow : (((Segment.cut true .start s₂.toList).map (Segment.down (linesBelow s₁))).filterMap
      Segment.token?) = ((textTokens s₂).dropWhile (·.hidden)).map (Token.down (linesBelow s₁)) := by
    rw [← Segment.cut_down]
    exact (Segment.tokensFrom_down true _ _ _).trans
      (congrArg _ (Segment.tokensFrom_behind h₂))
  rw [tokens, Segment.ofSource_newline h₁, end_newline, List.filterMap_append, List.filterMap_cons, hbelow]
  cases (Segment.newline (Segment.endsLine false (Segment.ofSource s₁))
      (Position.start.advance s₁.toList)).token? with
  | none => simp [textTokens]
  | some t => simp [textTokens]

/-- **What the scan reports on two texts with a newline between them** is what it reports on
each. -/
theorem scanDiagnostics_newline (h₂ : OpensWithName (textTokens s₂)) :
    scanDiagnostics (s₁ ++ "\n" ++ s₂) =
      scanDiagnostics s₁ ++ (scanDiagnostics s₂).map (Token.down (linesBelow s₁)) := by
  have hbehind : Segment.diagnostics (Segment.cut true .start s₂.toList) = scanDiagnostics s₂ := by
    unfold scanDiagnostics Segment.diagnostics
    rw [(Segment.cut_behind h₂.opensUnit).diagnostics]
    rfl
  have hnewline : ∀ eol p segments, Segment.diagnostics (Segment.newline eol p :: segments) =
      Segment.diagnostics segments := by
    intro eol p segments
    cases eol <;> rfl
  unfold scanDiagnostics at hbehind ⊢
  rw [Segment.ofSource_newline h₁, Segment.diagnostics_append, hnewline, Segment.diagnostics_down,
    hbehind]

/-- A text with a semicolon behind it has the tokens of the text. -/
theorem textTokens_semicolon : textTokens (s₁ ++ ";") = textTokens s₁ := by
  have htext : (s₁ ++ ";").toList = s₁.toList ++ [';'] := by simp
  rw [textTokens, Segment.ofSource, htext,
    (Segment.cut_semicolon (Segment.wellFormed_of_errors h₁)).1]
  rfl

theorem errors_semicolon : (scanDiagnostics (s₁ ++ ";")).errors = [] := by
  have htext : (s₁ ++ ";").toList = s₁.toList ++ [';'] := by simp
  refine Segment.errors_of_wellFormed ?_
  rw [Segment.ofSource, htext]
  exact (Segment.cut_semicolon (Segment.wellFormed_of_errors h₁)).2

omit h₁ in
theorem linesBelow_semicolon : linesBelow (s₁ ++ ";") = linesBelow s₁ := by
  simp [linesBelow]

/-- **A semicolon in front of the newline makes no difference.** -/
theorem tokens_semicolon_newline (h₂ : OpensUnit (textTokens s₂)) :
    OnNextLine s₁ s₂ (s₁ ++ ";" ++ "\n" ++ s₂) := by
  have h := tokens_newline (errors_semicolon h₁) h₂
  rwa [OnNextLine, textTokens_semicolon h₁, linesBelow_semicolon] at h

end Newline

end LazyDecl
