import LazyDecl.Proofs.Text.Lexeme
import LazyDecl.Proofs.Text.Lines
import LazyDecl.Proofs.Text.Segmentation

/-!
Any two texts with a newline between them. The newline ends all lexemes of the first text, and
the line end that it makes takes the place of the line ends and semicolons with which the second
text opens.

* `Segment.Reading`: what comes next, read behind a line end and on its own;
* `Segment.tokensFrom_behind_eol`, `Segment.errors_behind_eol`: by induction along the text, what
  this comes to for its tokens and errors;
* `scan_newline`: the tokens and errors of the two texts together.
-/

namespace LazyDecl

/-- Whether the token is a line end or a semicolon. -/
def Token.separates (t : Token) : Bool := t.kind = .eol || t.kind = .semicolon

namespace Segment

/-- How the next piece of a text is read behind a line end and how it is read on its own. -/
inductive Reading : Char → List Char → Prop where
  | newline {cs : List Char} : Reading '\n' cs
  /-- A semicolon that is redundant only behind a line end. -/
  | semicolon {cs : List Char} : endsUnit cs = false → Reading ';' cs
  | token {c : Char} {cs : List Char} {kind : TokenKind} {n : Nat} : c ≠ '\n' → kind ≠ .eol →
      kind ≠ .semicolon → (∀ eol, read eol c cs = (.token kind, n)) → Reading c cs
  | other {c : Char} {cs : List Char} {kind : SegmentKind} {n : Nat} :
      (∀ k, kind ≠ .token k) → (∀ eol, read eol c cs = (kind, n)) → Reading c cs

theorem reading (c : Char) (cs : List Char) : Reading c cs := by
  by_cases hnewline : c = '\n'
  · exact hnewline ▸ .newline
  by_cases hsemicolon : c = ';'
  · subst hsemicolon
    cases hends : endsUnit cs with
    | false => exact .semicolon hends
    | true =>
      have hread : ∀ eol, read eol ';' cs = (.redundantSemicolon, 0) := fun eol => by
        rw [read_semicolon, hends, Bool.or_true, if_pos rfl]
      refine .other ?_ hread
      exact nofun
  have hread : ∀ eol, read eol c cs = ((read false c cs).1, (read false c cs).2) := fun eol =>
    read_of_ne hnewline hsemicolon eol cs
  by_cases htoken : ∃ kind, (read false c cs).1 = .token kind
  · obtain ⟨kind, hk⟩ := htoken
    rw [hk] at hread
    refine .token hnewline (read_isText hnewline hk).2 (fun he => ?_) hread
    subst he
    exact read_true_ne_semicolon c cs (congrArg Prod.fst (hread true))
  · exact .other (fun kind hk => htoken ⟨kind, hk⟩) hread

/-- What a text opens with behind a line end separates nothing. -/
theorem head_behind_eol (p : Position) (cs : List Char) :
    ∀ t ∈ (tokensFrom true p cs).head?, t.separates = false := by
  generalize heol : true = eol
  induction eol, p, cs using cut_induction with
  | nil => simp [tokensFrom_nil]
  | cons eol p c cs ih =>
    subst heol
    cases reading c cs with
    | newline =>
      rw [read_eol] at ih
      rw [tokensFrom_newline]
      exact ih rfl
    | semicolon _ =>
      rw [read_semicolon] at ih
      rw [tokensFrom_semicolon]
      exact ih rfl
    | token hc heol hsemicolon h =>
      rw [tokensFrom_text hc (congrArg Prod.fst (h true))]
      rintro t ⟨⟩
      simp [Token.separates, heol, hsemicolon]
    | other hk h =>
      rw [tokensFrom_other (by simpa [h] using hk)]
      rw [h, afterEol_other hk] at ih
      rw [h]
      exact ih rfl

/-- **Behind a line end a text loses the line ends and semicolons that it opens with.** -/
theorem tokensFrom_behind_eol (p : Position) (cs : List Char) :
    tokensFrom true p cs = (tokensFrom false p cs).dropWhile Token.separates := by
  generalize heol : false = eol
  induction eol, p, cs using cut_induction with
  | nil => simp [tokensFrom_nil]
  | cons eol p c cs ih =>
    subst heol
    cases reading c cs with
    | newline =>
      have hhead := head_behind_eol (p.next '\n') cs
      rw [tokensFrom_newline, tokensFrom_newline, if_pos rfl, if_neg nofun, List.nil_append,
        List.singleton_append, List.dropWhile_cons_of_pos rfl]
      cases htokens : tokensFrom true (p.next '\n') cs with
      | nil => rfl
      | cons t ts =>
        rw [htokens] at hhead
        rw [List.dropWhile_cons_of_neg (Bool.not_eq_true _ ▸ hhead t rfl)]
    | semicolon h =>
      rw [read_semicolon, h] at ih
      rw [tokensFrom_semicolon, tokensFrom_semicolon, h, Bool.true_or, if_pos rfl, Bool.false_or,
        if_neg nofun, List.dropWhile_cons_of_pos rfl]
      exact ih rfl
    | @token c cs kind n hc heol hsemicolon h =>
      have hseparates : ∀ text start, Token.separates ⟨kind, text, start, false⟩ = false := by
        simp [Token.separates, heol, hsemicolon]
      rw [tokensFrom_text hc (congrArg Prod.fst (h true)),
        tokensFrom_text hc (congrArg Prod.fst (h false)), h, h,
        List.dropWhile_cons_of_neg (Bool.not_eq_true _ ▸ hseparates _ _)]
    | other hk h =>
      rw [tokensFrom_other (by simpa [h] using hk), tokensFrom_other (by simpa [h] using hk)]
      rw [h, afterEol_other hk] at ih
      rw [h, h]
      exact ih rfl

/-- What a segment reports as an error, if it does. -/
def errors (s : Segment) : List Diagnostic :=
  s.diagnostic?.toList.filter (·.severity ≠ .warning)

theorem errors_eq_flatMap (segments : List Segment) :
    (diagnostics segments).errors = segments.flatMap errors := by
  unfold diagnostics
  induction segments with
  | nil => rfl
  | cons s segments ih =>
    rw [List.flatMap_cons, ← ih, errors]
    cases hs : s.diagnostic? with
    | none => simp [hs]
    | some d => simp [hs, List.filter_cons]; split <;> simp

/-- **Behind a line end a text has the errors that it has on its own.** -/
theorem errors_behind_eol (p : Position) (cs : List Char) :
    (cut true p cs).flatMap errors = (cut false p cs).flatMap errors := by
  generalize heol : false = eol
  induction eol, p, cs using cut_induction with
  | nil => simp [cut]
  | cons eol p c cs ih =>
    subst heol
    rw [cut_cons, cut_cons, List.flatMap_cons, List.flatMap_cons]
    cases reading c cs with
    | newline =>
      rw [read_eol, read_eol]
      rfl
    | semicolon h =>
      rw [read_semicolon, h] at ih
      rw [read_semicolon, read_semicolon, h]
      exact ih rfl
    | token _ heol _ h =>
      have hafter : ∀ eol, afterEol eol (.token _) = false := fun eol => decide_eq_false heol
      rw [h, h, hafter, hafter]
    | other hk h =>
      rw [h, afterEol_other hk] at ih
      rw [h, h, afterEol_other hk, afterEol_other hk, ih rfl]

end Segment

/-- The line end that a newline behind a text makes, if none is there yet. -/
def lineEnd (source : String) : List Token :=
  if (tokens source).dropLast.getLast?.any (·.kind = .eol) then []
  else [⟨.eol, "\n", Position.behind source.toList, true⟩]

theorem Segment.newline_tokens (source : String) :
    (newline (endsLine false (ofSource source))
      (Position.start.advance source.toList)).token?.toList = lineEnd source := by
  have htokens : (tokens source).dropLast = (ofSource source).filterMap token? := by
    rw [tokens_eq, List.dropLast_concat]
    rfl
  rw [endsLine_eq_getLast?, lineEnd, htokens, Position.advance_start]
  cases ((ofSource source).filterMap token?).getLast?.any (·.kind = .eol) <;> rfl

/-- The end of a text is not among the line ends and semicolons that the text opens with. -/
theorem dropWhile_tokens (source : String) :
    (tokens source).dropWhile Token.separates =
      (textTokens source).dropWhile Token.separates ++
        [.eof (Position.start.advance source.toList)] := by
  have heof : ∀ p, Token.separates (.eof p) ≠ true := by simp [Token.separates, Token.eof]
  rw [tokens_eq, List.dropWhile_append, List.dropWhile_cons_of_neg (heof _)]
  cases (textTokens source).dropWhile Token.separates <;> rfl

section Joined

variable {s₁ : String} (h : (scanDiagnostics s₁).errors = []) (s₂ : String)

include h

theorem tokens_joined :
    tokens (s₁ ++ "\n" ++ s₂) = (tokens s₁).dropLast ++ lineEnd s₁ ++
      ((tokens s₂).dropWhile Token.separates).map (Token.down (linesBelow s₁)) := by
  have hbelow : ((Segment.cut true .start s₂.toList).map
      (Segment.down (linesBelow s₁))).filterMap Segment.token? =
        ((textTokens s₂).dropWhile Token.separates).map (Token.down (linesBelow s₁)) := by
    rw [← Segment.cut_down]
    exact (Segment.tokensFrom_down true _ _ _).trans
      (congrArg _ (Segment.tokensFrom_behind_eol _ _))
  have heof : ∀ p, Token.eof (Position.down (linesBelow s₁) p) =
      Token.down (linesBelow s₁) (.eof p) := fun _ => rfl
  rw [tokens, Segment.ofSource_newline h s₂, end_newline, List.filterMap_append,
    List.filterMap_cons, hbelow, dropWhile_tokens, List.map_append, ← Segment.newline_tokens,
    tokens_eq, List.dropLast_concat, heof]
  cases (Segment.newline (Segment.endsLine false (Segment.ofSource s₁))
      (Position.start.advance s₁.toList)).token? <;> simp [textTokens]

theorem errors_joined :
    (scanDiagnostics (s₁ ++ "\n" ++ s₂)).errors =
      (scanDiagnostics s₂).errors.map (Diagnostic.map (Token.down (linesBelow s₁))) := by
  have hnewline : ∀ eol p, Segment.errors (Segment.newline eol p) = [] := by
    intro eol p
    cases eol <;> rfl
  have hfront : (Segment.ofSource s₁).flatMap Segment.errors = [] := by
    rw [← Segment.errors_eq_flatMap]
    exact h
  have hbehind : (Segment.diagnostics (Segment.cut true .start s₂.toList)).errors =
      (scanDiagnostics s₂).errors := by
    rw [Segment.errors_eq_flatMap, Segment.errors_behind_eol, ← Segment.errors_eq_flatMap]
    rfl
  rw [scanDiagnostics, Segment.ofSource_newline h s₂, Segment.errors_eq_flatMap,
    List.flatMap_append, hfront, List.flatMap_cons, hnewline, List.nil_append, List.nil_append,
    ← Segment.errors_eq_flatMap, Segment.diagnostics_down]
  exact congrArg (List.map _) hbehind

/-- **Any two texts with a newline between them**, of which the first one has no errors. -/
theorem scan_newline :
    tokens (s₁ ++ "\n" ++ s₂) = (tokens s₁).dropLast ++ lineEnd s₁ ++
        ((tokens s₂).dropWhile Token.separates).map (Token.down (linesBelow s₁)) ∧
      (scanDiagnostics (s₁ ++ "\n" ++ s₂)).errors =
        (scanDiagnostics s₂).errors.map (Diagnostic.map (Token.down (linesBelow s₁))) :=
  ⟨tokens_joined h s₂, errors_joined h s₂⟩

end Joined

/-- A comment in front of the newline, and behind it a line end, a semicolon and a mistake. -/
theorem scan_newline_comment :
    (scanDiagnostics "a /* 1\n*/; // b").errors = [] ∧
      tokens ("a /* 1\n*/; // b" ++ "\n" ++ "\n; ;c @") =
        [⟨.identifier, "a", ⟨1, 1⟩, false⟩, ⟨.semicolon, ";", ⟨2, 3⟩, false⟩,
          ⟨.eol, "\n", ⟨2, 9⟩, true⟩, ⟨.identifier, "c", ⟨4, 4⟩, false⟩, .eof ⟨4, 7⟩] ∧
      (scanDiagnostics ("a /* 1\n*/; // b" ++ "\n" ++ "\n; ;c @")).errors =
        [⟨.scanning, .error, "unexpected character '@'", ⟨.unknown, "@", ⟨4, 6⟩, false⟩⟩] := by
  have h : (scanDiagnostics "a /* 1\n*/; // b").errors = [] := by decide +kernel
  obtain ⟨htokens, herrors⟩ := scan_newline h "\n; ;c @"
  exact ⟨h, htokens.trans (by decide +kernel), herrors.trans (by decide +kernel)⟩

end LazyDecl
