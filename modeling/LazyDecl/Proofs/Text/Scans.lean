import LazyDecl.Proofs.Text.Lexeme
import LazyDecl.Proofs.Text.Lines

/-!
Pieces of a text and their tokens. A piece scans to tokens in front of a rest if it is cut into
just these, wherever it stands, and nothing is reported (`Segment.Scans`). Pieces behind one
another scan to their tokens behind one another (`Scans.append`).
-/

namespace LazyDecl.Segment

/-- In front of `rest` the piece is cut into these tokens, apart from where they stand. -/
def Scans (cs rest : List Char) (ts : List Token) : Prop :=
  ∀ p, ∃ q, (tokensFrom false p (cs ++ rest)).map Token.unplaced =
      ts ++ (tokensFrom false q rest).map Token.unplaced ∧
    (cut false p (cs ++ rest)).filterMap diagnostic? = (cut false q rest).filterMap diagnostic?

section Scans

variable {cs ds rest : List Char} {ts us : List Token}

theorem Scans.append (h : Scans cs (ds ++ rest) ts) (h' : Scans ds rest us) :
    Scans (cs ++ ds) rest (ts ++ us) := by
  intro p
  obtain ⟨q, htokens, hreports⟩ := h p
  obtain ⟨q', htokens', hreports'⟩ := h' q
  refine ⟨q', ?_, ?_⟩
  · rw [List.append_assoc, htokens, htokens', List.append_assoc]
  · rw [List.append_assoc, hreports, hreports']

theorem scans_token {c : Char} {kind : TokenKind} (hnewline : c ≠ '\n')
    (h : read false c (cs ++ rest) = (.token kind, cs.length)) :
    Scans (c :: cs) rest [{ kind, lexeme := String.ofList (c :: cs), start := .start }] := by
  intro p
  have hkind := congrArg Prod.fst h
  refine ⟨p.advance (c :: cs), ?_, ?_⟩
  · rw [List.cons_append, tokensFrom_text hnewline hkind, h, List.take_left, List.drop_left]
    rfl
  · have hafter : afterEol false (.token kind) = false := by
      simp [afterEol, (read_isText hnewline hkind).2]
    rw [List.cons_append, cut_cons, h, List.take_left, List.drop_left, hafter]
    rfl

/-- A lexeme in front of what does not go on with it. -/
theorem IsLexeme.scans {c : Char} {kind : TokenKind} (h : IsLexeme kind (c :: cs))
    (hnewline : c ≠ '\n') (hsemicolon : c ≠ ';') (hrest : ∀ d ∈ rest.head?, Stops d) :
    Scans (c :: cs) rest [{ kind, lexeme := String.ofList (c :: cs), start := .start }] :=
  scans_token hnewline (h.read_eq hnewline hsemicolon false hrest)

/-- A mark that is no part of a longer one, whatever stands behind it. -/
theorem scans_mark {c : Char} {kind : TokenKind} (h : TokenKind.ofChar? c = some kind)
    (hslash : c ≠ '/') (hpair : ∀ d ∈ rest.head?, TokenKind.ofPair? c d = none) :
    Scans [c] rest [{ kind, lexeme := String.ofList [c], start := .start }] := by
  refine scans_token (isMark_of_ofChar? h).ne_newline ?_
  have hnone : rest.head?.bind (TokenKind.ofPair? c) = none := Option.bind_eq_none_iff.2 hpair
  rw [List.nil_append, read_mark (isMark_of_ofChar? h) fun he => absurd he hslash]
  simp [readSymbol, hnone, h]

theorem scans_blank {c : Char} (h : isBlank c = true) (rest : List Char) : Scans [c] rest [] := by
  intro p
  refine ⟨p.next c, ?_, ?_⟩
  · rw [List.singleton_append, tokensFrom_blank h, List.nil_append]
  · rw [List.singleton_append, cut_cons, read_blank h]
    rfl

end Scans

end LazyDecl.Segment

namespace LazyDecl

/-- A whole text. -/
theorem Segment.Scans.text {source : String} {ts : List Token}
    (h : Segment.Scans source.toList [] ts) :
    (tokens source).map Token.unplaced = ts ++ [.eof .start] ∧
      (scanDiagnostics source).errors = [] ∧ (scanDiagnostics source).warnings = [] := by
  obtain ⟨q, htokens, hreports⟩ := h .start
  rw [List.append_nil] at htokens hreports
  have hdiagnostics : (Segment.ofSource source).filterMap Segment.diagnostic? = [] := by
    rw [Segment.ofSource, hreports, Segment.cut]
    rfl
  refine ⟨?_, ?_, ?_⟩
  · rw [Segment.tokensFrom_nil, List.map_nil, List.append_nil] at htokens
    rw [tokens_eq, List.map_append]
    exact congrArg (· ++ _) htokens
  · rw [scanDiagnostics, Segment.diagnostics, hdiagnostics]
    rfl
  · rw [scanDiagnostics, Segment.diagnostics, hdiagnostics]
    rfl

end LazyDecl
