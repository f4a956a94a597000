import LazyDecl.Proofs.Text.Lexeme
import LazyDecl.Proofs.Text.Lines

/-!
Tokens written out and read back. The lexemes of the tokens of a text, each with a space behind
it, are again a text, and its tokens are the same ones at other places (`tokens_written`),
whatever was wrong with the first text.
-/

namespace LazyDecl

/-- Each lexeme with a space behind it. -/
def written (ts : List Token) : String := String.join (ts.map fun t => t.lexeme ++ " ")

theorem toList_written (ts : List Token) :
    (written ts).toList = ts.flatMap fun t => t.lexeme.toList ++ [' '] := by
  simp [written, List.flatMap_map, String.toList_append]

namespace Segment

theorem cut_space (eol : Bool) (p : Position) (cs : List Char) :
    cut eol p (' ' :: cs) = ⟨.blank, p, [' ']⟩ :: cut eol (p.next ' ') cs := by
  rw [cut_cons, read_blank (by decide)]
  rfl

/-- The token at the start of a text, with a space and more text behind it. -/
theorem cut_again {eol : Bool} {c : Char} {cs : List Char} {kind : TokenKind}
    (h : (read eol c cs).1 = .token kind) (q : Position) (ds : List Char) :
    ∃ q', cut eol q (c :: cs.take (read eol c cs).2 ++ ' ' :: ds) =
      ⟨.token kind, q, c :: cs.take (read eol c cs).2⟩ ::
        ⟨.blank, q.advance (c :: cs.take (read eol c cs).2), [' ']⟩ ::
          cut (afterEol eol (.token kind)) q' ds := by
  refine ⟨(q.advance (c :: cs.take (read eol c cs).2)).next ' ', ?_⟩
  rw [List.cons_append, cut_cons, read_again h, List.take_left, List.drop_left, cut_space]

/-- **Tokens with spaces behind them are cut into tokens and blanks.** Both texts are read behind
the same kind of token all along, so what was not redundant in the one is not in the other. -/
theorem cut_written (eol : Bool) (p q : Position) (cs : List Char) :
    (tokensFrom eol q (written (tokensFrom eol p cs)).toList).map Token.unplaced =
        (tokensFrom eol p cs).map Token.unplaced ∧
      (cut eol q (written (tokensFrom eol p cs)).toList).filterMap diagnostic? = [] := by
  induction eol, p, cs using token_induction generalizing q with
  | nil => simp [tokensFrom, cut, written]
  | token eol p c cs kind hk ih =>
    have htokens := tokensFrom_token (p := p) hk
    generalize tokensFrom (afterEol eol (.token kind)) (p.advance (c :: cs.take (read eol c cs).2))
      (cs.drop (read eol c cs).2) = ts at ih htokens
    have htext : (written (tokensFrom eol p (c :: cs))).toList =
        c :: cs.take (read eol c cs).2 ++ ' ' :: (written ts).toList := by
      rw [htokens, toList_written, toList_written, List.flatMap_cons, String.toList_ofList,
        List.append_assoc]
      rfl
    obtain ⟨q', hcut⟩ := cut_again hk q (written ts).toList
    obtain ⟨hrest, hreports⟩ := ih q'
    rw [htext, tokensFrom, hcut, htokens]
    exact ⟨congrArg (_ :: ·) hrest, hreports⟩
  | other eol p c cs hother ih =>
    rw [tokensFrom_other hother]
    exact ih q

end Segment

theorem filter_tokens (source : String) :
    (tokens source).filter (·.kind ≠ .eof) = textTokens source := by
  rw [tokens_eq, List.filter_append, List.filter_eq_self.2]
  · simp [Token.eof]
  · exact fun t ht => decide_eq_true (plain_textTokens source t ht).1

/-- **Tokens can be written out and read back.** -/
theorem tokens_written (source : String) :
    let text := written ((tokens source).filter (·.kind ≠ .eof))
    (scanDiagnostics text).errors = [] ∧ (scanDiagnostics text).warnings = [] ∧
      (tokens text).map Token.unplaced = (tokens source).map Token.unplaced := by
  intro text
  have htext : text = written (Segment.tokensFrom false .start source.toList) :=
    congrArg written (filter_tokens source)
  obtain ⟨htokens, hreports⟩ := Segment.cut_written false .start .start source.toList
  rw [← htext] at htokens hreports
  have hdiagnostics : (Segment.ofSource text).filterMap Segment.diagnostic? = [] := hreports
  refine ⟨?_, ?_, ?_⟩
  · rw [scanDiagnostics, Segment.diagnostics, hdiagnostics]
    rfl
  · rw [scanDiagnostics, Segment.diagnostics, hdiagnostics]
    rfl
  · rw [tokens_eq, tokens_eq, List.map_append, List.map_append]
    exact congrArg (· ++ _) htokens

end LazyDecl
