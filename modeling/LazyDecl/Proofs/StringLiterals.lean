import LazyDecl.Proofs.Grammar.Printing
import LazyDecl.Proofs.Text.Lexeme
import LazyDecl.Proofs.Text.Lines

/-!
Texts written as string literals. A text can be written between quotes in many ways, because a
newline may stand raw or as an escape, and line continuations stand for nothing.

* `Quoted.Writes`: the ways of writing a text;
* `Quoted.inside_iff_writes`: what the scanner takes for the inside of a literal is a writing of
  some text, and only of the text that it denotes (`Quoted.Writes.decodeBody_eq`);
* `string_literals`: each writing is one token, which denotes the text, and each string token is
  a writing of the text that it denotes.
-/

namespace LazyDecl

namespace Quoted

/-- The second text stands for the first one between quotes. A newline is plain as well. -/
inductive Writes : List Char → List Char → Prop where
  | nil : Writes [] []
  | plain {c : Char} {t inside : List Char} : c ≠ '\\' → c ≠ '"' → Writes t inside →
      Writes (c :: t) (c :: inside)
  | backslash {t inside : List Char} : Writes t inside → Writes ('\\' :: t) ('\\' :: '\\' :: inside)
  | quote {t inside : List Char} : Writes t inside → Writes ('"' :: t) ('\\' :: '"' :: inside)
  | newline {t inside : List Char} : Writes t inside → Writes ('\n' :: t) ('\\' :: 'n' :: inside)
  | continued {t inside : List Char} : Writes t inside → Writes t ('\\' :: '\n' :: inside)

/-- The literal is a writing of the text, quotes included. -/
def IsWriting (t literal : String) : Prop :=
  ∃ inside, Writes t.toList inside ∧ literal.toList = '"' :: (inside ++ ['"'])

section Writes

variable {t inside : List Char}

theorem decodeBody_plain {c : Char} (h : c ≠ '\\') (cs : List Char) :
    decodeBody (c :: cs) = c :: decodeBody cs := by
  rw [decodeBody.eq_def]
  simp only [if_neg h]

theorem decodeBody_pair (d : Char) (cs : List Char) :
    decodeBody ('\\' :: d :: cs) =
      if d = 'n' then '\n' :: decodeBody cs
      else if d = '\n' then decodeBody cs
      else d :: decodeBody cs := by
  rw [decodeBody.eq_def]
  rfl

/-- **What is written is decoded.** -/
theorem Writes.decodeBody_eq (h : Writes t inside) : decodeBody inside = t := by
  induction h with
  | nil => rfl
  | plain hb _ _ ih => rw [decodeBody_plain hb, ih]
  | backslash _ ih | quote _ ih | newline _ ih | continued _ ih =>
    rw [decodeBody_pair, ih]
    rfl

/-- No writing holds a quote that would end it, or a pair without a meaning. -/
theorem Writes.to_inside (h : Writes t inside) : Inside true inside := by
  induction h with
  | nil => exact .nil
  | plain hb hq _ ih => exact .plain hq hb ih
  | backslash _ ih | quote _ ih | newline _ ih | continued _ ih => exact .pair (fun _ => by decide) ih

theorem Inside.writes {strict : Bool} (h : Inside strict inside) (hs : strict = true) :
    Writes (decodeBody inside) inside := by
  induction h with
  | nil => exact .nil
  | plain hq hb _ ih =>
    rw [decodeBody_plain hb]
    exact .plain hb hq ih
  | @pair d cs hd _ ih =>
    have hescape := hd hs
    simp only [List.mem_cons, List.not_mem_nil, or_false] at hescape
    rw [decodeBody_pair]
    obtain rfl | rfl | rfl | rfl := hescape
    · exact .newline ih
    · exact .backslash ih
    · exact .quote ih
    · exact .continued ih

/-- **The insides of literals are the writings of texts.** -/
theorem inside_iff_writes : Inside true inside ↔ Writes (decodeBody inside) inside :=
  ⟨fun h => h.writes rfl, Writes.to_inside⟩

end Writes

theorem body_quoted (inside : List Char) : body ('"' :: (inside ++ ['"'])) = inside := by
  simp [body]

/-- A literal denotes the text that it is a writing of. -/
theorem IsWriting.decode_eq {t literal : String} (h : IsWriting t literal) :
    decode literal = t := by
  obtain ⟨inside, hwrites, hliteral⟩ := h
  rw [decode, hliteral, body_quoted, hwrites.decodeBody_eq, String.ofList_toList]

/-- The lexemes of string tokens are writings. -/
theorem isWriting_of_inside {literal : String} {inside : List Char} (h : Inside true inside)
    (hliteral : literal.toList = '"' :: (inside ++ ['"'])) :
    IsWriting (decode literal) literal := by
  refine ⟨inside, ?_, hliteral⟩
  rw [decode, hliteral, body_quoted, String.toList_ofList]
  exact inside_iff_writes.1 h

end Quoted

namespace Segment

/-- The tokens of a text are lexemes of their kinds. -/
theorem isLexeme_of_mem {eol : Bool} {p : Position} {cs : List Char} {t : Token}
    (h : t ∈ tokensFrom eol p cs) : IsLexeme t.kind t.lexeme.toList := by
  induction eol, p, cs using cut_induction with
  | nil => simp [tokensFrom, cut] at h
  | cons eol p c cs ih =>
    rw [tokensFrom, cut_cons, List.filterMap_cons] at h
    cases hk : (read eol c cs).1 with
    | token kind =>
      rw [hk] at h ih
      rcases List.mem_cons.1 h with rfl | h
      · simpa using read_isLexeme hk
      · exact ih h
    | _ =>
      rw [hk] at h ih
      exact ih h

/-- A text that is one lexeme is cut into its token. -/
theorem IsLexeme.cut_eq {kind : TokenKind} {c : Char} {cs : List Char}
    (h : IsLexeme kind (c :: cs)) (hnewline : c ≠ '\n') (hsemicolon : c ≠ ';') (eol : Bool)
    (p : Position) : cut eol p (c :: cs) = [⟨.token kind, p, c :: cs⟩] := by
  have hstops : ∀ d ∈ ([] : List Char).head?, Stops d := nofun
  have hread := h.read_eq hnewline hsemicolon eol hstops
  rw [List.append_nil] at hread
  rw [cut_cons, hread, List.take_length, List.drop_length, cut]

end Segment

/-- The token of a string literal at the start of a text. -/
def literalToken (literal : String) : Token :=
  { kind := .string, lexeme := literal, start := .start }

section Literal

variable {t literal : String}

theorem Quoted.IsWriting.ofSource_eq (h : IsWriting t literal) :
    Segment.ofSource literal = [⟨.token .string, .start, literal.toList⟩] := by
  obtain ⟨inside, hwrites, hliteral⟩ := h
  rw [Segment.ofSource, hliteral]
  exact (Segment.IsLexeme.string hwrites.to_inside).cut_eq (by decide) (by decide) false .start

theorem Quoted.IsWriting.tokens_eq (h : IsWriting t literal) :
    tokens literal =
      [literalToken literal, Token.eof (Position.start.advance literal.toList)] := by
  rw [tokens, h.ofSource_eq]
  simp [Segment.token?, literalToken]

/-- The token of a literal is read as the literal of the text. -/
theorem Quoted.IsWriting.program_eq (h : IsWriting t literal) :
    Grammar.program .interactive (tokens literal) =
      (.interactive [.expression (.literal (.string t) (literalToken literal))], []) := by
  have hread : Grammar.literal? (literalToken literal) = some (.ok (.string t)) := by
    rw [← h.decode_eq]
    rfl
  rw [h.tokens_eq]
  exact Grammar.prompt_print .bare (e := .literal (.string t) (literalToken literal)) rfl
    ⟨rfl, hread⟩ (nofun : TokenKind.string ≠ .identifier)

/-- **String literals.** Each way of writing a text between quotes is one string token, without
a diagnostic, that denotes the text and is read as its literal. The lexeme of each string token
of a source is such a writing of the text that it denotes. -/
theorem string_literals :
    (∀ t literal : String, Quoted.IsWriting t literal →
      tokens literal =
          [literalToken literal, Token.eof (Position.start.advance literal.toList)] ∧
        (scanDiagnostics literal).errors = [] ∧ (scanDiagnostics literal).warnings = [] ∧
        Quoted.decode literal = t ∧
        Grammar.program .interactive (tokens literal) =
          (.interactive [.expression (.literal (.string t) (literalToken literal))], [])) ∧
    ∀ source : String, ∀ token ∈ tokens source, token.kind = .string →
      Quoted.IsWriting (Quoted.decode token.lexeme) token.lexeme := by
  constructor
  · intro t literal h
    have hdiagnostics : scanDiagnostics literal = { phase := .scanning } := by
      rw [scanDiagnostics, h.ofSource_eq]
      rfl
    refine ⟨h.tokens_eq, ?_, ?_, h.decode_eq, h.program_eq⟩
    · rw [hdiagnostics]
    · rw [hdiagnostics]
  · intro source token htoken hk
    rw [tokens_eq] at htoken
    rcases List.mem_append.1 htoken with hmem | hmem
    · have hlexeme := Segment.isLexeme_of_mem (show token ∈ Segment.tokensFrom false _ _ from hmem)
      rw [hk] at hlexeme
      obtain ⟨inside, hinside, hlexeme⟩ := hlexeme.inside_of_string
      exact Quoted.isWriting_of_inside hinside hlexeme
    · rw [List.mem_singleton.1 hmem] at hk
      cases hk

/-- A backslash, a quote and two newlines, of which one is an escape, with a line continuation
between them; and a string token beside what is malformed. -/
theorem string_literals_mixed :
    Quoted.IsWriting "\\\"\n\n" "\"\\\\\\\"\\\n\\n\n\"" ∧
      Quoted.decode "\"\\\\\\\"\\\n\\n\n\"" = "\\\"\n\n" ∧
      (⟨.string, "\"p\\\"\"", ⟨1, 3⟩, false⟩ : Token) ∈ tokens "x \"p\\\"\" @ \"bad\\q\"" ∧
      Quoted.IsWriting (Quoted.decode "\"p\\\"\"") "\"p\\\"\"" := by
  have ht : "\\\"\n\n".toList = ['\\', '"', '\n', '\n'] := by decide
  have hwrites : Quoted.Writes "\\\"\n\n".toList
      ['\\', '\\', '\\', '"', '\\', '\n', '\\', 'n', '\n'] := by
    rw [ht]
    exact .backslash (.quote (.continued (.newline (.plain (by decide) (by decide) .nil))))
  have hwriting : Quoted.IsWriting "\\\"\n\n" "\"\\\\\\\"\\\n\\n\n\"" :=
    ⟨_, hwrites, by decide⟩
  have hmem : (⟨.string, "\"p\\\"\"", ⟨1, 3⟩, false⟩ : Token) ∈
      tokens "x \"p\\\"\" @ \"bad\\q\"" := by decide +kernel
  obtain ⟨-, -, -, hdecode, -⟩ := string_literals.1 _ _ hwriting
  have hlexeme := string_literals.2 _ _ hmem rfl
  exact ⟨hwriting, hdecode, hmem, hlexeme⟩

end Literal

end LazyDecl
