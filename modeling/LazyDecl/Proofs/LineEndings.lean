import LazyDecl.Proofs.Grammar.LineUnits
import LazyDecl.Proofs.Session
import LazyDecl.Proofs.Text.CarriageReturn
import LazyDecl.Proofs.Text.Composition

/-!
Line endings. A text with a carriage return in front of every newline runs as the text without
them does (`run_returns`), but for semicolons at the ends of lines: in front of a newline they
are redundant and left out, in front of a carriage return they stay.
-/

namespace LazyDecl

/-- A text with a carriage return in front of every newline. -/
def returns (source : String) : String := String.ofList (withReturns source.toList)

/-- A semicolon and a line end with one character between them. -/
def closesLine (m e : Token) : Bool :=
  m.kind = .semicolon && e.kind = .eol && e.start = ⟨m.start.line, m.start.column + 2⟩

/-- The semicolons in front of the carriage return of a line end, each with the next token behind
it that can be seen. -/
def lineSemicolons : List Token → List (Token × Option Token)
  | m :: e :: ts =>
    if closesLine m e then (m, ts.find? (!·.hidden)) :: lineSemicolons (e :: ts)
    else lineSemicolons (e :: ts)
  | _ => []

/-- One of these semicolons, or the token behind one. -/
def AtLineEnd (ts : List Token) (t : Token) : Prop :=
  ∃ x ∈ lineSemicolons ts, t = x.1 ∨ x.2 = some t

/-- No error stands at the semicolon or at the token behind it, and no expression goes on with
that token. -/
structure Harmless (errors : List SyntaxError) (x : Token × Option Token) : Prop where
  no_error : ∀ e ∈ errors, e.token ≠ x.1 ∧ x.2 ≠ some e.token
  fresh : ∀ t ∈ x.2, t.kind.Fresh

/-- The second tokens are the first ones, at other places and without semicolons in front of line
ends, as far as all of these are watched and no expression goes on behind them. -/
def Sheds (watched : Token → Prop) (ts' ts : List Token) : Prop :=
  (∀ x ∈ lineSemicolons ts', watched x.1 ∧ ∀ t ∈ x.2, watched t ∧ t.kind.Fresh) →
    ∃ us, Drops watched ts' us ∧ us.map Token.unplaced = ts.map Token.unplaced

namespace Sheds

variable {watched : Token → Prop} {ts' ts : List Token}

theorem nil : Sheds watched [] [] := fun _ => ⟨[], .nil, rfl⟩

theorem cons (h : Sheds watched ts' ts) {t' t : Token} (ht : t'.unplaced = t.unplaced)
    (live : t'.kind ≠ .eof) (hidden : t'.hidden = true ↔ t'.kind = .eol)
    (hparted : t'.hidden = true → Parted ts') : Sheds watched (t' :: ts') (t :: ts) := by
  intro hsemicolons
  have hrest : ∀ x ∈ lineSemicolons ts', x ∈ lineSemicolons (t' :: ts') := by
    intro x hx
    cases ts' with
    | nil => cases hx
    | cons e ts' =>
      unfold lineSemicolons
      split
      · exact List.mem_cons_of_mem _ hx
      · exact hx
  obtain ⟨us, hdrops, hus⟩ := h fun x hx => hsemicolons x (hrest x hx)
  refine ⟨t' :: us, .keep live hidden hparted hdrops, ?_⟩
  rw [List.map_cons, List.map_cons, hus, ht]

/-- One more semicolon in front of a line end. -/
theorem drop {m e : Token} (h : Sheds watched (e :: ts') ts) (hm : closesLine m e = true)
    (shown : m.hidden = false) (hidden : e.hidden = true) (hparted : Parted ts') :
    Sheds watched (m :: e :: ts') ts := by
  intro hsemicolons
  rw [lineSemicolons, if_pos hm] at hsemicolons
  obtain ⟨hfirst, hrest⟩ := List.forall_mem_cons.1 hsemicolons
  obtain ⟨us, hdrops, hus⟩ := h hrest
  simp only [closesLine, Bool.and_eq_true, decide_eq_true_eq] at hm
  obtain ⟨⟨hsemicolon, heol⟩, -⟩ := hm
  exact ⟨us, hdrops.drop_front ⟨hsemicolon, shown, heol, hidden, hfirst.1, hfirst.2, hparted⟩, hus⟩

end Sheds

namespace Segment

/-- No semicolon comes first behind a line end. -/
theorem parted_tokensFrom_true (p : Position) (cs : List Char) :
    Parted (tokensFrom true p cs) := by
  intro t ht hk
  have hseparates := head_behind_eol p cs t ht
  rw [Token.separates, hk] at hseparates
  cases hseparates

theorem endsUnit_withReturns {cs : List Char} (h : ∀ ds, cs ≠ '\n' :: ds) :
    endsUnit (withReturns cs) = endsUnit cs := by
  cases cs with
  | nil => rfl
  | cons c cs =>
    have hc : c ≠ '\n' := by
      rintro rfl
      exact h cs rfl
    rw [withReturns_cons hc]
    rfl

variable {watched : Token → Prop}

theorem sheds_newline {eol : Bool} {p : Position} {cs : List Char}
    (h : ∀ q, Sheds watched (tokensFrom true q (withReturns cs)) (tokensFrom true (p.next '\n') cs))
    (q : Position) :
    Sheds watched (tokensFrom eol q (withReturns ('\n' :: cs))) (tokensFrom eol p ('\n' :: cs)) := by
  rw [withReturns_newline, tokensFrom_blank (by decide), tokensFrom_newline, tokensFrom_newline]
  have hrest := h ((q.next '\r').next '\n')
  cases eol with
  | true => exact hrest
  | false => exact hrest.cons rfl (by simp) (by simp) fun _ => parted_tokensFrom_true _ _

/-- A semicolon is redundant in front of a newline, but not in front of a carriage return. -/
theorem sheds_semicolon {eol : Bool} {p : Position} {cs : List Char}
    (h : ∀ q, Sheds watched (tokensFrom eol q (withReturns cs)) (tokensFrom eol (p.next ';') cs))
    (q : Position) :
    Sheds watched (tokensFrom eol q (withReturns (';' :: cs))) (tokensFrom eol p (';' :: cs)) := by
  rw [withReturns_cons (by decide), tokensFrom_semicolon, tokensFrom_semicolon]
  have hrest := h (q.next ';')
  cases eol with
  | true => exact hrest
  | false =>
    rw [Bool.false_or, Bool.false_or]
    by_cases hline : ∃ ds, cs = '\n' :: ds
    · obtain ⟨ds, rfl⟩ := hline
      have hredundant : endsUnit ('\n' :: ds) = true := rfl
      have hkept : endsUnit (withReturns ('\n' :: ds)) = false := rfl
      rw [hredundant, if_pos rfl, hkept, if_neg (by decide)]
      rw [withReturns_newline, tokensFrom_blank (by decide), tokensFrom_newline] at hrest ⊢
      refine hrest.drop ?_ rfl rfl (parted_tokensFrom_true _ _)
      simp [closesLine, Position.next]
    · rw [endsUnit_withReturns fun ds hds => hline ⟨ds, hds⟩]
      cases endsUnit cs with
      | true => exact hrest
      | false => exact hrest.cons rfl (by simp) (by simp) (by simp)

/-- **The tokens of a text with carriage returns** are those of the text, at other places, and
some semicolons that end lines. -/
theorem sheds_withReturns {eol : Bool} {p : Position} {cs : List Char} (q : Position)
    (hstrings : ∀ s ∈ cut eol p cs, s.kind = .token .string → '\n' ∉ s.text) :
    Sheds watched (tokensFrom eol q (withReturns cs)) (tokensFrom eol p cs) := by
  induction eol, p, cs using cut_induction generalizing q with
  | nil eol p =>
    rw [withReturns_nil, tokensFrom_nil, tokensFrom_nil]
    exact .nil
  | cons eol p c cs ih =>
    rw [cut_cons] at hstrings
    obtain ⟨hfirst, hrest⟩ := List.forall_mem_cons.1 hstrings
    have ih (q : Position) := ih q hrest
    by_cases hnewline : c = '\n'
    · subst hnewline
      have hafter : afterEol eol (read eol '\n' cs).1 = true := by
        rw [read_eol]
        cases eol <;> rfl
      have hlength : (read eol '\n' cs).2 = 0 := by rw [read_eol]
      rw [hafter, hlength] at ih
      exact sheds_newline ih q
    by_cases hsemicolon : c = ';'
    · subst hsemicolon
      have hafter : afterEol eol (read eol ';' cs).1 = eol := by
        rw [read_semicolon]
        cases eol <;> cases endsUnit cs <;> rfl
      have hlength : (read eol ';' cs).2 = 0 := by rw [read_semicolon]
      rw [hafter, hlength] at ih
      exact sheds_semicolon ih q
    rw [withReturns_cons hnewline]
    by_cases htoken : ∃ kind, (read eol c cs).1 = .token kind
    · obtain ⟨kind, hk⟩ := htoken
      obtain ⟨live, hkind⟩ := read_isText hnewline hk
      have hline : kind = .string → '\n' ∉ cs.take (read eol c cs).2 := fun hstring hmem =>
        hfirst (hk.trans (congrArg _ hstring)) (List.mem_cons_of_mem _ hmem)
      obtain ⟨q', htokens⟩ := tokensFrom_withReturns hnewline hsemicolon hk hline q
      have hafter : afterEol eol (.token kind) = false := decide_eq_false hkind
      rw [hk, hafter] at ih
      rw [htokens, tokensFrom_text hnewline hk]
      exact (ih q').cons rfl live (by simp [hkind]) (by simp)
    · have hother : ∀ kind, (read eol c cs).1 ≠ .token kind := fun kind hk => htoken ⟨kind, hk⟩
      obtain ⟨q', htokens⟩ := tokensFrom_withReturns_other hnewline hsemicolon hother q
      rw [afterEol_other hother] at ih
      rw [htokens, tokensFrom_other hother]
      exact ih q'

end Segment

/-! ## Programs and sessions -/

/-- Tokens apart from where they stand. -/
def unplaced : Relabeling := ⟨Token.unplaced, fun _ => rfl, fun _ => rfl, fun _ => rfl⟩

theorem textTokens_returns (source : String) :
    textTokens (returns source) =
      Segment.tokensFrom false .start (withReturns source.toList) := by
  rw [textTokens, Segment.ofSource, returns, String.toList_ofList]
  rfl

/-- Where all semicolons in front of a line end are harmless, the program of the text with
carriage returns is that of the text, at other places. -/
theorem program_returns (mode : Mode) {source : String}
    (hstrings : ∀ s ∈ Segment.ofSource source, s.kind = .token .string → '\n' ∉ s.text)
    (hsemicolons : ∀ x ∈ lineSemicolons (textTokens (returns source)),
      Harmless (Grammar.program mode (tokens (returns source))).2 x) :
    (Grammar.program mode (tokens (returns source))).1.map Token.unplaced =
        (Grammar.program mode (tokens source)).1.map Token.unplaced ∧
      (Grammar.program mode (tokens (returns source))).2.map (SyntaxError.relabel unplaced) =
        (Grammar.program mode (tokens source)).2.map (SyntaxError.relabel unplaced) := by
  have hsheds : Sheds (AtLineEnd (textTokens (returns source))) (textTokens (returns source))
      (textTokens source) := by
    generalize AtLineEnd (textTokens (returns source)) = watched
    rw [textTokens_returns]
    exact Segment.sheds_withReturns .start hstrings
  obtain ⟨us, hdrops, hus⟩ := hsheds fun x hx =>
    ⟨⟨x, hx, .inl rfl⟩, fun t ht => ⟨⟨x, hx, .inr ht⟩, (hsemicolons x hx).fresh t ht⟩⟩
  have hprogram : Grammar.program mode (tokens (returns source)) =
      Grammar.program mode
        (us ++ [Token.eof (Position.start.advance (returns source).toList)]) := by
    rw [tokens_eq] at hsemicolons ⊢
    refine Grammar.program_drops mode hdrops rfl fun e he => ?_
    rintro ⟨x, hx, hwatched⟩
    obtain ⟨hfirst, hnext⟩ := (hsemicolons x hx).no_error e he
    exact hwatched.elim hfirst hnext
  have htokens : (us ++ [Token.eof (Position.start.advance (returns source).toList)]).map unplaced =
      (tokens source).map unplaced := by
    have hus : us.map unplaced = (textTokens source).map unplaced := hus
    have hfinal : ∀ p, unplaced (Token.eof p) = Token.eof .start := fun _ => rfl
    rw [tokens_eq, List.map_append, List.map_append, hus, List.map_singleton, List.map_singleton,
      hfinal, hfinal]
  have hmapped := congrArg (Grammar.program mode) htokens
  rw [Grammar.program_relabel unplaced mode rfl, tokens_eq source,
    Grammar.program_relabel unplaced mode rfl, ← hprogram, ← tokens_eq] at hmapped
  exact Prod.mk.inj hmapped

/-- A fresh session does the same with other tokens. -/
theorem Program.evaluate_map {f : Token → Token} (hf : ∀ t, (f t).lexeme = t.lexeme)
    (p : Program) : ((p.map f).evaluate ∅).1 = (p.evaluate ∅).1.map f := by
  have h := evaluate_moved hf p [] ∅
  have hempty : (∅ : Declarations Expr Value).mapBodies (Expr.map f) = ∅ := rfl
  rw [hempty] at h
  rw [Program.evaluate, h]
  rfl

namespace Session

/-- **A carriage return in front of every newline makes no difference** to what a fresh session
does with a text without newlines in its string literals, as long as all semicolons in front of
a line end are harmless. The values, errors and warnings are the same, but for places. -/
theorem run_returns (mode : Mode) {source : String}
    (hstrings : ∀ s ∈ Segment.ofSource source, s.kind = .token .string → '\n' ∉ s.text)
    (hsemicolons : ∀ x ∈ lineSemicolons (textTokens (returns source)),
      Harmless (Grammar.program mode (tokens (returns source))).2 x) :
    let plain := (({} : Session).run mode source).1
    let returned := (({} : Session).run mode (returns source)).1
    returned.values = plain.values ∧
      returned.syntactic.map Token.unplaced = plain.syntactic.map Token.unplaced ∧
      returned.evaluation.map Token.unplaced = plain.evaluation.map Token.unplaced := by
  obtain ⟨hprogram, herrors⟩ := program_returns mode hstrings hsemicolons
  have hlexeme : ∀ t : Token, t.unplaced.lexeme = t.lexeme := fun _ => rfl
  have heval := Program.evaluate_map hlexeme (Grammar.program mode (tokens (returns source))).1
  rw [hprogram, Program.evaluate_map hlexeme] at heval
  intro plain returned
  refine ⟨?_, ?_, ?_⟩
  · rw [values_run, values_run, ← Evaluation.values_map Token.unplaced, ← heval,
      Evaluation.values_map]
  · rw [syntactic_run, syntactic_run]
    exact (Grammar.diagnostics_relabel unplaced _).symm.trans
      ((congrArg _ herrors).trans (Grammar.diagnostics_relabel unplaced _))
  · rw [evaluation_run, evaluation_run, ← Evaluation.diagnostics_map, ← Evaluation.diagnostics_map]
    exact congrArg _ heval.symm

/-- A name behind the semicolon does it no harm, and it is the one at fault in both texts. -/
theorem run_returns_name :
    (∀ s ∈ Segment.ofSource "1;\nb", s.kind = .token .string → '\n' ∉ s.text) ∧
      (∀ x ∈ lineSemicolons (textTokens (returns "1;\nb")),
        Harmless (Grammar.program .interactive (tokens (returns "1;\nb"))).2 x) ∧
      (run {} .interactive (returns "1;\nb")).1.values =
        (run {} .interactive "1;\nb").1.values ∧
      (run {} .interactive (returns "1;\nb")).1.values.map Value.text = ["1"] ∧
      (run {} .interactive (returns "1;\nb")).1.evaluation.errors.map (·.token.lexeme) = ["b"] := by
  have hstrings : ∀ s ∈ Segment.ofSource "1;\nb", s.kind = .token .string → '\n' ∉ s.text := by
    decide +kernel
  have hline : lineSemicolons (textTokens (returns "1;\nb")) =
      [(⟨.semicolon, ";", ⟨1, 2⟩, false⟩, some ⟨.identifier, "b", ⟨2, 1⟩, false⟩)] := by
    decide +kernel
  have herrors : (Grammar.program .interactive (tokens (returns "1;\nb"))).2 = [] := by
    decide +kernel
  have hsemicolons : ∀ x ∈ lineSemicolons (textTokens (returns "1;\nb")),
      Harmless (Grammar.program .interactive (tokens (returns "1;\nb"))).2 x := by
    rw [hline, herrors, List.forall_mem_singleton]
    refine ⟨fun e he => absurd he List.not_mem_nil, fun t ht => ?_⟩
    cases ht
    exact TokenKind.fresh_of_name (.inl rfl)
  obtain ⟨hvalues, -⟩ := run_returns .interactive hstrings hsemicolons
  exact ⟨hstrings, hsemicolons, hvalues, by decide +kernel, by decide +kernel⟩

/-- Not all semicolons in front of a line end are harmless. In a line of its own a semicolon is
redundant, but in front of a carriage return it is an error. -/
theorem returns_noticed : ¬∀ (mode : Mode) (source : String), '\r' ∉ source.toList →
    (∀ s ∈ Segment.ofSource source, s.kind = .token .string → '\n' ∉ s.text) →
    let plain := (({} : Session).run mode source).1
    let returned := (({} : Session).run mode (returns source)).1
    returned.values = plain.values ∧
      returned.syntactic.errors.map (·.message) = plain.syntactic.errors.map (·.message) ∧
      returned.evaluation.errors.map (·.message) = plain.evaluation.errors.map (·.message) := by
  intro h
  obtain ⟨-, hsyntactic, -⟩ := h .interactive ";\n1" (by decide +kernel) (by decide +kernel)
  have hplain : (run {} .interactive ";\n1").1.syntactic.errors.map (·.message) = [] := by
    decide +kernel
  have hreturned : (run {} .interactive (returns ";\n1")).1.syntactic.errors.map (·.message) =
      ["expect expression"] := by
    decide +kernel
  rw [hplain, hreturned] at hsyntactic
  cases hsyntactic

end Session

end LazyDecl
