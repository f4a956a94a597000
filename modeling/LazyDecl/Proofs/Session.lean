import LazyDecl.Session
import LazyDecl.Proofs.Eval.Carry
import LazyDecl.Proofs.Grammar.Chunks

/-!
Sessions do not see where one text ends and the next one begins, as long as the first one is
read without an error and the second one opens with a name (`run_newline`).

A message about a name in the table points at the text that declared it, so not all tokens
that come up while the second text runs are its own. To tell them apart, it is run once
with its own tokens below all that the table points at (`Session.apart`). Both ways to run
it give what that run does, with these tokens put back where they stand.
-/

namespace LazyDecl

/-! ## Tokens set apart -/

/-- The tokens that a table points at. -/
def Declarations.tokens (d : Declarations Expr Value) : List Token :=
  d.entries.flatMap fun e =>
    match e.2 with
    | .deferred body => body.tokens
    | _ => []

/-- A line that no token of the table reaches. -/
def Declarations.bottom (d : Declarations Expr Value) : Nat :=
  d.tokens.foldr (fun t n => max (t.start.line + 1) n) 0

theorem Declarations.line_lt_bottom {d : Declarations Expr Value} {t : Token}
    (h : t ∈ d.tokens) : t.start.line < d.bottom := by
  unfold bottom
  generalize d.tokens = ts at h ⊢
  induction ts with
  | nil => cases h
  | cons u ts ih =>
    rw [List.foldr_cons]
    rcases List.mem_cons.1 h with rfl | h
    · omega
    · have := ih h
      omega

namespace Token

/-- Brings a token that was set apart by `k` lines back to its place, in a text with `n` lines
in front. Tokens above the line `k` were not set apart and stay. -/
def settle (k n : Nat) (t : Token) : Token :=
  if k ≤ t.start.line then { t with start := { t.start with line := t.start.line - k + n } } else t

theorem lexeme_settle (k n : Nat) (t : Token) : (t.settle k n).lexeme = t.lexeme := by
  unfold settle
  split <;> rfl

theorem settle_of_lt {k n : Nat} {t : Token} (h : t.start.line < k) : t.settle k n = t :=
  if_neg (Nat.not_le.2 h)

theorem settle_down (k n : Nat) (t : Token) : (t.down k).settle k n = t.down n := by
  simp [settle, down, Position.down]

theorem down_zero : down 0 = id := rfl

end Token

theorem mapBodies_settle (d : Declarations Expr Value) (n : Nat) :
    d.mapBodies (Expr.map (Token.settle d.bottom n)) = d := by
  refine Declarations.mapBodies_eq_self fun name body hbody => body.map_eq_self fun t ht => ?_
  exact Token.settle_of_lt (Declarations.line_lt_bottom (List.mem_flatMap.2 ⟨_, hbody, ht⟩))

theorem Program.map_settle (p : Program) (k n : Nat) :
    (p.map (Token.down k)).map (Token.settle k n) = p.map (Token.down n) := by
  rw [Program.map_map]
  exact congrArg p.map (funext (Token.settle_down k n))

/-! ## Programs of two texts -/

namespace Grammar

/-- The program of two texts has the units of both, and the errors of the second one. -/
theorem program_newline {mode : Mode} {s₁ s₂ : String} (h₁ : (scanDiagnostics s₁).errors = [])
    (hr : (program mode (tokens s₁)).2 = [])
    (h₂ : OpensWithName (textTokens s₂)) :
    (program mode (tokens (s₁ ++ "\n" ++ s₂))).1.units = (program mode (tokens s₁)).1.units ++
        ((program mode (tokens s₂)).1.map (Token.down (linesBelow s₁))).units ∧
      (program mode (tokens (s₁ ++ "\n" ++ s₂))).2 =
        (program mode (tokens s₂)).2.map (SyntaxError.relabel (shifted (linesBelow s₁))) := by
  cases mode with
  | batch =>
    simp only [program, Program.units, Program.map] at hr ⊢
    rw [units_newline unitParser_statement h₁ hr h₂]
    simp only [accepted_append, rejected_append, accepted_relabel, rejected_relabel, hr,
      List.map_append, List.nil_append, and_self]
  | interactive =>
    simp only [program, Program.units, Program.map] at hr ⊢
    rw [units_newline unitParser_item h₁ hr h₂]
    simp only [accepted_append, rejected_append, accepted_relabel, rejected_relabel, hr,
      List.map_append, List.nil_append, and_self]

theorem diagnostics_relabel (ρ : Relabeling) (errors : List SyntaxError) :
    diagnostics (errors.map (SyntaxError.relabel ρ)) = (diagnostics errors).map ρ := by
  simp only [diagnostics, Diagnostics.map, List.map_map]
  rfl

end Grammar

namespace Evaluation

/-- The evaluation of more units behind those of the first one. -/
instance : Append Evaluation where
  append e e' := { results := e.results ++ e'.results, warnings := e.warnings ++ e'.warnings }

theorem values_append (e e' : Evaluation) : (e ++ e').values = e.values ++ e'.values :=
  List.filterMap_append

theorem diagnostics_append (e e' : Evaluation) :
    (e ++ e').diagnostics = e.diagnostics ++ e'.diagnostics := by
  have herrors : (e ++ e').errors = e.errors ++ e'.errors := List.filterMap_append
  have hwarnings : (e ++ e').warnings = e.warnings ++ e'.warnings := rfl
  simp only [diagnostics, herrors, hwarnings, List.map_append]
  rfl

variable (f : Token → Token) (e : Evaluation)

theorem values_map : (e.map f).values = e.values := by
  simp only [values, map, List.filterMap_map]
  refine List.filterMap_congr fun r _ => ?_
  cases r <;> rfl

theorem errors_map : (e.map f).errors = e.errors.map (EvalError.map f) := by
  simp only [errors, map, List.filterMap_map, List.map_filterMap]
  refine List.filterMap_congr fun r _ => ?_
  cases r <;> rfl

theorem diagnostics_map : (e.map f).diagnostics = e.diagnostics.map f := by
  simp only [diagnostics, errors_map, Diagnostics.map, List.map_map]
  simp only [map, List.map_map]
  rfl

end Evaluation

/-! ## Sessions -/

namespace Session

/-- What a text comes to when its tokens stand below all that the table points at. -/
def apart (s : Session) (mode : Mode) (source : String) :
    Evaluation × Declarations Expr Value :=
  ((Grammar.program mode (tokens source)).1.map (Token.down s.declarations.bottom)).evaluate
    s.declarations

/-- The same text further up, behind the warnings `ws`. -/
theorem all_apart (s : Session) (mode : Mode) (source : String) (n : Nat)
    (ws : List EvalWarning) :
    Eval.all ((Grammar.program mode (tokens source)).1.map (Token.down n)).units
        { declarations := s.declarations, warnings := ws } =
      (((s.apart mode source).1.map (Token.settle s.declarations.bottom n)).results,
        { declarations := (s.apart mode source).2.mapBodies
            (Expr.map (Token.settle s.declarations.bottom n))
          warnings := ws ++
            ((s.apart mode source).1.map (Token.settle s.declarations.bottom n)).warnings }) := by
  have h := evaluate_moved (Token.lexeme_settle s.declarations.bottom n)
    ((Grammar.program mode (tokens source)).1.map (Token.down s.declarations.bottom)) ws
    s.declarations
  rw [Program.map_settle, mapBodies_settle] at h
  exact h

section Run

variable (s : Session) (mode : Mode) (source : String)

theorem values_run : (s.run mode source).1.values =
    ((Grammar.program mode (tokens source)).1.evaluate s.declarations).1.values := rfl

theorem syntactic_run : (s.run mode source).1.syntactic =
    Grammar.diagnostics (Grammar.program mode (tokens source)).2 := rfl

theorem evaluation_run : (s.run mode source).1.evaluation =
    ((Grammar.program mode (tokens source)).1.evaluate s.declarations).1.diagnostics := rfl

theorem declarations_run : (s.run mode source).2.declarations =
    ((Grammar.program mode (tokens source)).1.evaluate s.declarations).2 := rfl

end Run

/-- Runs source texts one after the other. -/
def runs (s : Session) : List (Mode × String) → List Outcome × Session
  | [] => ([], s)
  | (mode, source) :: chunks =>
    let (outcome, next) := s.run mode source
    let (outcomes, last) := next.runs chunks
    (outcome :: outcomes, last)

/-- Runs evaluate the programs of their texts one after the other. -/
theorem evaluation_runs (s : Session) (chunks : List (Mode × String)) :
    let programs := chunks.map fun chunk => (Grammar.program chunk.1 (tokens chunk.2)).1
    (s.runs chunks).1.map (·.evaluation) =
        (evaluateAll programs s.declarations).1.map Evaluation.diagnostics ∧
      (s.runs chunks).2.declarations = (evaluateAll programs s.declarations).2 := by
  induction chunks generalizing s with
  | nil => exact ⟨rfl, rfl⟩
  | cons chunk chunks ih =>
    obtain ⟨hrest, hlast⟩ := ih (s.run chunk.1 chunk.2).2
    exact ⟨congrArg (_ :: ·) hrest, hlast⟩

/-- The end mark is the only token that is behind those of the text. -/
theorem opens_of_tokens {source : String}
    (h : ∀ t ∈ (tokens source).find? (!·.hidden), t.kind = .identifier ∨ t.kind = .eof) :
    OpensWithName (textTokens source) := by
  intro t ht
  have htokens : (tokens source).find? (!·.hidden) = some t := by
    rw [tokens_eq, List.find?_append, ht]
    rfl
  exact (h t htokens).resolve_right (plain_textTokens source t (List.mem_of_find?_eq_some ht)).1

theorem evaluate_apart (s : Session) (mode : Mode) (source : String) :
    (Grammar.program mode (tokens source)).1.evaluate s.declarations =
      ((s.apart mode source).1.map (Token.settle s.declarations.bottom 0),
        (s.apart mode source).2.mapBodies
          (Expr.map (Token.settle s.declarations.bottom 0))) := by
  have h := s.all_apart mode source 0 []
  rw [Token.down_zero, Program.map_id] at h
  rw [Program.evaluate, h]
  rfl

/-- The evaluation of two texts is that of the first one and then, on what that leaves, that
of the second one. -/
theorem evaluate_newline (s : Session) {mode : Mode} {s₁ s₂ : String}
    (h : (Grammar.program mode (tokens (s₁ ++ "\n" ++ s₂))).1.units =
      (Grammar.program mode (tokens s₁)).1.units ++
        ((Grammar.program mode (tokens s₂)).1.map (Token.down (linesBelow s₁))).units) :
    let next := (s.run mode s₁).2
    let place := Token.settle next.declarations.bottom (linesBelow s₁)
    (Grammar.program mode (tokens (s₁ ++ "\n" ++ s₂))).1.evaluate s.declarations =
      (((Grammar.program mode (tokens s₁)).1.evaluate s.declarations).1 ++
          (next.apart mode s₂).1.map place,
        (next.apart mode s₂).2.mapBodies (Expr.map place)) := by
  intro next place
  have hall := next.all_apart mode s₂ (linesBelow s₁)
    ((Grammar.program mode (tokens s₁)).1.evaluate s.declarations).1.warnings
  rw [Program.evaluate, h, Eval.all_append]
  have hstate : (Eval.all (Grammar.program mode (tokens s₁)).1.units
      { declarations := s.declarations }).2 =
        { declarations := next.declarations
          warnings := ((Grammar.program mode (tokens s₁)).1.evaluate s.declarations).1.warnings } :=
    rfl
  rw [hstate, hall]
  rfl

/-- **Where one text ends and the next one begins makes no difference.** The first text is
read without an error, and the second one opens with a name or is empty. Run one after the
other or as one text with a newline between them, they give the same values, reports and
declarations, but for the lines of tokens from the second text. In `apart` these are the
tokens from the line `k` on; the two ways to run it put them `0` and `n` lines below their
places in it. -/
theorem run_newline (s : Session) (mode : Mode) {s₁ s₂ : String}
    (h₁ : (scanDiagnostics s₁).errors = [])
    (hr : (Grammar.program mode (tokens s₁)).2 = [])
    (h₂ : ∀ t ∈ (tokens s₂).find? (!·.hidden), t.kind = .identifier ∨ t.kind = .eof) :
    let first := s.run mode s₁
    let second := first.2.run mode s₂
    let whole := s.run mode (s₁ ++ "\n" ++ s₂)
    let apart := first.2.apart mode s₂
    let k := first.2.declarations.bottom
    let n := linesBelow s₁
    whole.1.values = first.1.values ++ second.1.values ∧
    whole.1.lexical = first.1.lexical ++ second.1.lexical.map (Token.down n) ∧
    whole.1.syntactic = first.1.syntactic ++ second.1.syntactic.map (Token.down n) ∧
    second.1.evaluation = apart.1.diagnostics.map (Token.settle k 0) ∧
    whole.1.evaluation = first.1.evaluation ++ apart.1.diagnostics.map (Token.settle k n) ∧
    second.2.declarations = apart.2.mapBodies (Expr.map (Token.settle k 0)) ∧
    whole.2.declarations = apart.2.mapBodies (Expr.map (Token.settle k n)) ∧
    whole.2.declarations.listing = second.2.declarations.listing := by
  have hopens := opens_of_tokens h₂
  obtain ⟨hunits, herrors⟩ := Grammar.program_newline h₁ hr hopens
  have hwhole := s.evaluate_newline hunits
  have hsecond := (s.run mode s₁).2.evaluate_apart mode s₂
  intro first second whole apart k n
  have hvalues : whole.1.values = first.1.values ++ second.1.values := by
    rw [values_run, values_run, values_run, hwhole, hsecond, Evaluation.values_append,
      Evaluation.values_map, Evaluation.values_map]
  have hlexical : whole.1.lexical = first.1.lexical ++ second.1.lexical.map (Token.down n) :=
    scanDiagnostics_newline h₁ hopens
  have hsyntactic :
      whole.1.syntactic = first.1.syntactic ++ second.1.syntactic.map (Token.down n) := by
    rw [syntactic_run, syntactic_run, syntactic_run, herrors, hr, Grammar.diagnostics_relabel]
    rfl
  have hsecond' : second.1.evaluation = apart.1.diagnostics.map (Token.settle k 0) := by
    rw [evaluation_run, hsecond, Evaluation.diagnostics_map]
  have hwhole' : whole.1.evaluation =
      first.1.evaluation ++ apart.1.diagnostics.map (Token.settle k n) := by
    rw [evaluation_run, evaluation_run, hwhole, Evaluation.diagnostics_append,
      Evaluation.diagnostics_map]
  have htable : second.2.declarations = apart.2.mapBodies (Expr.map (Token.settle k 0)) :=
    (declarations_run ..).trans (congrArg Prod.snd hsecond)
  have htable' : whole.2.declarations = apart.2.mapBodies (Expr.map (Token.settle k n)) :=
    (declarations_run ..).trans (congrArg Prod.snd hwhole)
  have hlisting : whole.2.declarations.listing = second.2.declarations.listing := by
    rw [htable, htable', Declarations.listing_mapBodies, Declarations.listing_mapBodies]
  exact ⟨hvalues, hlexical, hsyntactic, hsecond', hwhole', htable, htable', hlisting⟩

theorem run_newline_forward :
    (scanDiagnostics "decl a: b").errors = [] ∧
      (Grammar.program .interactive (tokens "decl a: b")).2 = [] ∧
      (∀ t ∈ (tokens "a\ndecl b: 1;\na").find? (!·.hidden),
        t.kind = .identifier ∨ t.kind = .eof) ∧
      (run {} .interactive ("decl a: b" ++ "\n" ++ "a\ndecl b: 1;\na")).1.values =
        (run {} .interactive "decl a: b").1.values ++
          ((run {} .interactive "decl a: b").2.run .interactive "a\ndecl b: 1;\na").1.values ∧
      (run {} .interactive ("decl a: b" ++ "\n" ++ "a\ndecl b: 1;\na")).1.values.map Value.text =
        ["1"] := by
  have h₁ : (scanDiagnostics "decl a: b").errors = [] := by decide +kernel
  have hr : (Grammar.program .interactive (tokens "decl a: b")).2 = [] := by decide +kernel
  have h₂ : ∀ t ∈ (tokens "a\ndecl b: 1;\na").find? (!·.hidden),
      t.kind = .identifier ∨ t.kind = .eof := by decide +kernel
  obtain ⟨hvalues, -⟩ := run_newline {} .interactive h₁ hr h₂
  exact ⟨h₁, hr, h₂, hvalues, by decide +kernel⟩

end Session

end LazyDecl
