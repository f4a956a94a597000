import LazyDecl.Proofs.Eval.Causes
import LazyDecl.Proofs.Session

/-!
A file at the prompt. Where the tag of a statement and its value stand on one line, the
prompt reads the statements that a file reads (`program_interactive`); only in front of a
line end does it take a tag for a bare name. The prompt then follows references, but no
value is one, so that a run comes to the same in both modes (`Session.run_interactive`).
-/

namespace LazyDecl

/-- The tag of a statement. -/
def Item.tag? : Item → Option Token
  | .statement s => some s.tag
  | .expression _ => none

/-- Among the tokens, no tag of a statement of the program is followed by a line end. -/
def Program.TagsInline (p : Program) (ts : List Token) : Prop :=
  ∀ u ∈ p.items, ∀ pair ∈ ts.zip ts.tail, u.tag? = some pair.1 → pair.2.kind ≠ .eol

instance (p : Program) (ts : List Token) : Decidable (p.TagsInline ts) :=
  inferInstanceAs (Decidable (∀ u ∈ p.items, ∀ pair ∈ ts.zip ts.tail,
    u.tag? = some pair.1 → pair.2.kind ≠ .eol))

/-- Neighbours in a tail are neighbours in the whole. -/
theorem mem_zip_tail_of_suffix {ts : List Token} {t u : Token} {us : List Token}
    (h : t :: u :: us <:+ ts) : (t, u) ∈ ts.zip ts.tail := by
  obtain ⟨front, rfl⟩ := h
  induction front with
  | nil => simp
  | cons v front ih =>
    cases front with
    | nil => simp
    | cons w front => exact List.mem_cons_of_mem _ ih

namespace Grammar

/-! ## Reading -/

theorem not_ends_of_opensExpression {kind : TokenKind} (h : opensExpression kind = true) :
    kind ≠ .semicolon ∧ kind ≠ .eol ∧ kind ≠ .eof := by
  refine ⟨?_, ?_, ?_⟩ <;> rintro rfl <;> cases h

/-- A tag in front of an expression on the same line opens a statement. -/
theorem opensStatement_of_tag {i k : Input} {t : Token} (hp : Plain i.rest)
    (ht : i.Takes .visible t k) (hk : t.kind = .identifier)
    (hopens : opensExpression (k.peek .visible).kind = true)
    (hnext : ∀ u us, i.clear.rest = t :: u :: us → u.kind ≠ .eol) :
    opensStatement i.clear = true := by
  have hcheck : i.clear.check .visible .identifier = true := by
    rw [Input.check_iff (by decide), i.peek_clear, ht.peek_eq, hk]
  obtain ⟨-, ts, hts, rfl⟩ := Input.takes_iff.1 ht
  have hrest : i.clear.rest = t :: ts := hts
  have hpeek : (i.clear.peekNext .hidden).kind =
      (Input.peek { i with rest := View.visible.ahead ts } .visible).kind := by
    cases ts with
    | nil =>
      simp only [Input.peekNext, Input.peek, hrest, View.ahead_hidden, View.ahead_visible, hk]
      rfl
    | cons u us =>
      have hmem : u ∈ i.rest := (View.visible.ahead_suffix i.rest).mem (by simp [hts])
      have hvisible : u.hidden = false := hp.visible hmem (hnext u us hrest)
      simp [Input.peekNext, Input.peek, hrest, hk, hvisible]
  obtain ⟨hsemicolon, heol, heof⟩ := not_ends_of_opensExpression (hpeek ▸ hopens)
  unfold opensStatement
  rw [hcheck, Bool.true_and]
  split <;> first | contradiction | rfl

/-- The prompt reads a statement with an inline tag as a file does. -/
theorem item_of_statement {i j : Input} {s : Statement} (hp : Plain i.rest)
    (h : statement (unitStart .batch i) = .ok s j)
    (hnext : ∀ u us, i.clear.rest = s.tag :: u :: us → u.kind ≠ .eol) :
    item (unitStart .interactive i) = .ok (.statement s) j := by
  obtain ⟨k, m, hk, ht, he, hend⟩ := statement_eq_ok_iff.1 h
  have hopens : opensStatement i.clear = true :=
    opensStatement_of_tag (i := unitStart .batch i) hp ht hk he.opens hnext
  rw [unitStart_interactive hp.endsShown]
  have hs : statement i.clear = .ok s j :=
    statement_eq_ok_iff.2 ⟨k, m, hk, ht.clear, he, hend⟩
  exact item_eq_ok_iff.2 (.inl ⟨hopens, s, rfl, hs⟩)

/-- Statements that a file reads are read at the prompt. -/
theorem UnitsRead.interactive {ts : List Token} {i : Input} {ss : List Statement}
    (h : UnitsRead .batch statement i ss) (hp : Plain i.rest) (hsuffix : i.rest <:+ ts)
    (htags : ∀ s ∈ ss, ∀ u us, s.tag :: u :: us <:+ ts → u.kind ≠ .eol) :
    UnitsRead .interactive item i (ss.map .statement) := by
  induction h with
  | done hend => exact .done hend
  | @cons i j s ss hend hs _ ih =>
    have hj : j.rest <:+ (unitStart .batch i).rest :=
      rest_suffix_of_ok (statement_mirrors .none _) hs
    have hitem : item (unitStart .interactive i) = .ok (.statement s) j := by
      refine item_of_statement hp hs fun u us hrest => ?_
      have hclear : i.clear.rest <:+ ts := (View.visible.ahead_suffix i.rest).trans hsuffix
      exact htags s List.mem_cons_self u us (hrest ▸ hclear)
    have hrest := ih (hp.suffix hj) (hj.trans hsuffix) fun s hs => htags s (.tail _ hs)
    exact .cons hend hitem hrest

theorem accepted_map_ok {α : Type} (as : List α) :
    accepted (as.map .ok) = as ∧ rejected (as.map .ok : List (Except SyntaxError α)) = [] := by
  induction as with
  | nil => exact ⟨rfl, rfl⟩
  | cons a as ih => exact ⟨congrArg (a :: ·) ih.1, ih.2⟩

/-- The text has the same statements in a file and at the prompt. -/
theorem program_interactive {source : String}
    (h : (program .batch (tokens source)).2 = [])
    (htags : (program .batch (tokens source)).1.TagsInline (tokens source)) :
    ∃ ss, program .batch (tokens source) = (.batch ss, []) ∧
      program .interactive (tokens source) = (.interactive (ss.map .statement), []) := by
  have hi := ofTokens_tokens source
  have hplain : Plain (Input.ofTokens (tokens source)).rest := hi ▸ plain_textTokens source
  have hread := unitsRead_of_rejected (fun _ _ _ => size_lt_of_statement) h
  generalize hss : accepted (units .batch statement (.ofTokens (tokens source))) = ss at hread
  have hbatch : program .batch (tokens source) = (.batch ss, []) :=
    Prod.ext (congrArg Program.batch hss) h
  rw [hbatch] at htags
  have hinline : ∀ s ∈ ss, ∀ u us, s.tag :: u :: us <:+ textTokens source → u.kind ≠ .eol := by
    rintro s hs u us ⟨front, hfront⟩
    have hsuffix : s.tag :: u :: (us ++ [.eof _]) <:+ tokens source :=
      ⟨front, by rw [tokens_eq, ← hfront, List.append_assoc]; rfl⟩
    exact htags (.statement s) (List.mem_map_of_mem hs) _ (mem_zip_tail_of_suffix hsuffix) rfl
  have hsuffix : (Input.ofTokens (tokens source)).rest <:+ textTokens source :=
    hi ▸ List.suffix_refl (textTokens source)
  have hunits := (hread.interactive hplain hsuffix hinline).units_eq
    fun _ _ _ => size_lt_of_item
  obtain ⟨haccepted, hrejected⟩ := accepted_map_ok (ss.map Item.statement)
  refine ⟨ss, hbatch, ?_⟩
  rw [program, hunits, haccepted, hrejected]

end Grammar

/-! ## Running -/

namespace Eval

/-- On a table without references the prompt finds none to follow. -/
theorem item_eq_statement {s : EvalState}
    (hs : (Discipline.ofTrees False).InTable s.declarations) (st : Statement) :
    item (.statement st) s = statement st s := by
  have h := (Discipline.sound_ofTrees False).statement (s := st) (fun hf => hf.elim) s hs
  rw [item_statement]
  simp only [bind, EStateM.bind]
  generalize statement st s = r at h ⊢
  cases h with
  | error _ _ => rfl
  | @ok v s' hv _ =>
    cases v with
    | none => rfl
    | some v =>
      dsimp only [shown]
      rw [Reference.dereference_of_not_reference st.tag (hv v rfl), pure_bind]
      rfl

/-- Statements in a row come to the same at the prompt as in a file. -/
theorem all_item_eq {s : EvalState} (hs : (Discipline.ofTrees False).InTable s.declarations)
    (ss : List Statement) :
    all ((ss.map Item.statement).map item) s = all (ss.map statement) s := by
  induction ss generalizing s with
  | nil => rfl
  | cons st ss ih =>
    have hstep := (Discipline.sound_ofTrees False).statement (s := st) (fun hf => hf.elim) s hs
    simp only [List.map_cons, all_cons, item_eq_statement hs, ih hstep.final]

end Eval

/-- Statements come to the same in both modes on the table of any session. -/
theorem evaluate_interactive (ps : List Program) (ss : List Statement) :
    (Program.interactive (ss.map .statement)).evaluate (evaluateAll ps ∅).2 =
      (Program.batch ss).evaluate (evaluateAll ps ∅).2 := by
  have hps : ∀ p ∈ ps, (Discipline.ofTrees False).InProgram p := by
    intro p _ u _
    cases u <;> exact fun hf => hf.elim
  have htable :=
    ((Discipline.sound_ofTrees False).evaluateAll hps Discipline.table_empty).2
  unfold Program.evaluate Program.units
  rw [Eval.all_item_eq htable]

namespace Session

open Grammar in
/-- **The modes agree where both apply.** A text that a file reads without an error, with
each tag and its value on one line, is the same statements at the prompt. On the table that
any programs have left, those of texts or others, it comes to the same values, reports and
declarations in both modes. -/
theorem run_interactive (source : String)
    (h : (program .batch (tokens source)).2 = [])
    (htags : (program .batch (tokens source)).1.TagsInline (tokens source)) :
    (∃ ss, program .batch (tokens source) = (.batch ss, []) ∧
      program .interactive (tokens source) = (.interactive (ss.map .statement), [])) ∧
    ∀ (ps : List Program) (s : Session), s.declarations = (evaluateAll ps ∅).2 →
      s.run .interactive source = s.run .batch source := by
  obtain ⟨ss, hbatch, hinteractive⟩ := program_interactive h htags
  refine ⟨⟨ss, hbatch, hinteractive⟩, fun ps s hs => ?_⟩
  unfold run
  rw [hbatch, hinteractive]
  dsimp only
  rw [hs, evaluate_interactive]

open Grammar in
theorem run_interactive_pair :
    (program .batch (tokens "decl b: a\nx a: b;\nx [b, 2]\n")).2 = [] ∧
      (program .batch (tokens "decl b: a\nx a: b;\nx [b, 2]\n")).1.TagsInline
        (tokens "decl b: a\nx a: b;\nx [b, 2]\n") ∧
      (run (run {} .batch "decl a: 1").2 .interactive "decl b: a\nx a: b;\nx [b, 2]\n" =
        run (run {} .batch "decl a: 1").2 .batch "decl b: a\nx a: b;\nx [b, 2]\n") ∧
      (run (run {} .batch "decl a: 1").2 .interactive
        "decl b: a\nx a: b;\nx [b, 2]\n").1.values.length = 2 := by
  have h : (program .batch (tokens "decl b: a\nx a: b;\nx [b, 2]\n")).2 = [] := by
    decide +kernel
  have htags : (program .batch (tokens "decl b: a\nx a: b;\nx [b, 2]\n")).1.TagsInline
      (tokens "decl b: a\nx a: b;\nx [b, 2]\n") := by
    decide +kernel
  obtain ⟨-, hrun⟩ := run_interactive _ h htags
  exact ⟨h, htags, hrun [(program .batch (tokens "decl a: 1")).1] _ rfl, by decide +kernel⟩

end Session

end LazyDecl
