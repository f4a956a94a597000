import LazyDecl.Proofs.Grammar.Chunks

/-!
A line end in front of a program. At the prompt it makes no difference. In a file it
makes none if the program opens with a name, but if it opens with any other token, a
statement is begun in front of the line end and given up there, before the one behind it
is: both fail at the same token (`program_leadingLine`).
-/

namespace LazyDecl

/-- The input with one more token in front. -/
def Input.behind (t : Token) (i : Input) : Input := { i with rest := t :: i.rest }

section Input

variable {i : Input} {t : Token}

theorem Input.ofTokens_cons {ts : List Token} (h : ts ≠ []) :
    ofTokens (t :: ts) = (ofTokens ts).behind t := by
  have hlast : (t :: ts).getLast? = ts.getLast? := by
    rw [List.getLast?_cons, List.getLast?_eq_some_getLast h]
    rfl
  unfold ofTokens
  rw [hlast, List.dropLast_cons_of_ne_nil h]
  cases hu : ts.getLast? with
  | none => exact absurd (List.getLast?_eq_none_iff.1 hu) h
  | some u =>
    dsimp only
    split <;> rfl

theorem Input.ofTokens_append (ts : List Token) {us : List Token} (h : us ≠ []) :
    ofTokens (ts ++ us) = { ofTokens us with rest := ts ++ (ofTokens us).rest } := by
  induction ts with
  | nil => rfl
  | cons t ts ih =>
    rw [List.cons_append, ofTokens_cons (List.append_ne_nil_of_right_ne_nil ts h), ih]
    rfl

theorem Input.Takes.behind {u : Token} {j : Input} (ht : i.Takes .visible u j)
    (h : t.hidden = true) : (i.behind t).Takes .visible u j := by
  obtain ⟨live, ts, hts, rfl⟩ := takes_iff.1 ht
  have hahead : View.visible.ahead (i.behind t).rest = u :: ts := by
    rw [← hts]
    exact List.dropWhile_cons_of_pos h
  exact takes_iff.2 ⟨live, ts, hahead, rfl⟩

theorem Input.peek_behind (h : t.hidden = true) :
    (i.behind t).peek .visible = i.peek .visible := by
  simp [peek, behind, h]

end Input

namespace Grammar

open LazyDecl.Parser

/-- The complaint about a file that opens with a token that can open no statement. -/
def strayStart (ts : List Token) : List SyntaxError :=
  let t := (Input.ofTokens ts).peek .visible
  if t.kind = .identifier ∨ t.kind = .eof then [] else [⟨.expectedTag, t⟩]

variable {i : Input} {eol : Token}

theorem statement_stray (h : (i.peek .visible).kind ≠ .identifier) :
    statement i = .error ⟨.expectedTag, i.peek .visible⟩ i :=
  statementOver_stray false h

/-- Reading goes on right behind the line end. -/
theorem recover_behind (hk : eol.kind = .eol) (hs : i.skipped = false) (j : Input)
    (hj : j = i.behind eol) : recover j j = i := by
  subst hj
  simp [recover, Input.behind, pastBoundary, hk, ← hs]

/-- A stray start is reported in front of the line end, and then once more behind it. -/
theorem units_behind_stray (hk : eol.kind = .eol) (hh : eol.hidden = true)
    (hs : i.skipped = false) (hend : i.isAtEnd .visible = false)
    (hstray : (i.peek .visible).kind ≠ .identifier) :
    units .batch statement (i.behind eol) =
      .error ⟨.expectedTag, i.peek .visible⟩ :: units .batch statement i := by
  have hpeek : (i.behind eol).peek .visible = i.peek .visible := Input.peek_behind hh
  have hstart : unitStart .batch (i.behind eol) = i.behind eol := by
    simp [unitStart, Input.behind, ← hs]
  have hturn : turn statement (unitStart .batch (i.behind eol)) =
      (.error ⟨.expectedTag, i.peek .visible⟩, i) := by
    rw [hstart, turn, statement_stray (hpeek ▸ hstray), hpeek]
    exact congrArg (Prod.mk _) (recover_behind hk hs _ rfl)
  have hlt : i.size < (i.behind eol).size := Nat.lt_succ_self _
  rw [units_cons (by rwa [Input.isAtEnd, hpeek]) (by rw [hturn]; exact hlt), hturn]

theorem units_stray (hts : EndsShown i.rest)
    (hend : i.isAtEnd .visible = false) (hstray : (i.peek .visible).kind ≠ .identifier) :
    ∃ results, units .batch statement i =
      .error ⟨.expectedTag, i.peek .visible⟩ :: results := by
  obtain ⟨t, ts, hr, live⟩ := unitStart_live .batch hts hend
  have hturn : (turn statement (unitStart .batch i)).1 =
      .error ⟨.expectedTag, i.peek .visible⟩ := by
    have h : statement (unitStart .batch i) = _ := statement_stray (i := unitStart .batch i) hstray
    rw [turn, h]
    rfl
  have hlt : (turn statement (unitStart .batch i)).2.size < i.size :=
    unitParser_statement.turn_size_lt hr live
  rw [units_cons hend hlt, hturn]
  exact ⟨_, rfl⟩

/-- In front of a name the line end makes no difference. -/
theorem units_behind_name (hh : eol.hidden = true)
    (hts : EndsShown i.rest)
    (hname : (i.peek .visible).kind = .identifier) :
    units .batch statement (i.behind eol) = units .batch statement i := by
  have live : (i.peek .visible).kind ≠ .eof := by rw [hname]; decide
  have hend : i.isAtEnd .visible = false := decide_eq_false live
  have hend' : (i.behind eol).isAtEnd .visible = false := by
    rwa [Input.isAtEnd, Input.peek_behind hh]
  have ht := Input.takes_peek live
  have hturn : turn statement (unitStart .batch (i.behind eol)) =
      turn statement (unitStart .batch i) :=
    turn_statement (ht.behind hh).restart ht.restart hname
  obtain ⟨t, ts, hr, hlive⟩ := unitStart_live .batch hts hend
  have hlt : (turn statement (unitStart .batch i)).2.size < i.size :=
    unitParser_statement.turn_size_lt hr hlive
  rw [units_cons hend' (by rw [hturn]; exact Nat.lt_succ_of_lt hlt), units_cons hend hlt, hturn]

/-- At the prompt the line end is dropped with all that is hidden behind it. -/
theorem units_behind_interactive (hk : eol.kind = .eol) (hh : eol.hidden = true)
    (hts : EndsShown i.rest) :
    units .interactive item (i.behind eol) = units .interactive item i := by
  have hstart : unitStart .interactive (i.behind eol) = unitStart .interactive i := by
    simp [unitStart, Input.behind, hk, hh]
  have hend' : (i.behind eol).isAtEnd .visible = i.isAtEnd .visible := by
    rw [Input.isAtEnd, Input.peek_behind hh, Input.isAtEnd]
  cases hend : i.isAtEnd .visible with
  | true => rw [units_nil (hend'.trans hend), units_nil hend]
  | false =>
    obtain ⟨t, ts, hr, live⟩ := unitStart_live .interactive hts hend
    have hlt : (turn item (unitStart .interactive i)).2.size < i.size :=
      Nat.lt_of_lt_of_le (unitParser_item.turn_size_lt hr live) (unitStart_size_le .interactive i)
    rw [units_cons (hend'.trans hend) (by rw [hstart]; exact Nat.lt_succ_of_lt hlt),
      units_cons hend hlt, hstart]

theorem units_behind_batch {ts : List Token} (hk : eol.kind = .eol) (hh : eol.hidden = true)
    (hts : EndsShown (Input.ofTokens ts).rest) :
    units .batch statement ((Input.ofTokens ts).behind eol) =
      (strayStart ts).map .error ++ units .batch statement (.ofTokens ts) := by
  unfold strayStart
  cases hend : (Input.ofTokens ts).isAtEnd .visible with
  | true =>
    have hend' : ((Input.ofTokens ts).behind eol).isAtEnd .visible = true := by
      rwa [Input.isAtEnd, Input.peek_behind hh]
    rw [units_nil hend', units_nil hend, if_pos (.inr (of_decide_eq_true hend))]
    rfl
  | false =>
    have live := of_decide_eq_false hend
    by_cases hname : ((Input.ofTokens ts).peek .visible).kind = .identifier
    · rw [units_behind_name hh hts hname, if_pos (.inl hname)]
      rfl
    · rw [units_behind_stray hk hh (Input.skipped_ofTokens ts) hend hname,
        if_neg (not_or.2 ⟨hname, live⟩)]
      rfl

theorem strayStart_prefix {ts : List Token} (hts : EndsShown (Input.ofTokens ts).rest) :
    strayStart ts <+: (program .batch ts).2 := by
  unfold strayStart
  dsimp only
  split
  · exact List.nil_prefix
  · next h =>
    obtain ⟨hname, live⟩ := not_or.1 h
    obtain ⟨results, hr⟩ := units_stray hts (decide_eq_false live) hname
    exact ⟨rejected results, by rw [program, hr]; rfl⟩

theorem accepted_errors {α : Type} (errors : List SyntaxError) :
    accepted (errors.map .error : List (Except SyntaxError α)) = [] := by
  simp [accepted, Except.toOption]

theorem rejected_errors {α : Type} (errors : List SyntaxError) :
    rejected (errors.map .error : List (Except SyntaxError α)) = errors := by
  simp [rejected]

/-- **A line end in front of a program.** The statements or items are those of the program
without it, and so are the syntax errors at the prompt. In a file, a program that opens
with a token that can open no statement is reported for that once more. -/
theorem program_leadingLine {ts : List Token} (hk : eol.kind = .eol) (hh : eol.hidden = true)
    (hts : ∀ t ∈ ts, t.kind = .eof → t.hidden = false) (mode : Mode) :
    program mode (eol :: ts) =
        ((program mode ts).1, (if mode = .batch then strayStart ts else []) ++
          (program mode ts).2) ∧
      strayStart ts <+: (program .batch ts).2 := by
  have hshown : EndsShown (Input.ofTokens ts).rest := fun t ht =>
    hts t (Input.rest_ofTokens_subset ts ht)
  refine ⟨?_, strayStart_prefix hshown⟩
  by_cases hne : ts = []
  · subst hne
    have hend : (Input.ofTokens [eol]).isAtEnd .visible = true := by
      simp [Input.ofTokens, Input.isAtEnd, Input.peek, Token.eof, hk, hh]
    have hend' : (Input.ofTokens []).isAtEnd .visible = true := rfl
    have hnone : strayStart [] = [] := rfl
    cases mode <;> simp [program, units_nil hend, units_nil hend', hnone, rejected]
  have hbehind : Input.ofTokens (eol :: ts) = (Input.ofTokens ts).behind eol :=
    Input.ofTokens_cons hne
  cases mode with
  | interactive =>
    rw [program, hbehind, units_behind_interactive hk hh hshown]
    rfl
  | batch =>
    rw [program, hbehind, units_behind_batch hk hh hshown]
    simp only [accepted_append, rejected_append, accepted_errors, rejected_errors,
      List.nil_append, if_true]
    rfl

def lineBreak : Token := { kind := .eol, lexeme := "\n", start := .start, hidden := true }

/-- The tokens of `+ 1`, which is no statement. -/
def plusOne : List Token :=
  [{ kind := .plus, lexeme := "+", start := .start }, { kind := .integer, lexeme := "1", start := .start },
    .eof .start]

/-- Behind a line end the one statement that is wrong is reported twice. -/
theorem program_lineBreak_plusOne :
    lineBreak.kind = .eol ∧ lineBreak.hidden = true ∧
      (∀ t ∈ plusOne, t.kind = .eof → t.hidden = false) ∧
      (program .batch plusOne).2.length = 1 ∧
      (program .batch (lineBreak :: plusOne)).2.length = 2 := by
  have hts : ∀ t ∈ plusOne, t.kind = .eof → t.hidden = false := by decide
  have hone : (program .batch plusOne).2.length = 1 := by decide +kernel
  refine ⟨rfl, rfl, hts, hone, ?_⟩
  rw [(program_leadingLine rfl rfl hts .batch).1, List.length_append, hone]
  rfl

/-- Not every line end in front of a program goes unnoticed. -/
theorem lineBreak_noticed : ¬∀ (mode : Mode) (eol : Token) (ts : List Token), eol.kind = .eol →
    eol.hidden = true → (∀ t ∈ ts, t.kind = .eof → t.hidden = false) →
      program mode (eol :: ts) = program mode ts := by
  intro h
  have h := h .batch lineBreak plusOne rfl rfl (by decide)
  have hlength : (program .batch (lineBreak :: plusOne)).2.length ≠
      (program .batch plusOne).2.length := by decide +kernel
  exact hlength (by rw [h])

end Grammar

end LazyDecl
