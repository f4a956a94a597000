import LazyDecl.Proofs.Eval.Causes
import LazyDecl.Proofs.Session

/-!
Faults in sessions. All trees of a session come from texts, those in the table no less than
those of the text that runs, however many of the texts had errors. So the evaluation never
meets a tree that no text spells, and the operator without a meaning is the only fault that
is ever reported (`Session.runs_faults`).
-/

namespace LazyDecl

/-- The messages of faults that trees of a text do not raise. -/
inductive InternalFault : String → Prop
  | entry : InternalFault "expect table entry"
  | element : InternalFault "expect sequence element"
  | arithmetic (operator : String) :
      InternalFault ("`" ++ operator ++ "` is not an arithmetic operator")

theorem InternalFault.shape {message : String} (h : InternalFault message) :
    message = "expect table entry" ∨ message = "expect sequence element" ∨
      message.toList.head? = some '`' := by
  cases h with
  | entry => exact .inl rfl
  | element => exact .inr (.inl rfl)
  | arithmetic operator => exact .inr (.inr (by simp))

theorem InternalFault.head {message : String} (h : InternalFault message) :
    message.toList.head? = some 'e' ∨ message.toList.head? = some '`' := by
  rcases h.shape with rfl | rfl | h
  · exact .inl (by simp)
  · exact .inl (by simp)
  · exact .inr h

/-- A message tells the internal faults from all other causes. -/
theorem EvalCause.not_internalFault {cause : EvalCause}
    (h : cause.severity = .fault → cause = .unsupportedComplement) :
    ¬InternalFault cause.message := by
  intro hm
  unfold message at hm
  cases cause with
  | expectedEntry | expectedElement | notArithmetic operator => cases h rfl
  | expectedBinding =>
    -- its first letter is that of an internal fault, too
    rcases hm.shape with hm | hm | hm
    · exact absurd hm (by decide)
    · exact absurd hm (by decide)
    · simp at hm
  | _ => simpa using hm.head

theorem WarningCause.not_internalFault (cause : WarningCause) :
    ¬InternalFault cause.message := by
  intro hm
  unfold message at hm
  cases cause <;> simpa using hm.head

namespace Discipline

theorem InEvaluation.error {D : Discipline} {e : Evaluation} (h : D.InEvaluation e)
    {err : EvalError} (herr : err ∈ e.errors) : D.error err.cause := by
  obtain ⟨r, hr, hsome⟩ := List.mem_filterMap.1 herr
  cases r with
  | ok v => cases hsome
  | error _ =>
    cases hsome
    exact h _ hr

/-- The trees of a text are of the discipline. -/
theorem inProgram_ofTrees (mode : Mode) (source : String) :
    (ofTrees True).InProgram (Grammar.program mode (tokens source)).1 := by
  intro u hu
  have hrespects := Grammar.program_respects mode (tokens source) u hu
  cases u with
  | statement s => exact fun _ => hrespects.2
  | expression e => exact fun _ => hrespects

end Discipline

namespace Session

/-- **Texts raise no fault but one.** Whatever texts a session runs, in whichever modes and
with whatever errors, a fault that it reports is the operator without a meaning. -/
theorem runs_faults (chunks : List (Mode × String)) :
    ∀ o ∈ (runs {} chunks).1, ∀ d ∈ o.evaluation.errors ++ o.evaluation.warnings,
      (d.severity = .fault → d.message = "unsupported operation: `~`") ∧
        ¬InternalFault d.message := by
  intro o ho d hd
  obtain ⟨hevaluation, -⟩ := evaluation_runs {} chunks
  have hprograms : ∀ p ∈ chunks.map fun chunk => (Grammar.program chunk.1 (tokens chunk.2)).1,
      (Discipline.ofTrees True).InProgram p := by
    rw [List.forall_mem_map]
    exact fun chunk _ => Discipline.inProgram_ofTrees chunk.1 chunk.2
  obtain ⟨hall, -⟩ :=
    (Discipline.sound_ofTrees True).evaluateAll hprograms Discipline.table_empty
  have hmem := List.mem_map_of_mem (f := Outcome.evaluation) ho
  rw [hevaluation] at hmem
  obtain ⟨e, he, heq⟩ := List.mem_map.1 hmem
  rw [← heq] at hd
  rcases List.mem_append.1 hd with hd | hd
  · obtain ⟨err, herr, rfl⟩ := List.mem_map.1 hd
    have hcause := (hall e he).error herr trivial
    refine ⟨fun hfault => ?_, EvalCause.not_internalFault hcause⟩
    exact congrArg EvalCause.message (hcause hfault)
  · obtain ⟨w, -, rfl⟩ := List.mem_map.1 hd
    exact ⟨nofun, w.cause.not_internalFault⟩

/-- Forced from a later text, a declaration reports the one fault that there is. -/
theorem runs_faults_complement :
    ∃ o ∈ (runs {} [(.batch, "decl a: ~1"), (.interactive, "a")]).1,
      ∃ d ∈ o.evaluation.errors ++ o.evaluation.warnings,
        d.severity = .fault ∧ d.message = "unsupported operation: `~`" ∧
          ¬InternalFault d.message := by
  have hfault : ∃ o ∈ (runs {} [(.batch, "decl a: ~1"), (.interactive, "a")]).1,
      ∃ d ∈ o.evaluation.errors ++ o.evaluation.warnings, d.severity = .fault := by
    decide +kernel
  obtain ⟨o, ho, d, hd, hseverity⟩ := hfault
  obtain ⟨hmessage, hinternal⟩ := runs_faults _ o ho d hd
  exact ⟨o, ho, d, hd, hseverity, hmessage hseverity, hinternal⟩

end Session

end LazyDecl
