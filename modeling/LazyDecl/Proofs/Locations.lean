import LazyDecl.Proofs.Eval.Cycles
import LazyDecl.Proofs.Eval.Reports
import LazyDecl.Proofs.Grammar.Sources
import LazyDecl.Proofs.Session

/-!
Diagnostics point at source text. What a session has declared is traced back to the text of the
unit that declared it (`Installs`), so that a message from inside of a declaration can be, too.

* `Installed.evaluate`: each deferred body is that of the last declaration of its name;
* `diagnostics_located`: a diagnostic of a run points into the text that is run, or else it
  arises while a declaration is forced, and points into the text that declared that.
-/

namespace LazyDecl

/-! ## Which text installed a declaration -/

/-- Of the units, each with the text that it is from, the last one that declares the name is
from this text and has this body. -/
def Installs (units : List (String × Item)) (name source : String) (body : Expr) : Prop :=
  ∃ before u after, units = before ++ (source, u) :: after ∧
    Reference.declared? u = some (name, body) ∧
    ∀ w ∈ after, ∀ other, Reference.declared? w.2 ≠ some (name, other)

section Installs

variable {units : List (String × Item)} {name source : String} {body : Expr} {u : Item}

theorem Installs.concat (h : Reference.declared? u = some (name, body)) :
    Installs (units ++ [(source, u)]) name source body :=
  ⟨units, u, [], rfl, h, fun _ hw => nomatch hw⟩

theorem Installs.append (h : Installs units name source body) {later : List (String × Item)}
    (hlater : ∀ w ∈ later, ∀ other, Reference.declared? w.2 ≠ some (name, other)) :
    Installs (units ++ later) name source body := by
  obtain ⟨before, u, after, rfl, hu, hafter⟩ := h
  refine ⟨before, u, after ++ later, by simp, hu, fun w hw => ?_⟩
  rcases List.mem_append.1 hw with hw | hw
  · exact hafter w hw
  · exact hlater w hw

/-- The body of a declaration stands in the unit that declares it. -/
theorem Reference.tokens_declared? (h : declared? u = some (name, body)) :
    body.tokens ⊆ u.tokens := by
  obtain ⟨tag, left, colon, t, rfl, -, -, -⟩ := declared?_eq_some h
  intro s hs
  exact List.mem_cons_of_mem _ (List.mem_append_right _ (List.mem_cons_of_mem _ hs))

/-- All units come from texts that contain their tokens. -/
def Sourced (units : List (String × Item)) : Prop := ∀ w ∈ units, w.2.tokens ⊆ tokens w.1

theorem Installs.tokens (h : Installs units name source body) (hs : Sourced units) :
    body.tokens ⊆ LazyDecl.tokens source := by
  obtain ⟨before, u, after, rfl, hu, -⟩ := h
  have hunit := hs (source, u) (by simp)
  exact List.Subset.trans (Reference.tokens_declared? hu) hunit

end Installs

/-- The table defers what the units have declared last, and nothing is running. -/
structure Installed (units : List (String × Item)) (d : Declarations Expr Value) : Prop where
  marked : Marked [] d
  deferred : ∀ name body, d.find? name = some (.deferred body) →
    ∃ source, Installs units name source body

/-- What is declared by a unit takes the place of what was declared before. -/
theorem Installed.declare {units : List (String × Item)} {d : Declarations Expr Value}
    (h : Installed units d) (source : String) (u : Item) {name : String} {body : Expr}
    (hb : (installed (Reference.declared? u) d).find? name = some (.deferred body)) :
    ∃ source', Installs (units ++ [(source, u)]) name source' body := by
  have hold : (∀ other, Reference.declared? u ≠ some (name, other)) →
      d.find? name = some (.deferred body) →
      ∃ source', Installs (units ++ [(source, u)]) name source' body := by
    intro hu hd
    obtain ⟨source', hs⟩ := h.deferred name body hd
    exact ⟨source', hs.append (by simpa using hu)⟩
  cases hu : Reference.declared? u with
  | none =>
    rw [hu] at hb
    exact hold (by simp [hu]) hb
  | some e =>
    rw [hu, installed, Declarations.find?_declare] at hb
    split at hb
    · next hn =>
      cases hb
      exact ⟨source, .concat (by rw [hu, hn])⟩
    · next hn => exact hold (by simp [hu, Prod.ext_iff, Ne.symm hn]) hb

/-- A unit leaves a table that defers what has been declared last. -/
theorem Installed.evaluate {units : List (String × Item)} {s : EvalState}
    (h : Installed units s.declarations) (mode : Mode) (source : String) (u : Item) :
    Installed (units ++ [(source, u)]) (Eval.final (mode.evaluate u s)).declarations := by
  obtain ⟨trace, hrun⟩ := run_ofUnit mode u s
  have hsound := Config.sound_ofUnit mode u h.marked
  refine ⟨hrun.marked_final hsound, fun name body hb => h.declare source u ?_⟩
  have hwithin := hrun.within hsound _ hrun.ended_mem
  rw [settled_ofUnit] at hwithin
  refine hwithin name body ?_
  rw [← hb]
  cases mode.evaluate u s <;> rfl

theorem Installed.all {units : List (String × Item)} {s : EvalState}
    (h : Installed units s.declarations) (mode : Mode) (source : String) (us : List Item) :
    Installed (units ++ us.map (source, ·))
      (Eval.all (us.map mode.evaluate) s).2.declarations := by
  induction us generalizing units s with
  | nil => simpa [Eval.all] using h
  | cons u us ih =>
    rw [List.map_cons, List.map_cons, Eval.all_cons, List.append_cons]
    exact ih (h.evaluate mode source u)

/-! ## Texts in a row -/

/-- The program of a text. -/
def programOf (chunk : Mode × String) : Program :=
  (Grammar.program chunk.1 (tokens chunk.2)).1

/-- The units of a text, each with the text. -/
def unitsOf (chunk : Mode × String) : List (String × Item) :=
  (programOf chunk).items.map (chunk.2, ·)

theorem mode_programOf (chunk : Mode × String) : (programOf chunk).mode = chunk.1 := by
  obtain ⟨mode, source⟩ := chunk
  cases mode <;> rfl

theorem sourced_unitsOf (chunk : Mode × String) : Sourced (unitsOf chunk) := by
  intro w hw
  obtain ⟨u, hu, rfl⟩ := List.mem_map.1 hw
  have hsources := (Grammar.program_sources_tokens chunk.1 chunk.2).1
  exact fun t ht => hsources (List.mem_flatMap.2 ⟨u, hu, ht⟩)

theorem installed_evaluateAll {units : List (String × Item)} {d : Declarations Expr Value}
    (h : Installed units d) (chunks : List (Mode × String)) :
    Installed (units ++ chunks.flatMap unitsOf) (evaluateAll (chunks.map programOf) d).2 := by
  induction chunks generalizing units d with
  | nil => simpa [evaluateAll] using h
  | cons chunk chunks ih =>
    have hfirst := Installed.all (s := { declarations := d }) h (programOf chunk).mode chunk.2
      (programOf chunk).items
    rw [← Program.units_eq] at hfirst
    rw [List.flatMap_cons, ← List.append_assoc]
    exact ih hfirst

/-- The units that a session has come past when it comes to a unit of its next text. -/
def unitsBefore (before : List (Mode × String)) (chunk : Mode × String) (i : Nat) :
    List (String × Item) :=
  before.flatMap unitsOf ++ ((programOf chunk).items.take i).map (chunk.2, ·)

theorem sourced_unitsBefore (before : List (Mode × String)) (chunk : Mode × String) (i : Nat) :
    Sourced (unitsBefore before chunk i) := by
  intro w hw
  rcases List.mem_append.1 hw with hw | hw
  · obtain ⟨c, -, hw⟩ := List.mem_flatMap.1 hw
    exact sourced_unitsOf c w hw
  · rw [List.map_take] at hw
    exact sourced_unitsOf chunk w (List.mem_of_mem_take hw)

theorem installed_stateBefore (before : List (Mode × String)) (chunk : Mode × String) (i : Nat) :
    Installed (unitsBefore before chunk i)
      (stateBefore (before.map programOf) (programOf chunk) i).declarations := by
  have hempty : Installed [] (∅ : Declarations Expr Value) := by
    refine ⟨marked_stateBefore [] (.batch []) 0, fun name body hb => ?_⟩
    simp [Declarations.find?, EmptyCollection.emptyCollection] at hb
  have hbefore := installed_evaluateAll hempty before
  rw [stateBefore, Program.units_eq, ← List.map_take]
  exact Installed.all (s := { declarations := _ }) hbefore _ chunk.2 _

/-! ## Messages -/

/-- The diagnostic arises at the unit while the declaration of the name is forced: at that
moment its computation is the innermost one. -/
def ArisesForcing (before : List (Mode × String)) (chunk : Mode × String)
    (i : Fin (programOf chunk).items.length) (name : String) (d : Diagnostic) : Prop :=
  ∃ trace r, Run (.ofUnit chunk.1 ((programOf chunk).items.get i)
      (stateBefore (before.map programOf) (programOf chunk) i)) trace r ∧
    (some name, d) ∈ reports trace

/-- The token of the diagnostic is one of the text. Or the diagnostic arises while a declaration
is forced; then the token is one of the text that installed that. -/
def Located (before : List (Mode × String)) (chunk : Mode × String) (d : Diagnostic) : Prop :=
  d.token ∈ tokens chunk.2 ∨
    ∃ i name source body, ArisesForcing before chunk i name d ∧
      Installs (unitsBefore before chunk i) name source body ∧ d.token ∈ tokens source

/-- While a unit that declares a name is evaluated, nothing is forced. -/
theorem names_of_declares {mode : Mode} {u : Item} {s : EvalState}
    {trace : List (Config (Option Value))} {r : EStateM.Result EvalError EvalState (Option Value)}
    (h : Run (.ofUnit mode u s) trace r) {name : String} {body : Expr}
    (hu : Reference.declared? u = some (name, body)) : ∀ c ∈ trace, c.names = [] := by
  obtain ⟨tag, left, colon, t, rfl, ht, hn, -⟩ := Reference.declared?_eq_some hu
  rw [Config.ofUnit, if_pos ht, Eval.statement_declare ht hn] at h
  intro c hc
  rw [h.trace_ended, List.mem_singleton] at hc
  rw [hc]
  rfl

section Units

variable (before : List (Mode × String)) (chunk : Mode × String)
  (i : Fin (programOf chunk).items.length)

theorem tokens_unit : ((programOf chunk).items.get i).tokens ⊆ tokens chunk.2 :=
  sourced_unitsOf chunk _ (List.mem_map.2 ⟨_, List.get_mem _ i, rfl⟩)

variable {before chunk i}

/-- What is running has been installed by a text. -/
theorem installs_of_running {trace : List (Config (Option Value))}
    {r : EStateM.Result EvalError EvalState (Option Value)}
    (h : Run (.ofUnit chunk.1 ((programOf chunk).items.get i)
      (stateBefore (before.map programOf) (programOf chunk) i)) trace r)
    {c : Config (Option Value)} (hc : c ∈ trace) {name : String} {body : Expr}
    (hb : (name, body) ∈ c.stack.bodies) :
    ∃ source, Installs (unitsBefore before chunk i) name source body := by
  have hinstalled := installed_stateBefore before chunk i
  have hsound := Config.sound_ofUnit chunk.1 ((programOf chunk).items.get i) hinstalled.marked
  have hdeferred := h.within hsound c hc name body
    (Stack.deferred_putBack (h.sound hsound c hc) hb)
  rw [settled_ofUnit] at hdeferred
  cases hu : Reference.declared? ((programOf chunk).items.get i) with
  | none =>
    rw [hu] at hdeferred
    exact hinstalled.deferred name body hdeferred
  | some e =>
    have hnames := names_of_declares h hu c hc
    obtain ⟨plan, stack, s⟩ := c
    cases stack with
    | empty => cases hb
    | running => cases hnames

/-- What a run reports is located. -/
theorem located_reports {trace : List (Config (Option Value))}
    {r : EStateM.Result EvalError EvalState (Option Value)}
    (h : Run (.ofUnit chunk.1 ((programOf chunk).items.get i)
      (stateBefore (before.map programOf) (programOf chunk) i)) trace r) :
    ∀ d ∈ (reports trace).map Prod.snd, Located before chunk d := by
  intro d hd
  obtain ⟨⟨origin, d⟩, hmem, rfl⟩ := List.mem_map.1 hd
  obtain ⟨c, hc, horigin, htoken⟩ :=
    h.reports_pointInto (Config.pointsInto_ofUnit ..) origin d hmem
  obtain ⟨plan, stack, s⟩ := c
  cases stack with
  | empty => exact .inl (tokens_unit chunk i htoken)
  | running name body next outer =>
    obtain ⟨source, hinstalls⟩ := installs_of_running h hc (List.mem_cons_self ..)
    refine .inr ⟨i, name, source, body, ⟨trace, r, h, horigin ▸ hmem⟩, hinstalls, ?_⟩
    exact hinstalls.tokens (sourced_unitsBefore before chunk i) htoken

/-- The failure of a unit is located, and so are the warnings that it adds. -/
theorem located_unit {r : EStateM.Result EvalError EvalState (Option Value)}
    (hr : (programOf chunk).mode.evaluate ((programOf chunk).items.get i)
      (stateBefore (before.map programOf) (programOf chunk) i) = r) :
    (∀ e, Eval.outcome r = .error e → Located before chunk e.diagnostic) ∧
      ∀ w ∈ (Eval.final r).warnings,
        w ∈ (stateBefore (before.map programOf) (programOf chunk) i).warnings ∨
          Located before chunk w.diagnostic := by
  obtain ⟨trace, h⟩ := run_ofUnit chunk.1 ((programOf chunk).items.get i)
    (stateBefore (before.map programOf) (programOf chunk) i)
  rw [mode_programOf] at hr
  rw [hr] at h
  obtain ⟨ws, hws, hreports⟩ := h.reports_eq
  have hlocated := located_reports h
  rw [hreports] at hlocated
  refine ⟨fun e he => hlocated _ (List.mem_append_right _ ?_), fun w hw => ?_⟩
  · rw [Eval.failure?_eq_some.2 he]
    exact List.mem_singleton_self _
  · rw [hws] at hw
    rcases List.mem_append.1 hw with hw | hw
    · exact (Config.warnings_ofUnit _ _ _ w hw).imp_right fun ht => .inl (tokens_unit chunk i ht)
    · exact .inr (hlocated _ (List.mem_append_left _ (List.mem_map_of_mem hw)))

end Units

/-- All warnings on the way through a text are located. -/
theorem located_warnings (before : List (Mode × String)) (chunk : Mode × String) {i : Nat}
    (hi : i ≤ (programOf chunk).items.length) :
    ∀ w ∈ (stateBefore (before.map programOf) (programOf chunk) i).warnings,
      Located before chunk w.diagnostic := by
  induction i with
  | zero => exact fun w hw => nomatch hw
  | succ i ih =>
    intro w hw
    rw [stateBefore_succ _ _ ⟨i, hi⟩] at hw
    rcases (located_unit rfl).2 w hw with hw | hw
    · exact ih (Nat.le_of_succ_le hi) w hw
    · exact hw

/-- **Diagnostics point at real source.** Run a text after any others. Each syntax diagnostic
points at a token of the text. So does each error and each warning of the evaluation, unless it
arises while a declaration is forced: then it points at a token of the text that installed the
declaration. -/
theorem diagnostics_located (before : List (Mode × String)) (chunk : Mode × String) :
    let o := ((Session.runs {} before).2.run chunk.1 chunk.2).1
    (∀ d ∈ o.syntactic.errors ++ o.syntactic.warnings, d.token ∈ tokens chunk.2) ∧
      ∀ d ∈ o.evaluation.errors ++ o.evaluation.warnings, Located before chunk d := by
  intro o
  have htable : (Session.runs {} before).2.declarations =
      (evaluateAll (before.map programOf) ∅).2 := (Session.evaluation_runs {} before).2
  refine ⟨fun d hd => ?_, fun d hd => ?_⟩
  · rw [Session.syntactic_run, Grammar.diagnostics, List.append_nil] at hd
    obtain ⟨e, he, rfl⟩ := List.mem_map.1 hd
    exact (Grammar.program_sources_tokens chunk.1 chunk.2).2 e he
  · rw [Session.evaluation_run, htable] at hd
    rcases List.mem_append.1 hd with hd | hd
    · obtain ⟨e, he, rfl⟩ := List.mem_map.1 hd
      obtain ⟨i, hi⟩ := exists_unit_of_error he
      exact (located_unit rfl).1 e hi
    · obtain ⟨w, hw, rfl⟩ := List.mem_map.1 hd
      have hlast := warnings_evaluate (before.map programOf) (programOf chunk)
      exact located_warnings before chunk (Nat.le_refl _) w (hlast ▸ hw)

/-- The name that is not found is one of the text that installed the declaration, which stands on
another line than the unit that fails. -/
example : ((Session.runs {} [(.interactive, "decl a: b")]).2.run .interactive
    "\na").1.evaluation.errors.map (fun d => (d.token.lexeme, d.token.start.line)) =
      [("b", 1)] := by
  decide +kernel

end LazyDecl
