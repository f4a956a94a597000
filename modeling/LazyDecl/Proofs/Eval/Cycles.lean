import Mathlib.Logic.Relation
import LazyDecl.Proofs.Eval.Growth
import LazyDecl.Proofs.Eval.References

/-!
Cycles among declarations. The body of a deferred declaration mentions names; a complaint of a
cycle means that these mentions go round.

* `Stack.Confined.leads`: the computations on the stack lead, mention by mention, from the unit
  to all that the innermost one may ask for;
* `cyclic_of_blames`: so a name that is asked for while it is running leads back to itself;
* `cycle_errors_sound`: in every session each complaint of a cycle comes from such a name, and
  where no cycle can be reached from a unit, the unit gives no such complaint.
-/

namespace LazyDecl

open Relation (TransGen ReflTransGen)

/-- The body that is deferred under the first name mentions the second one. -/
def Declarations.Mentions (d : Declarations Expr Value) (a b : String) : Prop :=
  ∃ body, d.find? a = some (.deferred body) ∧ b ∈ body.mentions

/-- The first table defers nothing but what the second one defers. -/
def Declarations.Within (d d' : Declarations Expr Value) : Prop :=
  ∀ n body, d.find? n = some (.deferred body) → d'.find? n = some (.deferred body)

theorem Declarations.Within.mentions {d d' : Declarations Expr Value} (h : d.Within d') :
    d.Mentions ≤ d'.Mentions :=
  fun _ _ ⟨body, hbody, hmem⟩ => ⟨body, h _ _ hbody, hmem⟩

/-! ## The chain of mentions -/

/-- If all that is running is deferred in a table, then in that table each name in the scope of
the innermost computation can be reached from a name of the unit, and from every name whose
computation is running. -/
theorem Stack.Confined.leads {α β : Type} {blamed : String → Prop} {root : List String}
    {Q : α → Prop} {d : Declarations Expr Value} {stack : Stack α β}
    (h : stack.Confined blamed root Q)
    (hd : ∀ n body, (n, body) ∈ stack.bodies → d.find? n = some (.deferred body)) :
    ∀ x ∈ stack.scope root, (∃ m ∈ root, ReflTransGen d.Mentions m x) ∧
      ∀ n ∈ stack.names, TransGen d.Mentions n x := by
  induction stack with
  | empty => exact fun x hx => ⟨⟨x, hx, .refl⟩, fun n hn => nomatch hn⟩
  | running name body next outer ih =>
    intro x hx
    obtain ⟨hname, -, houter⟩ := h
    have hbody : d.Mentions name x := ⟨body, hd name body (List.mem_cons_self ..), hx⟩
    obtain ⟨⟨m, hm, hreach⟩, hnames⟩ :=
      ih houter (fun n b hb => hd n b (List.mem_cons_of_mem _ hb)) name hname
    refine ⟨⟨m, hm, hreach.tail hbody⟩, List.forall_mem_cons.2 ⟨.single hbody, ?_⟩⟩
    exact fun n hn => (hnames n hn).tail hbody

namespace Config

variable {α : Type}

/-- **A name that is asked for while it is running leads back to itself,** and a name of the
unit leads to it. -/
theorem cyclic_of_blames {blamed : String → Prop} {root : List String} {Q : α → Prop}
    {c : Config α} (hc : c.Confined blamed root Q) (hs : c.Sound) {n : String}
    (h : c.blames? = some n) :
    (∃ m ∈ root, ReflTransGen c.settled.Mentions m n) ∧ TransGen c.settled.Mentions n n := by
  obtain ⟨hplan, hstack, -⟩ := hc
  obtain ⟨plan, stack, s⟩ := c
  cases plan with
  | ask q next =>
    simp only [blames?] at h
    split at h
    · next hm =>
      obtain ⟨⟨t, rfl, hscope⟩, -⟩ := hplan
      obtain rfl : t.lexeme = n := Option.some.inj h
      obtain ⟨hroot, hrunning⟩ :=
        hstack.leads (fun _ _ hb => Stack.deferred_putBack hs hb) _ hscope
      exact ⟨hroot, hrunning _ ((hs.forcing _).1 hm)⟩
    · cases h
  | done | fail | warn => cases h

/-- A step defers nothing. -/
theorem Step.within {c d : Config α} (h : Step c d) (hc : c.Sound) :
    d.settled.Within c.settled := by
  intro n body hn
  rw [h.settled_eq hc] at hn
  cases hf : c.finished? with
  | none =>
    rw [hf] at hn
    exact hn
  | some e =>
    rw [hf, Declarations.find?_set] at hn
    obtain ⟨memo, hmemo, heq⟩ := Option.map_eq_some_iff.1 hn
    split at heq
    · cases heq
    · rw [hmemo, heq]

end Config

/-- All along a run nothing is deferred that was not deferred at its start. -/
theorem Run.within {α : Type} {c : Config α} {trace : List (Config α)}
    {r : EStateM.Result EvalError EvalState α} (h : Run c trace r) (hc : c.Sound) :
    ∀ d ∈ trace, d.settled.Within c.settled := by
  have hall := h.invariant (P := fun d => d.Sound ∧ d.settled.Within c.settled)
    ⟨hc, fun _ _ hn => hn⟩ fun _ _ _ ⟨hsound, hwithin⟩ hs =>
      ⟨hsound.step hs, fun n body hn => hwithin n body (hs.within hsound n body hn)⟩
  exact fun d hd => (hall d hd).2

/-! ## Complaints -/

/-- The message tells a cycle from all other causes. -/
theorem EvalCause.cycle?_of_message {cause : EvalCause} {n : String}
    (h : cause.message = "cyclic declaration `" ++ n ++ "`") : cause.cycle? = some n := by
  -- Two letters are enough: no name can be found, either.
  have hletters : cause.message.toList.take 2 = ['c', 'y'] := by
    rw [h]
    simp
  unfold message at h hletters
  cases cause with
  | cyclicDeclaration name =>
    have hchars := congrArg String.toList h
    simp only [String.toList_append] at hchars
    have hname := List.append_cancel_left (List.append_cancel_right hchars)
    exact congrArg some (String.toList_inj.1 hname)
  | _ => simp at hletters

/-- **Cycle errors are never false.** Whatever a session has evaluated before, failed units
included: if a name is asked for while its computation is running, then in the table at that
moment, with the bodies of all that is running, the mentions lead from the name back to it. A
unit fails with a complaint of a cycle only if it came to such a moment. So it never does if no
name that can be reached from it, in the table that it finds, leads back to itself. -/
theorem cycle_errors_sound (ps : List Program) (p : Program) (i : Fin p.items.length) :
    ∃ trace r, Run (.ofUnit p.mode (p.items.get i) (stateBefore ps p i)) trace r ∧
      (p.evaluate (evaluateAll ps ∅).2).1.results[(i : Nat)]? = some (Eval.outcome r) ∧
      (∀ c ∈ trace, ∀ n, c.blames? = some n → TransGen c.settled.Mentions n n) ∧
      (∀ e n, Eval.outcome r = .error e → e.cause.message = "cyclic declaration `" ++ n ++ "`" →
        ∃ c ∈ trace, c.blames? = some n ∧ TransGen c.settled.Mentions n n) ∧
      ((∀ m ∈ (p.items.get i).mentions, ∀ n,
          ReflTransGen (stateBefore ps p i).declarations.Mentions m n →
            ¬TransGen (stateBefore ps p i).declarations.Mentions n n) →
        ∀ e n, Eval.outcome r = .error e →
          e.cause.message ≠ "cyclic declaration `" ++ n ++ "`") := by
  obtain ⟨trace, h⟩ := run_ofUnit p.mode (p.items.get i) (stateBefore ps p i)
  have hsound := Config.sound_ofUnit p.mode (p.items.get i) (marked_stateBefore ps p i)
  -- The names to blame are those for which the run itself comes to such a moment.
  have hconfined : ∀ c ∈ trace, c.Confined (fun n => ∃ c ∈ trace, c.blames? = some n)
      (p.items.get i).mentions (p.items.get i).Yields :=
    h.confined (Config.confined_ofUnit p.mode (p.items.get i) (proper_stateBefore ps p i))
      fun c hc n hn => ⟨c, hc, hn⟩
  have hcycle : ∀ c ∈ trace, ∀ n, c.blames? = some n →
      (∃ m ∈ (p.items.get i).mentions, ReflTransGen c.settled.Mentions m n) ∧
        TransGen c.settled.Mentions n n :=
    fun c hc n => Config.cyclic_of_blames (hconfined c hc) (h.sound hsound c hc)
  have herror : ∀ e n, Eval.outcome (p.mode.evaluate (p.items.get i) (stateBefore ps p i)) =
      .error e → e.cause.message = "cyclic declaration `" ++ n ++ "`" →
        ∃ c ∈ trace, c.blames? = some n := fun e n he hmessage =>
    (hconfined _ h.ended_mem).result.2 e he n (EvalCause.cycle?_of_message hmessage)
  refine ⟨trace, _, h, results_getElem? ps p i, fun c hc n hn => (hcycle c hc n hn).2, ?_, ?_⟩
  · intro e n he hmessage
    obtain ⟨c, hc, hn⟩ := herror e n he hmessage
    exact ⟨c, hc, hn, (hcycle c hc n hn).2⟩
  · intro hacyclic e n he hmessage
    obtain ⟨c, hc, hn⟩ := herror e n he hmessage
    obtain ⟨⟨m, hm, hreach⟩, hround⟩ := hcycle c hc n hn
    have hwithin := h.within hsound c hc
    rw [settled_ofUnit, declared?_of_error h he] at hwithin
    exact hacyclic m hm n (ReflTransGen.mono hwithin.mentions _ _ hreach)
      (TransGen.mono hwithin.mentions _ _ hround)

end LazyDecl
