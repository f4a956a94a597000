import LazyDecl.Prompt
import LazyDecl.Proofs.Session

/-!
The prompt neither loses nor repeats lines. The lines are cut into stretches, each the shortest
one whose brackets close, and lines that wait for more (`Prompt.Parts`); there is one way to do
so (`Parts.unique`). The stretches are run one after the other in one session
(`prompt_parts`). The depth is that of all lines of a stretch as one text: a line may well end
a string or a comment that an earlier one has opened, so it is not added up from line to line.
-/

namespace LazyDecl.Prompt

/-- The bracket depth of lines as one text. -/
def depth (lines : List String) : Int := bracketDepth (tokens ("\n".intercalate lines))

/-- Wherever the lines are broken off, a bracket is open. -/
def Open (lines : List String) : Prop := ∀ front, front <+: lines → front ≠ [] → 0 < depth front

/-- No bracket is open behind the last line, and one is open behind each line before it. -/
structure Closes (lines : List String) : Prop where
  ne_nil : lines ≠ []
  closed : depth lines ≤ 0
  shortest : ∀ front, front <+: lines → front ≠ [] → front ≠ lines → 0 < depth front

/-- The lines are these stretches, one behind the other, and the pending lines behind them. -/
inductive Parts : List String → List (List String) → List String → Prop
  | pending {lines : List String} : Open lines → Parts lines [] lines
  | run {stretch rest pending : List String} {stretches : List (List String)} :
      Closes stretch → Parts rest stretches pending →
      Parts (stretch ++ rest) (stretch :: stretches) pending

variable {lines rest rest' pending pending' stretch stretch' : List String}
  {stretches stretches' : List (List String)}

theorem open_nil : Open [] := fun _ hfront hne => absurd (List.prefix_nil.1 hfront) hne

theorem Parts.lines_eq (h : Parts lines stretches pending) :
    lines = stretches.flatten ++ pending := by
  induction h with
  | pending => rfl
  | run _ _ ih => rw [List.flatten_cons, List.append_assoc, ← ih]

theorem Open.not_closes (h : Open (stretch ++ rest)) : ¬Closes stretch := fun hclose =>
  Int.not_le.2 (h stretch (List.prefix_append _ _) hclose.ne_nil) hclose.closed

/-- Of the stretches in front of some lines, only one is the shortest. -/
theorem Closes.unique (h : Closes stretch) (h' : Closes stretch')
    (heq : stretch ++ rest = stretch' ++ rest') : stretch = stretch' := by
  have hfront : stretch <+: stretch' ++ rest' := heq ▸ List.prefix_append _ _
  rcases List.prefix_or_prefix_of_prefix hfront (List.prefix_append stretch' rest') with hle | hle
  · by_contra hne
    exact Int.not_le.2 (h'.shortest stretch hle h.ne_nil hne) h.closed
  · by_contra hne
    exact Int.not_le.2 (h.shortest stretch' hle h'.ne_nil (Ne.symm hne)) h'.closed

/-- **Lines have only one such partition.** -/
theorem Parts.unique (h : Parts lines stretches pending) (h' : Parts lines stretches' pending') :
    stretches = stretches' ∧ pending = pending' := by
  induction h generalizing stretches' with
  | pending hopen =>
    cases h' with
    | pending => exact ⟨rfl, rfl⟩
    | run hclose _ => exact absurd hclose hopen.not_closes
  | @run stretch rest _ stretches hclose _ ih =>
    generalize hlines : stretch ++ rest = lines at h'
    cases h' with
    | pending hopen => exact absurd hclose (hlines ▸ hopen).not_closes
    | run hclose' hrest =>
      obtain rfl := hclose.unique hclose' hlines
      obtain rfl := List.append_cancel_left hlines
      obtain ⟨rfl, rfl⟩ := ih hrest
      exact ⟨rfl, rfl⟩

/-! ## One line -/

theorem push_open {p : Prompt} {line : String} (h : 0 < depth (p.pending ++ [line])) :
    p.push line = (none, { p with pending := p.pending ++ [line] }) :=
  if_pos h

theorem push_closed {p : Prompt} {line : String} (h : depth (p.pending ++ [line]) ≤ 0) :
    p.push line = (some (p.session.run .interactive ("\n".intercalate (p.pending ++ [line]))).1,
      { session := (p.session.run .interactive ("\n".intercalate (p.pending ++ [line]))).2
        pending := [] }) :=
  if_neg (Int.not_lt.2 h)

/-- The lines in front of a further one are some of those that were there before. -/
theorem Open.front {line : String} (h : Open pending) {front : List String}
    (hfront : front <+: pending ++ [line]) (hne : front ≠ []) (hlast : front ≠ pending ++ [line]) :
    0 < depth front := by
  rcases List.prefix_concat_iff.1 hfront with rfl | hfront
  · exact absurd rfl hlast
  · exact h front hfront hne

theorem Open.concat {line : String} (h : Open pending) (hopen : 0 < depth (pending ++ [line])) :
    Open (pending ++ [line]) := by
  intro front hfront hne
  by_cases hlast : front = pending ++ [line]
  · exact hlast ▸ hopen
  · exact h.front hfront hne hlast

theorem Open.closes {line : String} (h : Open pending) (hclosed : depth (pending ++ [line]) ≤ 0) :
    Closes (pending ++ [line]) :=
  ⟨List.concat_ne_nil _ _, hclosed, fun _ => h.front⟩

/-! ## Lines one after the other -/

/-- Takes lines one after the other. -/
def pushAll (p : Prompt) : List String → List (Option Outcome) × Prompt
  | [] => ([], p)
  | line :: lines =>
    let (outcome?, next) := p.push line
    let (outcomes, last) := next.pushAll lines
    (outcome? :: outcomes, last)

/-- What the lines get: the last line of each stretch the outcome of the stretch, all other
lines nothing. -/
def answers : List (List String) → List Outcome → List String → List (Option Outcome)
  | stretch :: stretches, outcome :: outcomes, pending =>
    List.replicate (stretch.length - 1) none ++ some outcome :: answers stretches outcomes pending
  | _, _, pending => List.replicate pending.length none

/-- Each stretch as one source text of the prompt. -/
def chunks (stretches : List (List String)) : List (Mode × String) :=
  stretches.map fun stretch => (.interactive, "\n".intercalate stretch)

/-- What comes of further lines behind those that are pending. -/
theorem parts_pushAll (p : Prompt) (hp : Open p.pending) (lines : List String) :
    ∃ stretches, Parts (p.pending ++ lines) stretches (p.pushAll lines).2.pending ∧
      List.replicate p.pending.length none ++ (p.pushAll lines).1 =
        answers stretches (p.session.runs (chunks stretches)).1 (p.pushAll lines).2.pending ∧
      (p.pushAll lines).2.session = (p.session.runs (chunks stretches)).2 := by
  induction lines generalizing p with
  | nil =>
    rw [List.append_nil]
    exact ⟨[], .pending hp, List.append_nil _, rfl⟩
  | cons line lines ih =>
    by_cases h : 0 < depth (p.pending ++ [line])
    · obtain ⟨stretches, hparts, hanswers, hsession⟩ :=
        ih { p with pending := p.pending ++ [line] } (hp.concat h)
      rw [pushAll, push_open h, List.append_cons]
      refine ⟨stretches, hparts, ?_, hsession⟩
      rw [← hanswers, List.length_append, List.length_singleton, List.replicate_succ',
        List.append_assoc]
      rfl
    · have hclosed := Int.not_lt.1 h
      obtain ⟨stretches, hparts, hanswers, hsession⟩ := ih (p.push line).2
        (by rw [push_closed hclosed]; exact open_nil)
      rw [pushAll, push_closed hclosed] at *
      refine ⟨(p.pending ++ [line]) :: stretches, ?_, ?_, hsession⟩
      · rw [List.append_cons]
        exact .run (hp.closes hclosed) hparts
      · rw [chunks, List.map_cons, Session.runs, answers, List.length_append, List.length_singleton,
          Nat.add_sub_cancel]
        exact congrArg _ (congrArg _ hanswers)

/-- **The prompt neither loses nor repeats lines.** Whatever lines a new prompt takes, they are,
in their order, stretches that were run and the pending lines behind them: each stretch is the
shortest one in front of the lines that remain whose brackets close, and a bracket stays open
wherever the pending lines are broken off. No other partition is like this. The last line of a
stretch gets the outcome of the stretch, any other line gets nothing, and the outcomes are those
of the stretches run one after the other in one session, which is the session of the prompt. -/
theorem prompt_parts (lines : List String) :
    ∃ stretches, Parts lines stretches (pushAll {} lines).2.pending ∧
      lines = stretches.flatten ++ (pushAll {} lines).2.pending ∧
      (∀ stretches' pending', Parts lines stretches' pending' →
        stretches' = stretches ∧ pending' = (pushAll {} lines).2.pending) ∧
      (pushAll {} lines).1 =
        answers stretches (Session.runs {} (chunks stretches)).1 (pushAll {} lines).2.pending ∧
      (pushAll {} lines).2.session = (Session.runs {} (chunks stretches)).2 := by
  obtain ⟨stretches, hparts, hanswers, hsession⟩ := parts_pushAll {} open_nil lines
  exact ⟨stretches, hparts, hparts.lines_eq, fun _ _ h => h.unique hparts, hanswers, hsession⟩

/-- Each line has an open bracket if read alone. The second one ends the string of the first. -/
example : [depth ["[\"["], depth ["[\"]"], depth ["[\"[", "[\"]"]] = [1, 1, 0] := by
  decide +kernel

end LazyDecl.Prompt
