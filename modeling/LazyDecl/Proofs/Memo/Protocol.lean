import LazyDecl.Memo.Reentrant

/-!
The protocol of a memo whose computation may ask for it while it runs. What can happen next is
told step by step, without a difference between a force from outside and one from inside
(`Cell.Step`): both start a run wherever they find the memo deferred.

* `Phase.step`: the memo waits, or is being forced by the one run in progress, or has its value;
* `path_perform`: a run comes to an end, by such steps;
* `memo_protocol`: so does every force from outside, and all paths keep the protocol.
-/

namespace LazyDecl

namespace Memo

variable {β α : Type}

-- What can be asked of a memo is answered by what is seen of it.

@[simp] theorem isForced_seen (memo : Memo β α) : memo.seen.isForced = memo.isForced := by
  cases memo <;> rfl

@[simp] theorem isForcing_seen (memo : Memo β α) : memo.seen.isForcing = memo.isForcing := by
  cases memo <;> rfl

@[simp] theorem value?_seen (memo : Memo β α) : memo.seen.value? = memo.value? := by
  cases memo <;> rfl

@[simp] theorem describe_seen (text : α → String) (memo : Memo β α) :
    memo.seen.describe text = memo.describe text := by
  cases memo <;> rfl

end Memo

namespace Cell

variable {ε α : Type}

/-! ## Requests -/

/-- What may come from outside: a force, or a look at the memo, which is all that a question
about its state or its value needs. -/
inductive Request where
  | force
  | look
  deriving DecidableEq

inductive Reply (ε α : Type) where
  | outcome (outcome : Except ε α)
  | seen (memo : Memo Unit α)

def Reply.request : Reply ε α → Request
  | outcome _ => .force
  | seen _ => .look

/-- A cell that has not been asked for anything. -/
def new (body : Nat → Reentrant ε α) : Cell ε α := { memo := .deferred body }

def reply (cycle : ε) (c : Cell ε α) : Request → Reply ε α × Cell ε α
  | .look => (.seen c.memo.seen, c)
  | .force =>
    match c.force cycle with
    | .ok value d => (.outcome (.ok value), d)
    | .error e d => (.outcome (.error e), d)

/-- The replies to one request after the other. -/
def serve (cycle : ε) : List Request → Cell ε α → List (Reply ε α) × Cell ε α
  | [], c => ([], c)
  | r :: rs, c =>
    let (answer, d) := c.reply cycle r
    let (answers, last) := serve cycle rs d
    (answer :: answers, last)

/-! ## Steps -/

/-- A run that has not ended: what it is a run of, and what is left of it. -/
structure Active (ε α : Type) where
  body : Nat → Reentrant ε α
  left : Reentrant ε α

structure Moment (ε α : Type) where
  memo : Memo (Nat → Reentrant ε α) α
  /-- How many runs have been started. -/
  runs : Nat
  /-- The runs in progress, the innermost first. -/
  active : List (Active ε α)

/-- Between two requests from outside. -/
def idle (c : Cell ε α) : Moment ε α := ⟨c.memo, c.runs, []⟩

inductive Act (ε α : Type) where
  | looked (memo : Memo Unit α)
  /-- A force is answered without a run. -/
  | answered (outcome : Except ε α)
  /-- A force starts a run. -/
  | started
  /-- A run ends, which answers the force that has started it. -/
  | ended (outcome : Except ε α)

/-- What happens, and in how many runs in progress. -/
structure Event (ε α : Type) where
  depth : Nat
  act : Act ε α

/-- Whether a force may come: from outside, or from the innermost run. -/
def MayForce : List (Active ε α) → Prop
  | [] => True
  | run :: _ => ∃ next, run.left = .force next

theorem mayForce_outside : MayForce ([] : List (Active ε α)) := trivial

theorem mayForce_inside (body : Nat → Reentrant ε α) (next : Except ε α → Reentrant ε α)
    (outer : List (Active ε α)) : MayForce (⟨body, .force next⟩ :: outer) := ⟨next, rfl⟩

/-- The innermost run goes on with the outcome of its force. A force from outside leaves nothing
to go on with. -/
def resume (outcome : Except ε α) : List (Active ε α) → List (Active ε α)
  | ⟨body, .force next⟩ :: outer => ⟨body, next outcome⟩ :: outer
  | active => active

/-- What a run leaves in the memo: its value, or its computation if it has failed. -/
def settled (body : Nat → Reentrant ε α) : Except ε α → Memo (Nat → Reentrant ε α) α
  | .ok v => .ready v
  | .error _ => .deferred body

/-- All that can happen next. -/
inductive Step (cycle : ε) : Moment ε α → Act ε α → Moment ε α → Prop
  | look (memo : Memo (Nat → Reentrant ε α) α) (runs : Nat) :
      Step cycle ⟨memo, runs, []⟩ (.looked memo.seen) ⟨memo, runs, []⟩
  | lookInside (memo : Memo (Nat → Reentrant ε α) α) (runs : Nat) (body : Nat → Reentrant ε α)
      (next : Memo Unit α → Reentrant ε α) (outer : List (Active ε α)) :
      Step cycle ⟨memo, runs, ⟨body, .look next⟩ :: outer⟩ (.looked memo.seen)
        ⟨memo, runs, ⟨body, next memo.seen⟩ :: outer⟩
  | stored {active : List (Active ε α)} (h : MayForce active) (v : α) (runs : Nat) :
      Step cycle ⟨.ready v, runs, active⟩ (.answered (.ok v))
        ⟨.ready v, runs, resume (.ok v) active⟩
  | cyclic {active : List (Active ε α)} (h : MayForce active) (runs : Nat) :
      Step cycle ⟨.forcing, runs, active⟩ (.answered (.error cycle))
        ⟨.forcing, runs, resume (.error cycle) active⟩
  | start {active : List (Active ε α)} (h : MayForce active) (body : Nat → Reentrant ε α)
      (runs : Nat) :
      Step cycle ⟨.deferred body, runs, active⟩ .started
        ⟨.forcing, runs + 1, ⟨body, body runs⟩ :: active⟩
  | finish (memo : Memo (Nat → Reentrant ε α) α) (runs : Nat) (body : Nat → Reentrant ε α)
      (outcome : Except ε α) (outer : List (Active ε α)) :
      Step cycle ⟨memo, runs, ⟨body, .finish outcome⟩ :: outer⟩ (.ended outcome)
        ⟨settled body outcome, runs, resume outcome outer⟩

/-- One step after the other. -/
inductive Path (cycle : ε) : Moment ε α → List (Event ε α) → Moment ε α → Prop
  | nil (m : Moment ε α) : Path cycle m [] m
  | cons {m k last : Moment ε α} {act : Act ε α} {events : List (Event ε α)} :
      Step cycle m act k → Path cycle k events last →
      Path cycle m (⟨m.active.length, act⟩ :: events) last

/-- What the outside is told. -/
def Event.reply? : Event ε α → Option (Reply ε α)
  | ⟨0, .looked memo⟩ => some (.seen memo)
  | ⟨0, .answered outcome⟩ => some (.outcome outcome)
  | ⟨1, .ended outcome⟩ => some (.outcome outcome)
  | _ => none

def Event.isStart : Event ε α → Bool
  | ⟨_, .started⟩ => true
  | _ => false

variable {cycle : ε} {m k last : Moment ε α} {events later : List (Event ε α)}

theorem Path.append (h : Path cycle m events k) (h' : Path cycle k later last) :
    Path cycle m (events ++ later) last := by
  induction h with
  | nil => exact h'
  | cons hstep _ ih => exact .cons hstep (ih h')

theorem Path.split (h : Path cycle m (events ++ later) last) :
    ∃ k, Path cycle m events k ∧ Path cycle k later last := by
  induction events generalizing m with
  | nil => exact ⟨m, .nil m, h⟩
  | cons event events ih =>
    cases h with
    | cons hstep hrest =>
      obtain ⟨k, hfront, hback⟩ := ih hrest
      exact ⟨k, .cons hstep hfront, hback⟩

/-! ## Phases -/

/-- The memo waits, or is being forced by the one run in progress, or has its value. -/
inductive Phase (body : Nat → Reentrant ε α) : Moment ε α → Prop
  | waiting (runs : Nat) : Phase body ⟨.deferred body, runs, []⟩
  | running (runs : Nat) (left : Reentrant ε α) : Phase body ⟨.forcing, runs, [⟨body, left⟩]⟩
  | done (v : α) (runs : Nat) : Phase body ⟨.ready v, runs, []⟩

section Phases

variable {body : Nat → Reentrant ε α} {runs : Nat} {act : Act ε α}

/-- A memo that waits is looked at, or a run of its computation starts. -/
theorem step_waiting : Step cycle ⟨.deferred body, runs, []⟩ act k ↔
    (act = .looked (.deferred ()) ∧ k = ⟨.deferred body, runs, []⟩) ∨
      (act = .started ∧ k = ⟨.forcing, runs + 1, [⟨body, body runs⟩]⟩) := by
  constructor
  · intro h
    cases h with
    | look => exact .inl ⟨rfl, rfl⟩
    | start => exact .inr ⟨rfl, rfl⟩
  · rintro (⟨rfl, rfl⟩ | ⟨rfl, rfl⟩)
    · exact .look _ runs
    · exact .start mayForce_outside body runs

/-- A memo that has its value is looked at, or a force is answered with the value. -/
theorem step_done {v : α} : Step cycle ⟨.ready v, runs, []⟩ act k ↔
    (act = .looked (.ready v) ∨ act = .answered (.ok v)) ∧ k = ⟨.ready v, runs, []⟩ := by
  constructor
  · intro h
    cases h with
    | look => exact ⟨.inl rfl, rfl⟩
    | stored => exact ⟨.inr rfl, rfl⟩
  · rintro ⟨rfl | rfl, rfl⟩
    · exact .look _ runs
    · exact .stored mayForce_outside v runs

/-- A force from inside reports the cycle, and that is all that happens. -/
theorem step_force {next : Except ε α → Reentrant ε α} :
    Step cycle ⟨.forcing, runs, [⟨body, .force next⟩]⟩ act k ↔
      act = .answered (.error cycle) ∧
        k = ⟨.forcing, runs, [⟨body, next (.error cycle)⟩]⟩ := by
  constructor
  · intro h
    cases h with
    | cyclic => exact ⟨rfl, rfl⟩
  · rintro ⟨rfl, rfl⟩
    exact .cyclic (mayForce_inside body next []) runs

/-- A look from inside sees that the memo is being forced. -/
theorem step_look {next : Memo Unit α → Reentrant ε α} :
    Step cycle ⟨.forcing, runs, [⟨body, .look next⟩]⟩ act k ↔
      act = .looked .forcing ∧ k = ⟨.forcing, runs, [⟨body, next .forcing⟩]⟩ := by
  constructor
  · intro h
    cases h with
    | lookInside => exact ⟨rfl, rfl⟩
    | cyclic h =>
      obtain ⟨other, hother⟩ := h
      cases hother
  · rintro ⟨rfl, rfl⟩
    exact .lookInside _ runs body next []

/-- A run that has come to its end puts its value into the memo, or its computation back. -/
theorem step_finish {outcome : Except ε α} :
    Step cycle ⟨.forcing, runs, [⟨body, .finish outcome⟩]⟩ act k ↔
      act = .ended outcome ∧ k = ⟨settled body outcome, runs, []⟩ := by
  constructor
  · intro h
    cases h with
    | cyclic h =>
      obtain ⟨other, hother⟩ := h
      cases hother
    | finish => exact ⟨rfl, rfl⟩
  · rintro ⟨rfl, rfl⟩
    exact .finish _ runs body outcome []

/-- **A step leads from one phase to another.** -/
theorem Phase.step (h : Phase body m) (hstep : Step cycle m act k) : Phase body k := by
  cases h with
  | waiting runs =>
    rcases step_waiting.1 hstep with ⟨-, rfl⟩ | ⟨-, rfl⟩
    · exact .waiting runs
    · exact .running (runs + 1) (body runs)
  | running runs left =>
    cases left with
    | finish outcome =>
      obtain ⟨-, rfl⟩ := step_finish.1 hstep
      cases outcome with
      | ok v => exact .done v runs
      | error e => exact .waiting runs
    | look next =>
      obtain ⟨-, rfl⟩ := step_look.1 hstep
      exact .running runs _
    | force next =>
      obtain ⟨-, rfl⟩ := step_force.1 hstep
      exact .running runs _
  | done v runs =>
    obtain ⟨-, rfl⟩ := step_done.1 hstep
    exact .done v runs

theorem Phase.path (h : Phase body m) (hpath : Path cycle m events last) : Phase body last := by
  induction hpath with
  | nil => exact h
  | cons hstep _ ih => exact ih (h.step hstep)

end Phases

/-! ## Requests are answered -/

section Answers

variable {body : Nat → Reentrant ε α}

/-- How a computation ends and in which state. -/
def result : Except ε α → Cell ε α → EStateM.Result ε (Cell ε α) α
  | .ok v, d => .ok v d
  | .error e, d => .error e d

theorem forceInside_forcing {c : Cell ε α} (hc : c.memo = .forcing) :
    forceInside cycle c = .error cycle { c with inside := c.inside ++ [c.memo] } := by
  unfold forceInside
  rw [hc]
  rfl

theorem perform_look (next : Memo Unit α → Reentrant ε α) (c : Cell ε α) :
    perform cycle (.look next) c = perform cycle (next c.memo.seen) c := rfl

theorem perform_force (next : Except ε α → Reentrant ε α) {c : Cell ε α}
    (hc : c.memo = .forcing) : perform cycle (.force next) c =
      perform cycle (next (.error cycle)) { c with inside := c.inside ++ [c.memo] } := by
  simp only [perform, forceInside_forcing hc]

/-- **A run comes to its end,** whatever it looks at and forces, and the outside is told nothing
before. -/
theorem path_perform (cycle : ε) (body : Nat → Reentrant ε α) (left : Reentrant ε α)
    {c : Cell ε α} (hc : c.memo = .forcing) :
    ∃ events outcome d, perform cycle left c = result outcome d ∧ d.runs = c.runs ∧
      Path cycle ⟨.forcing, c.runs, [⟨body, left⟩]⟩ events
        ⟨.forcing, c.runs, [⟨body, .finish outcome⟩]⟩ ∧
      events.filterMap Event.reply? = [] := by
  induction left generalizing c with
  | finish outcome =>
    refine ⟨[], outcome, c, ?_, rfl, .nil _, rfl⟩
    cases outcome <;> rfl
  | look next ih =>
    obtain ⟨events, outcome, d, hd, hruns, hpath, hreplies⟩ := ih .forcing hc
    have hseen : perform cycle (.look next) c = perform cycle (next .forcing) c := by
      rw [perform_look, hc, Memo.seen]
    exact ⟨_, outcome, d, hseen.trans hd, hruns, .cons (step_look.2 ⟨rfl, rfl⟩) hpath, hreplies⟩
  | force next ih =>
    have hnoted : ({ c with inside := c.inside ++ [c.memo] } : Cell ε α).memo = .forcing := hc
    obtain ⟨events, outcome, d, hd, hruns, hpath, hreplies⟩ := ih (.error cycle) hnoted
    exact ⟨_, outcome, d, (perform_force next hc).trans hd, hruns,
      .cons (step_force.2 ⟨rfl, rfl⟩) hpath, hreplies⟩

theorem force_deferred {c d : Cell ε α} {outcome : Except ε α} (hc : c.memo = .deferred body)
    (hd : start cycle body (put .forcing c) = result outcome d) :
    c.force cycle = result outcome (put (settled body outcome) d) := by
  cases outcome with
  | ok v => simp only [force, hc, Memo.force, hd, result, settled]
  | error e => simp only [force, hc, Memo.force, hd, result, settled]

/-- A force that finds the memo deferred starts a run, and the outcome of the run answers it. -/
theorem path_start (cycle : ε) {c : Cell ε α} (hc : c.memo = .deferred body) :
    ∃ events outcome d, c.force cycle = result outcome d ∧ Path cycle c.idle events d.idle ∧
      events.filterMap Event.reply? = [.outcome outcome] := by
  obtain ⟨events, outcome, d, hd, hruns, hpath, hreplies⟩ :=
    @path_perform ε α cycle body (body c.runs) { put .forcing c with runs := c.runs + 1 } rfl
  have hidle : c.idle = ⟨.deferred body, c.runs, []⟩ := by rw [idle, hc]
  have hlast : (put (settled body outcome) d).idle = ⟨settled body outcome, c.runs + 1, []⟩ :=
    congrArg (Moment.mk (settled body outcome) · []) hruns
  have hstart : Step cycle c.idle .started ⟨.forcing, c.runs + 1, [⟨body, body c.runs⟩]⟩ := by
    rw [hidle]
    exact step_waiting.2 (.inr ⟨rfl, rfl⟩)
  have hend : Path cycle ⟨.forcing, c.runs + 1, [⟨body, .finish outcome⟩]⟩
      [⟨1, .ended outcome⟩] (put (settled body outcome) d).idle := by
    rw [hlast]
    exact .cons (step_finish.2 ⟨rfl, rfl⟩) (.nil _)
  refine ⟨_, outcome, _, force_deferred hc hd, .cons hstart (hpath.append hend), ?_⟩
  rw [List.filterMap_cons, List.filterMap_append, hreplies]
  rfl

theorem reply_look (cycle : ε) (c : Cell ε α) :
    c.reply cycle .look = (.seen c.memo.seen, c) := rfl

theorem reply_force {c d : Cell ε α} {outcome : Except ε α}
    (h : c.force cycle = result outcome d) : c.reply cycle .force = (.outcome outcome, d) := by
  cases outcome with
  | ok v => simp only [reply, h, result]
  | error e => simp only [reply, h, result]

/-- **A request is answered,** and what happens meanwhile is a path of steps. -/
theorem path_reply (cycle : ε) {c : Cell ε α} (hc : Phase body c.idle) (r : Request) :
    ∃ events, Path cycle c.idle events (c.reply cycle r).2.idle ∧
      events.filterMap Event.reply? = [(c.reply cycle r).1] ∧
      (c.reply cycle r).1.request = r := by
  obtain ⟨memo, runs, inside⟩ := c
  cases r with
  | look => exact ⟨_, .cons (.look memo runs) (.nil _), rfl, rfl⟩
  | force =>
    have hphase : Phase body ⟨memo, runs, []⟩ := hc
    cases hphase with
    | waiting =>
      obtain ⟨events, outcome, d, hforce, hpath, hreplies⟩ :=
        @path_start ε α body cycle ⟨.deferred body, runs, inside⟩ rfl
      rw [reply_force hforce]
      exact ⟨events, hpath, hreplies, rfl⟩
    | done v =>
      have hforce : force cycle ⟨.ready v, runs, inside⟩ =
          result (.ok v) ⟨.ready v, runs, inside⟩ := rfl
      rw [reply_force hforce]
      exact ⟨_, .cons (step_done.2 ⟨.inr rfl, rfl⟩) (.nil _), rfl, rfl⟩

theorem path_serve (cycle : ε) {c : Cell ε α} (hc : Phase body c.idle) (requests : List Request) :
    ∃ events, Path cycle c.idle events (serve cycle requests c).2.idle ∧
      events.filterMap Event.reply? = (serve cycle requests c).1 ∧
      (serve cycle requests c).1.map Reply.request = requests := by
  induction requests generalizing c with
  | nil => exact ⟨[], .nil _, rfl, rfl⟩
  | cons r rs ih =>
    obtain ⟨events, hpath, hreply, hrequest⟩ := path_reply cycle hc r
    obtain ⟨later, hlater, hreplies, hrequests⟩ := ih (hc.path hpath)
    refine ⟨events ++ later, hpath.append hlater, ?_, ?_⟩
    · rw [List.filterMap_append, hreply, hreplies]
      rfl
    · rw [serve, List.map_cons, hrequest, hrequests]

end Answers

/-! ## The protocol -/

/-- What holds once a cell has come from its first moment to the moment `m`, through these
events. -/
structure Protocol (cycle : ε) (body : Nat → Reentrant ε α) (events : List (Event ε α))
    (m : Moment ε α) : Prop where
  /-- No run starts while another one is in progress. -/
  apart : ∀ depth, ⟨depth, .started⟩ ∈ events → depth = 0
  /-- Each start is that of the next run of the computation. -/
  counted : m.runs = events.countP Event.isStart
  /-- A force from inside does nothing but report the cycle. -/
  cyclic : ∀ run next outer, m.active = ⟨run, .force next⟩ :: outer → ∀ act k,
    Step cycle m act k ↔ act = .answered (.error cycle) ∧
      k = { m with active := ⟨run, next (.error cycle)⟩ :: outer }
  /-- A look from inside sees that the memo is being forced. -/
  seen : ∀ depth memo, ⟨depth + 1, .looked memo⟩ ∈ events → memo = .forcing
  /-- Behind a run that succeeds none starts, and forces and looks give its value. -/
  once : ∀ before depth v after, events = before ++ ⟨depth, .ended (.ok v)⟩ :: after →
    m.memo = .ready v ∧ m.active = [] ∧
      ∀ e ∈ after, e = ⟨0, .answered (.ok v)⟩ ∨ e = ⟨0, .looked (.ready v)⟩
  /-- A run that fails leaves its computation, and the next force runs it again. -/
  retried : ∀ before depth e looks, events = before ++ ⟨depth, .ended (.error e)⟩ :: looks →
    (∀ l ∈ looks, ∃ memo, l.act = .looked memo) → m = ⟨.deferred body, m.runs, []⟩ ∧
      ∀ act k, Step cycle m act k ↔ (act = .looked (.deferred ()) ∧ k = m) ∨
        (act = .started ∧ k = ⟨.forcing, m.runs + 1, [⟨body, body m.runs⟩]⟩)
  /-- Between two requests from outside the memo is not being forced. -/
  idle : m.active = [] → m.memo = .deferred body ∨ ∃ v, m.memo = .ready v

section Protocol

variable {body : Nat → Reentrant ε α}

theorem phase_new (body : Nat → Reentrant ε α) : Phase body (new body).idle := .waiting 0

/-- A run starts where none is in progress. -/
theorem Phase.apart (h : Phase body m) (hstep : Step cycle m .started k) : m.active = [] := by
  cases h with
  | waiting runs => rfl
  | running runs left => cases hstep
  | done v runs => rfl

/-- In front of a run in progress the memo is being forced. -/
theorem Phase.forcing (h : Phase body m) (hm : m.active ≠ []) : m.memo = .forcing := by
  cases h with
  | waiting runs => exact absurd rfl hm
  | running runs left => rfl
  | done v runs => exact absurd rfl hm

/-- The end of a run leaves none in progress. -/
theorem Phase.ended (h : Phase body m) {outcome : Except ε α}
    (hstep : Step cycle m (.ended outcome) k) : k = ⟨settled body outcome, m.runs, []⟩ := by
  cases h with
  | waiting runs => cases hstep
  | running runs left =>
    cases hstep
    rfl
  | done v runs => cases hstep

/-- What holds of all that can happen in a phase holds of all events on a path. -/
theorem Phase.forall_events {P : Event ε α → Prop}
    (hP : ∀ m act k, Phase body m → Step cycle m act k → P ⟨m.active.length, act⟩)
    (h : Phase body m) (hpath : Path cycle m events last) : ∀ e ∈ events, P e := by
  induction hpath with
  | nil => exact nofun
  | cons hstep _ ih => exact List.forall_mem_cons.2 ⟨hP _ _ _ h hstep, ih (h.step hstep)⟩

theorem Phase.apart_path (h : Phase body m) (hpath : Path cycle m events last) {depth : Nat}
    (hstart : ⟨depth, .started⟩ ∈ events) : depth = 0 := by
  refine h.forall_events (P := fun e => e.act = .started → e.depth = 0) ?_ hpath _ hstart rfl
  rintro m act k hm hstep rfl
  exact List.length_eq_zero_iff.2 (hm.apart hstep)

theorem Step.looked_eq {memo : Memo Unit α} (h : Step cycle m (.looked memo) k) :
    memo = m.memo.seen := by
  cases h <;> rfl

theorem Phase.seen_path (h : Phase body m) (hpath : Path cycle m events last) {depth : Nat}
    {memo : Memo Unit α} (hlook : ⟨depth + 1, .looked memo⟩ ∈ events) : memo = .forcing := by
  refine h.forall_events (P := fun e => e.depth ≠ 0 → ∀ memo, e.act = .looked memo →
    memo = .forcing) ?_ hpath _ hlook (Nat.succ_ne_zero depth) memo rfl
  rintro m act k hm hstep hdepth memo rfl
  have hforcing := hm.forcing fun hnil => hdepth (List.length_eq_zero_iff.2 hnil)
  exact hstep.looked_eq.trans (congrArg Memo.seen hforcing)

theorem Step.runs_eq {act : Act ε α} (h : Step cycle m act k) :
    k.runs = m.runs + [(⟨m.active.length, act⟩ : Event ε α)].countP Event.isStart := by
  cases h <;> rfl

theorem Path.runs_eq (h : Path cycle m events last) :
    last.runs = m.runs + events.countP Event.isStart := by
  induction h with
  | nil => rfl
  | cons hstep _ ih =>
    rw [ih, hstep.runs_eq, Nat.add_assoc, ← List.countP_append]
    rfl

/-- Once the memo has its value, nothing changes any more. -/
theorem path_done {v : α} {runs : Nat} (h : Path cycle ⟨.ready v, runs, []⟩ events last) :
    last = ⟨.ready v, runs, []⟩ ∧
      ∀ e ∈ events, e = ⟨0, .answered (.ok v)⟩ ∨ e = ⟨0, .looked (.ready v)⟩ := by
  induction events with
  | nil =>
    cases h
    exact ⟨rfl, nofun⟩
  | cons event events ih =>
    cases h with
    | cons hstep hrest =>
      obtain ⟨hact, rfl⟩ := step_done.1 hstep
      obtain ⟨hlast, hevents⟩ := ih hrest
      refine ⟨hlast, List.forall_mem_cons.2 ⟨?_, hevents⟩⟩
      rcases hact with rfl | rfl
      · exact .inr rfl
      · exact .inl rfl

/-- Looks change nothing. -/
theorem path_looks {m : Moment ε α} (hm : m.active = []) (h : Path cycle m events last)
    (hlooks : ∀ l ∈ events, ∃ memo, l.act = .looked memo) : last = m := by
  induction h with
  | nil => rfl
  | cons hstep _ ih =>
    obtain ⟨⟨memo, hact⟩, hrest⟩ := List.forall_mem_cons.1 hlooks
    cases hact
    cases hstep with
    | look => exact ih rfl hrest
    | lookInside => cases hm

theorem Phase.cyclic (h : Phase body m) {run : Nat → Reentrant ε α}
    {next : Except ε α → Reentrant ε α} {outer : List (Active ε α)}
    (hm : m.active = ⟨run, .force next⟩ :: outer) (act : Act ε α) (k : Moment ε α) :
    Step cycle m act k ↔ act = .answered (.error cycle) ∧
      k = { m with active := ⟨run, next (.error cycle)⟩ :: outer } := by
  cases h with
  | waiting runs => cases hm
  | running runs left =>
    cases hm
    exact step_force
  | done v runs => cases hm

theorem Phase.idle (h : Phase body m) (hm : m.active = []) :
    m.memo = .deferred body ∨ ∃ v, m.memo = .ready v := by
  cases h with
  | waiting runs => exact .inl rfl
  | running runs left => cases hm
  | done v runs => exact .inr ⟨v, rfl⟩

/-- **Every path keeps the protocol.** -/
theorem protocol_path (h : Path cycle (new body).idle events m) : Protocol cycle body events m := by
  have hphase := (phase_new body).path h
  refine ⟨fun _ => (phase_new body).apart_path h, ?_, fun _ _ _ => hphase.cyclic,
    fun _ _ => (phase_new body).seen_path h, ?_, ?_, hphase.idle⟩
  · rw [h.runs_eq]
    exact Nat.zero_add _
  · rintro before depth v after rfl
    obtain ⟨k, hbefore, hafter⟩ := h.split
    cases hafter with
    | cons hstep hrest =>
      rw [((phase_new body).path hbefore).ended hstep] at hrest
      obtain ⟨rfl, hevents⟩ := path_done hrest
      exact ⟨rfl, rfl, hevents⟩
  · rintro before depth e looks rfl hlooks
    obtain ⟨k, hbefore, hafter⟩ := h.split
    cases hafter with
    | cons hstep hrest =>
      rw [((phase_new body).path hbefore).ended hstep] at hrest
      rw [path_looks rfl hrest hlooks]
      exact ⟨rfl, fun _ _ => step_waiting⟩

/-- **A memo keeps its protocol,** whatever its computation is and whatever comes from outside.
Each request is answered, and what happens meanwhile is a path of steps, by which the outside is
told what the replies are. And whatever the path, also up to a moment in the middle of a run: no
run starts while another one is in progress; a force from inside reports the cycle and does
nothing else; one run at most succeeds, and its value is the answer from then on; a run that
fails leaves the computation to be run again. -/
theorem memo_protocol (cycle : ε) (body : Nat → Reentrant ε α) :
    (∀ requests, ∃ events,
      Path cycle (new body).idle events (serve cycle requests (new body)).2.idle ∧
        events.filterMap Event.reply? = (serve cycle requests (new body)).1 ∧
        (serve cycle requests (new body)).1.map Reply.request = requests) ∧
      ∀ events m, Path cycle (new body).idle events m → Protocol cycle body events m :=
  ⟨path_serve cycle (phase_new body), fun _ _ => protocol_path⟩

/-- The first run passes the cycle on that it meets, the later ones swallow it. -/
def secondTry : Nat → Reentrant String Int
  | 0 => .force fun outcome => .look fun _ => .finish outcome
  | _ + 1 => .force fun _ => .finish (.ok 7)

theorem memo_protocol_secondTry :
    let events : List (Event String Int) :=
      [⟨0, .started⟩, ⟨1, .answered (.error "cycle")⟩, ⟨1, .looked .forcing⟩,
        ⟨1, .ended (.error "cycle")⟩, ⟨0, .looked (.deferred ())⟩, ⟨0, .started⟩,
        ⟨1, .answered (.error "cycle")⟩, ⟨1, .ended (.ok 7)⟩, ⟨0, .answered (.ok 7)⟩]
    Path "cycle" (new secondTry).idle events ⟨.ready 7, 2, []⟩ ∧
      (serve "cycle" [.force, .look, .force, .force] (new secondTry)).1 =
        [.outcome (.error "cycle"), .seen (.deferred ()), .outcome (.ok 7), .outcome (.ok 7)] ∧
      Protocol "cycle" secondTry events ⟨.ready 7, 2, []⟩ := by
  intro events
  have hpath : Path "cycle" (new secondTry).idle events ⟨.ready 7, 2, []⟩ :=
    .cons (step_waiting.2 (.inr ⟨rfl, rfl⟩)) <| .cons (step_force.2 ⟨rfl, rfl⟩) <|
      .cons (step_look.2 ⟨rfl, rfl⟩) <| .cons (step_finish.2 ⟨rfl, rfl⟩) <|
      .cons (step_waiting.2 (.inl ⟨rfl, rfl⟩)) <| .cons (step_waiting.2 (.inr ⟨rfl, rfl⟩)) <|
      .cons (step_force.2 ⟨rfl, rfl⟩) <| .cons (step_finish.2 ⟨rfl, rfl⟩) <|
      .cons (step_done.2 ⟨.inr rfl, rfl⟩) <| .nil _
  have hfails : (new secondTry).reply "cycle" .force =
      (.outcome (.error "cycle"), ⟨.deferred secondTry, 1, [.forcing]⟩) := by
    have hstart : start "cycle" secondTry (put .forcing (new secondTry)) =
        result (.error "cycle") ⟨.forcing, 1, [.forcing]⟩ := perform_force _ rfl
    exact reply_force (force_deferred rfl hstart)
  have hsucceeds : reply "cycle" ⟨.deferred secondTry, 1, [.forcing]⟩ .force =
      (.outcome (.ok 7), ⟨.ready 7, 2, [.forcing, .forcing]⟩) := by
    have hstart : start "cycle" secondTry (put .forcing ⟨.deferred secondTry, 1, [.forcing]⟩) =
        result (.ok 7) ⟨.forcing, 2, [.forcing, .forcing]⟩ := perform_force _ rfl
    exact reply_force (force_deferred rfl hstart)
  refine ⟨hpath, ?_, (memo_protocol "cycle" secondTry).2 events _ hpath⟩
  simp only [serve, hfails, reply_look, hsucceeds]
  rfl

end Protocol

end Cell

end LazyDecl
