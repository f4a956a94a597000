import LazyDecl.Proofs.Grammar.Counting
import LazyDecl.Proofs.Grammar.LeadingLine
import LazyDecl.Proofs.Grammar.Progress

/-!
Units are read independently. A run over one state (`Counting.units`) comes to each unit with a
cursor, a mark of what the last step has stepped over, and a counter of open builders. Only the
cursor makes a difference.

* `item_startsAfresh`, `statement_startsAfresh`: a unit does not look at the mark;
* `Agrees.turn`: a turn leaves the counter at zero and the cursor where a turn from a fresh
  state leaves it, also after a failure inside of builders;
* `Turns.splits`: a run consists of the turns that it has taken and of what it is behind them;
* `units_independent`: so from each turn on, the units are those of a fresh run on what is left.
-/

namespace LazyDecl

/-- The input, with the mark that the last step passed over hidden tokens, or without it. -/
def Input.marked (i : Input) (mark : Bool) : Input := { i with skipped := mark }

namespace Input

variable (i : Input) (mark : Bool)

theorem peek_marked (v : View) : (i.marked mark).peek v = i.peek v := rfl

theorem isAtEnd_marked (v : View) : (i.marked mark).isAtEnd v = i.isAtEnd v := rfl

theorem check_marked (v : View) (kind : TokenKind) :
    (i.marked mark).check v kind = i.check v kind := rfl

/-- A step sets the mark anew. -/
theorem advance_marked (v : View) : (i.marked mark).advance v = i.advance v := by
  unfold advance
  have hrest : (i.marked mark).rest = i.rest := rfl
  rw [hrest]
  cases v.ahead i.rest with
  | nil => rfl
  | cons t ts =>
    dsimp only
    split
    · rfl
    · rfl

end Input

namespace Grammar

open LazyDecl.Parser

/-! ## What stands in front of a unit -/

/-- The mark makes no difference to the parser: it takes a token before it looks at the mark, or
fails where it stands. -/
def StartsAfresh {α : Type} (p : Parser α) : Prop :=
  ∀ (i : Input) (mark : Bool), p (i.marked mark) = p i ∨
    ∃ e, p i = .error e i ∧ p (i.marked mark) = .error e (i.marked mark)

section Kit

variable {α β : Type} {p : Parser α} {k : α → Parser β}

theorem StartsAfresh.fail (cause : SyntaxCause) (t : Token) :
    StartsAfresh (fail cause t : Parser α) :=
  fun _ _ => .inr ⟨_, rfl, rfl⟩

theorem StartsAfresh.bind (hp : StartsAfresh p) (k : α → Parser β) : StartsAfresh (p >>= k) := by
  intro i mark
  rw [bind_apply, bind_apply]
  rcases hp i mark with h | ⟨e, hi, hmark⟩
  · exact .inl (by rw [h])
  · exact .inr ⟨e, by rw [hi], by rw [hmark]⟩

theorem StartsAfresh.advance (v : View) : StartsAfresh (advance v) := by
  intro i mark
  rw [advance_apply, advance_apply, Input.advance_marked, Input.peek_marked]
  exact .inl rfl

theorem StartsAfresh.peek_bind (v : View) {k : Token → Parser β} (hk : ∀ t, StartsAfresh (k t)) :
    StartsAfresh (peek v >>= k) := by
  intro i mark
  rw [peek_bind_apply, peek_bind_apply, Input.peek_marked]
  exact hk _ i mark

theorem StartsAfresh.take?_bind (v : View) (f : TokenKind → Option α)
    {k : Option (α × Token) → Parser β} (hk : StartsAfresh (k none)) :
    StartsAfresh (take? v f >>= k) := by
  intro i mark
  rw [bind_apply, bind_apply, take?_apply, take?_apply, Input.advance_marked, Input.peek_marked]
  cases f (i.peek v).kind with
  | none => exact hk i mark
  | some a => exact .inl rfl

theorem StartsAfresh.expect (kind : TokenKind) (cause : SyntaxCause) :
    StartsAfresh (expect kind cause) := by
  intro i mark
  unfold Parser.expect
  rw [bind_apply, bind_apply, accept_apply, accept_apply, Input.check_marked,
    Input.advance_marked, Input.peek_marked]
  cases i.check .visible kind with
  | true => exact .inl rfl
  | false => exact .inr ⟨⟨cause, i.peek .visible⟩, rfl, rfl⟩

end Kit

section Expressions

variable {p : Parser Expr}

theorem primaryOver_startsAfresh (p : Parser Expr) : StartsAfresh (primaryOver p) := by
  refine .peek_bind .visible fun t => ?_
  cases literal? t with
  | some read => exact (StartsAfresh.advance .visible).bind _
  | none =>
    cases t.kind with
    | identifier | leftParen | leftBracket => exact (StartsAfresh.advance .visible).bind _
    | _ => exact .fail _ t

theorem operand_startsAfresh : StartsAfresh (operand : Parser Expr) := by
  have h : StartsAfresh (operandOver operand) :=
    .take?_bind .visible prefixOp? ((primaryOver_startsAfresh operand).bind _)
  intro i mark
  rw [operand_eq, operand_eq]
  exact h i mark

theorem infixLevel_startsAfresh (level : Level) (hp : StartsAfresh p) :
    StartsAfresh (infixLevel level p) :=
  hp.bind _

theorem expression_startsAfresh : StartsAfresh expression := by
  unfold expression expressionOver
  iterate 6 refine infixLevel_startsAfresh _ ?_
  exact operand_startsAfresh

end Expressions

theorem statement_startsAfresh : StartsAfresh statement :=
  (StartsAfresh.expect .identifier .expectedTag).bind _

theorem item_startsAfresh : StartsAfresh item := by
  intro i mark
  have hopens : opensStatement (i.marked mark) = opensStatement i := rfl
  rw [item_apply, item_apply, hopens]
  split
  · exact statement_startsAfresh.bind _ i mark
  · exact expression_startsAfresh.bind _ i mark

/-! ## How a unit ends -/

/-- A unit that began at `start` has ended at `j`: at the end of the input, at a line end that was
stepped over, or with the semicolon or line end that it took last. A closing brace does not end
it. -/
def EndsOutside (start j : Input) : Prop :=
  ∃ m, start.Reaches m ∧ (m = j ∧ (m.isAtEnd .hidden = true ∨ m.skipped = true) ∨
    ∃ t, (t.kind = .semicolon ∨ t.kind = .eol) ∧ m.Takes .hidden t j)

theorem endsOutside_of_endUnit {i m j : Input} (hreach : i.Reaches m)
    (h : endUnit false m = some j) : EndsOutside i j := by
  refine ⟨m, hreach, ?_⟩
  unfold endUnit at h
  split at h
  · next hend => exact .inl ⟨Option.some.inj h, Bool.or_eq_true .. ▸ hend⟩
  split at h
  · next hk =>
    simp only [Bool.or_eq_true, decide_eq_true_eq] at hk
    have hlive : (m.peek .hidden).kind ≠ .eof := by
      rcases hk with hk | hk <;> simp [hk]
    exact .inr ⟨_, hk, Option.some.inj h ▸ Input.takes_peek hlive⟩
  · simp at h

theorem endsOutside_of_statement {s : Statement} {i j : Input} (hi : EndsShown i.rest)
    (h : statement i = .ok s j) : EndsOutside i j := by
  obtain ⟨k, m, -, ht, he, hend⟩ := statement_eq_ok_iff.1 h
  have hk : i.Reaches k := by
    have hadvance := Input.reaches_advance .visible hi
    rwa [ht.advance] at hadvance
  have hm := goesForward.expression k (hk.endsShown hi)
  have hparses : expression k = .ok s.value m := he.parses
  rw [hparses] at hm
  exact endsOutside_of_endUnit (hk.trans hm) hend

theorem endsOutside_of_item {u : Item} {i j : Input} (hi : EndsShown i.rest)
    (h : item i = .ok u j) : EndsOutside i j := by
  rcases item_eq_ok_iff.1 h with ⟨-, s, -, hs⟩ | ⟨-, e, m, -, he, hend⟩
  · exact endsOutside_of_statement hi hs
  · have hm := goesForward.expression i hi
    have hparses : expression i = .ok e m := he.parses
    rw [hparses] at hm
    exact endsOutside_of_endUnit hm hend

namespace Counting

variable {α : Type} {mode : Mode} {unit : Parser α} {counting : Counting α} {c d : Reader}
  {i j : Input}

/-! ## Units of both forms -/

/-- What is asked of a parser of units, and of its form that counts builders. -/
structure Counted (mode : Mode) (unit : Parser α) (counting : Counting α) : Prop where
  counts : ∀ c : Reader, c.depth = 0 → counting c = still unit c
  afresh : StartsAfresh unit
  passes : ∀ i : Input, EndsShown i.rest → i.isAtEnd .visible = false →
    i.Reaches (Grammar.turn unit (unitStart mode i)).2 ∧
      (Grammar.turn unit (unitStart mode i)).2.size < i.size
  ends : ∀ {i j : Input} {a : α}, EndsShown i.rest → unit i = .ok a j → EndsOutside i j

theorem counted_statement : Counted .batch Grammar.statement statement where
  counts _ := statement_apply
  afresh := statement_startsAfresh
  passes _ := turn_passes unitParser_statement statement_forward
  ends := endsOutside_of_statement

theorem counted_item : Counted .interactive Grammar.item item where
  counts _ := item_apply
  afresh := item_startsAfresh
  passes _ := turn_passes unitParser_item item_forward
  ends := endsOutside_of_item

/-! ## A turn -/

/-- No builder is open, and the two inputs are the same but for the mark. -/
structure Agrees (c : Reader) (i : Input) : Prop where
  depth : c.depth = 0
  input : c.input.marked false = i.marked false

theorem Agrees.size_eq (h : Agrees c i) : c.input.size = i.size := by
  have hsize : (c.input.marked false).size = (i.marked false).size := congrArg Input.size h.input
  exact hsize

theorem Agrees.isAtEnd_eq (h : Agrees c i) (v : View) : c.input.isAtEnd v = i.isAtEnd v := by
  rw [← Input.isAtEnd_marked c.input false, h.input, Input.isAtEnd_marked]

theorem agrees_self (h : c.depth = 0) : Agrees c c.input := ⟨h, rfl⟩

/-- The prompt drops nothing in front of a token that is shown. -/
theorem unitStart_shown (h : (i.peek .hidden).hidden = false) :
    unitStart .interactive i = i.marked false := by
  have hdrop : i.rest.dropWhile (fun t => t.hidden && t.kind ≠ .eof) = i.rest := by
    cases hr : i.rest with
    | nil => rfl
    | cons t ts =>
      simp only [Input.peek, View.ahead, hr, List.headD_cons] at h
      simp [h]
  unfold unitStart Input.marked
  dsimp only
  rw [hdrop]

theorem Agrees.turnStart (h : Agrees c i) (mode : Mode) :
    (turnStart mode c).depth = 0 ∧ unitStart mode i = (turnStart mode c).input.marked false := by
  cases mode with
  | batch => exact ⟨h.depth, h.input.symm⟩
  | interactive =>
    have hstart : unitStart .interactive (i.marked false) =
        unitStart .interactive (c.input.marked false) := congrArg _ h.input.symm
    change unitStart .interactive i = unitStart .interactive c.input at hstart
    rw [hstart, Counting.turnStart]
    split
    · exact ⟨h.depth, rfl⟩
    · next hshown => exact ⟨h.depth, unitStart_shown (Bool.eq_false_iff.2 hshown)⟩

/-- At the end of the input there is no boundary to go past. -/
theorem pastBoundary_end (h : i.isAtEnd .hidden = true) : pastBoundary i.rest = i.rest := by
  cases hr : i.rest with
  | nil => rfl
  | cons t ts =>
    have hk : t.kind = .eof := by simpa [Input.isAtEnd, Input.peek, hr] using h
    exact if_pos hk

theorem synchronize_marked (start i : Input) :
    (synchronize start i).marked false = (recover start i).marked false := by
  unfold synchronize
  split
  · next hend =>
    unfold recover
    split
    · rfl
    · rw [pastBoundary_end hend]
      rfl
  · rfl

/-- **A turn goes as from a fresh state,** and leaves no builder open, also where its unit fails
inside of builders. -/
theorem Agrees.turn (hu : Counted mode unit counting) (h : Agrees c i) :
    (Counting.turn counting (Counting.turnStart mode c)).1 =
        (Grammar.turn unit (unitStart mode i)).1 ∧
      Agrees (Counting.turn counting (Counting.turnStart mode c)).2
        (Grammar.turn unit (unitStart mode i)).2 := by
  obtain ⟨hdepth, hstart⟩ := h.turnStart mode
  generalize Counting.turnStart mode c = d at hdepth hstart
  obtain ⟨x, n⟩ := d
  obtain rfl : n = 0 := hdepth
  rw [hstart]
  unfold Counting.turn Grammar.turn
  rw [hu.counts _ rfl]
  simp only [atDepth]
  rcases hu.afresh (x.marked false) x.skipped with hx | ⟨e, hmarked, hx⟩
  · have hx : unit x = unit (x.marked false) := hx
    rw [hx]
    cases unit (x.marked false) with
    | ok a j => exact ⟨rfl, rfl, rfl⟩
    | error e j => exact ⟨rfl, rfl, synchronize_marked x j⟩
  · have hx : unit x = .error e x := hx
    rw [hx, hmarked]
    refine ⟨rfl, rfl, (synchronize_marked x x).trans ?_⟩
    simp only [recover, ne_eq, not_true_eq_false, decide_false, Bool.false_and, Bool.false_eq_true,
      if_false]
    rfl

/-- What follows is read as from a fresh state. -/
theorem Agrees.units (hu : Counted mode unit counting) (h : Agrees c i) :
    Counting.units mode counting c = Grammar.units mode unit i := by
  generalize hs : i.size = size
  induction size using Nat.strongRecOn generalizing c i with
  | _ size ih =>
    rw [Counting.units, Grammar.units, h.isAtEnd_eq]
    cases i.isAtEnd .visible with
    | true => rfl
    | false =>
      obtain ⟨hresult, hleft⟩ := h.turn hu
      simp only [Bool.false_eq_true, if_false]
      rw [hresult, hleft.size_eq, h.size_eq]
      split
      · next hlt => rw [ih _ (hs ▸ hlt) hleft rfl]
      · rfl

/-! ## A run -/

/-- The turns that a run from `start` has taken: their results, and the state behind them, in
which the next turn finds the run. -/
inductive Turns (mode : Mode) (counting : Counting α) (start : Reader) :
    List (Except SyntaxError α) → Reader → Prop
  | none : Turns mode counting start [] start
  | next {rs : List (Except SyntaxError α)} {r : Except SyntaxError α} {c d : Reader} :
      Turns mode counting start rs c → c.input.isAtEnd .visible = false →
      turn counting (turnStart mode c) = (r, d) → Turns mode counting start (rs ++ [r]) d

variable {rs : List (Except SyntaxError α)} {start : Reader}

theorem Agrees.reaches (h : Agrees c i) (hi : j.Reaches i) : j.Reaches c.input := by
  have hrest : (c.input.marked false).rest = (i.marked false).rest := congrArg Input.rest h.input
  have hfinal : (c.input.marked false).final = (i.marked false).final :=
    congrArg Input.final h.input
  obtain ⟨ts, hts, live⟩ := hi.taken
  exact ⟨hfinal.trans hi.final_eq, ts, hts.trans (congrArg (ts ++ ·) hrest.symm), live⟩

/-- **Whatever has become of the turns so far,** no builder is open behind them, and the run
consists of their results and of what it is from there on. -/
theorem Turns.splits (hu : Counted mode unit counting) (hstart : start.depth = 0)
    (hends : EndsShown start.input.rest) (h : Turns mode counting start rs c) :
    c.depth = 0 ∧ start.input.Reaches c.input ∧
      Counting.units mode counting start = rs ++ Counting.units mode counting c := by
  induction h with
  | none => exact ⟨hstart, .refl _, rfl⟩
  | @next rs r c d _ hlive hturn ih =>
    obtain ⟨hdepth, hreach, hunits⟩ := ih
    obtain ⟨hpass, hlt⟩ := hu.passes c.input (hreach.endsShown hends) hlive
    obtain ⟨-, hagrees⟩ := (agrees_self hdepth).turn hu
    rw [hturn] at hagrees
    refine ⟨hagrees.depth, hreach.trans (hagrees.reaches hpass), ?_⟩
    have hshorter : d.input.size < c.input.size := hagrees.size_eq ▸ hlt
    have hnext : Counting.units mode counting c = r :: Counting.units mode counting d := by
      rw [Counting.units, hlive, hturn]
      simp only [Bool.false_eq_true, if_false, if_pos hshorter]
    rw [hunits, hnext, List.append_assoc]
    rfl

/-- A unit that a turn reads has not ended with a closing brace, and a builder that failed
before it makes no difference to that. -/
theorem Turns.endsOutside (hu : Counted mode unit counting) (hstart : start.depth = 0)
    (hends : EndsShown start.input.rest) (h : Turns mode counting start rs c) {a : α}
    (hturn : Counting.turn counting (turnStart mode c) = (.ok a, d)) :
    EndsOutside (turnStart mode c).input d.input := by
  obtain ⟨hdepth, hreach, -⟩ := h.splits hu hstart hends
  obtain ⟨hzero, hinput⟩ := (agrees_self hdepth).turnStart mode
  have hshown : EndsShown (turnStart mode c).input.rest := by
    have hunit := (reaches_unitStart mode c.input).endsShown (hreach.endsShown hends)
    rwa [hinput] at hunit
  unfold Counting.turn at hturn
  rw [hu.counts _ hzero] at hturn
  simp only [atDepth] at hturn
  cases hr : unit (turnStart mode c).input with
  | ok b j =>
    rw [hr] at hturn
    cases hturn
    exact hu.ends hshown hr
  | error e j =>
    rw [hr] at hturn
    cases hturn

end Counting

/-! ## What is ahead, as a run of tokens -/

/-- How many of the tokens are behind the input. -/
def passed (ts : List Token) (i : Input) : Nat := (Input.ofTokens ts).size - i.size

/-- The tokens from there on make the same input, if there are any. -/
theorem ofTokens_drop {ts : List Token} {i : Input} (h : (Input.ofTokens ts).Reaches i) :
    i.rest = (Input.ofTokens ts).rest.drop (passed ts i) ∧
      (i.rest = [] ∧ ts.drop (passed ts i) = [] ∨
        Input.ofTokens (ts.drop (passed ts i)) = i.marked false) := by
  obtain ⟨hfinal, us, hus, -⟩ := h
  have hpassed : passed ts i = us.length := by
    unfold passed Input.size
    rw [hus, List.length_append]
    omega
  rw [hpassed]
  refine ⟨by rw [hus, List.drop_left], ?_⟩
  have hsize : us.length + i.rest.length ≤ ts.length := by
    have hle := Input.size_ofTokens_le ts
    rwa [Input.size, hus, List.length_append] at hle
  by_cases hdrop : ts.drop us.length = []
  · have hlength := List.drop_eq_nil_iff.1 hdrop
    exact .inl ⟨List.length_eq_zero_iff.1 (by omega), hdrop⟩
  · right
    have htake : (ts.take us.length).length = us.length := List.length_take_of_le (by omega)
    have happend := Input.ofTokens_append (ts.take us.length) hdrop
    rw [List.take_append_drop] at happend
    rw [happend] at hus hfinal
    have hrest := (List.append_inj hus htake).2
    have hskipped := Input.skipped_ofTokens (ts.drop us.length)
    generalize Input.ofTokens (ts.drop us.length) = j at hrest hfinal hskipped
    cases i
    cases j
    cases hrest
    cases hfinal
    cases hskipped
    rfl

/-! ## Runs of tokens -/

open Counting in
/-- A run over one state reads a run of tokens as `units` does; and wherever a turn starts in it,
no builder is open, the units from there on are those of the tokens from there on, and none ends
with a closing brace. -/
structure Independent {α : Type} (mode : Mode) (unit : Parser α) (counting : Counting α)
    (ts : List Token) : Prop where
  whole : Counting.units mode counting ⟨.ofTokens ts, 0⟩ = units mode unit (.ofTokens ts)
  depth : ∀ {rs c}, Turns mode counting ⟨.ofTokens ts, 0⟩ rs c → c.depth = 0
  ahead : ∀ {rs c}, Turns mode counting ⟨.ofTokens ts, 0⟩ rs c →
    c.input.rest = (Input.ofTokens ts).rest.drop (passed ts c.input)
  onward : ∀ {rs c}, Turns mode counting ⟨.ofTokens ts, 0⟩ rs c →
    Counting.units mode counting c = units mode unit (.ofTokens (ts.drop (passed ts c.input)))
  splits : ∀ {rs c}, Turns mode counting ⟨.ofTokens ts, 0⟩ rs c →
    units mode unit (.ofTokens ts) =
      rs ++ units mode unit (.ofTokens (ts.drop (passed ts c.input)))
  ends : ∀ {rs c d} {a : α}, Turns mode counting ⟨.ofTokens ts, 0⟩ rs c →
    Counting.turn counting (turnStart mode c) = (.ok a, d) →
      EndsOutside (turnStart mode c).input d.input

theorem Counting.Counted.independent {α : Type} {mode : Mode} {unit : Parser α}
    {counting : Counting α} (hu : Counted mode unit counting) {ts : List Token}
    (h : EndsShown ts) : Independent mode unit counting ts := by
  have hends := endsShown_ofTokens h
  have hwhole : Counting.units mode counting ⟨.ofTokens ts, 0⟩ =
      Grammar.units mode unit (.ofTokens ts) :=
    (agrees_self (c := ⟨.ofTokens ts, 0⟩) rfl).units hu
  have honward : ∀ {rs c}, Turns mode counting ⟨.ofTokens ts, 0⟩ rs c →
      Counting.units mode counting c =
        Grammar.units mode unit (.ofTokens (ts.drop (passed ts c.input))) := by
    intro rs c hturns
    obtain ⟨hdepth, hreach, -⟩ := hturns.splits hu rfl hends
    rcases (ofTokens_drop hreach).2 with ⟨hnil, hdrop⟩ | hsame
    · have hend : c.input.isAtEnd .visible = true := by
        simp [Input.isAtEnd, Input.peek, hnil, c.input.final_eof]
      rw [hdrop, Grammar.units_nil (i := .ofTokens []) rfl, Counting.units, if_pos hend]
    · rw [hsame]
      have hagrees : Agrees c (c.input.marked false) := ⟨hdepth, rfl⟩
      exact hagrees.units hu
  refine ⟨hwhole, ?_, ?_, honward, ?_, ?_⟩
  · exact fun hturns => (hturns.splits hu rfl hends).1
  · exact fun hturns => (ofTokens_drop (hturns.splits hu rfl hends).2.1).1
  · intro rs c hturns
    rw [← hwhole, ← honward hturns]
    exact (hturns.splits hu rfl hends).2.2
  · exact fun hturns hturn => hturns.endsOutside hu rfl hends hturn

/-- **Units are read independently.** In a file and at the prompt, at each turn of a run the
units and errors from there on are those of a fresh run on the tokens from there on, and no
builder is open, however the units before have ended. -/
theorem units_independent {ts : List Token} (h : EndsShown ts) :
    Independent .batch statement Counting.statement ts ∧
      Independent .interactive item Counting.item ts :=
  ⟨Counting.counted_statement.independent h, Counting.counted_item.independent h⟩

/-- A builder that fails in its first line, and a closing brace behind a unit of the second. -/
def leftOpen : List Token := textTokens "x T \x7b )\ny 1 \x7d"

open Counting in
theorem units_independent_leftOpen :
    EndsShown leftOpen ∧ ∃ rs c, Turns .batch Counting.statement ⟨.ofTokens leftOpen, 0⟩ rs c ∧
      passed leftOpen c.input = 5 ∧ c.depth = 0 ∧
      Counting.units .batch Counting.statement c =
        units .batch statement (.ofTokens (leftOpen.drop 5)) ∧
      (rejected (Counting.units .batch Counting.statement c)).map (·.cause) =
        [.expectedStatementEnd] := by
  have hends : ∀ t ∈ leftOpen, t.kind = .eof → t.hidden = false := by decide +kernel
  obtain ⟨h, -⟩ := units_independent hends
  have hpassed : passed leftOpen (Counting.turn Counting.statement
      (turnStart .batch ⟨.ofTokens leftOpen, 0⟩)).2.input = 5 := by decide +kernel
  rcases hturn : Counting.turn Counting.statement
    (turnStart .batch ⟨.ofTokens leftOpen, 0⟩) with ⟨r, c⟩
  rw [hturn] at hpassed
  have hturns := Turns.none.next (by decide +kernel) hturn
  have honward := h.onward hturns
  rw [hpassed] at honward
  refine ⟨hends, _, c, hturns, hpassed, h.depth hturns, honward, ?_⟩
  rw [honward]
  decide +kernel

end Grammar

end LazyDecl
