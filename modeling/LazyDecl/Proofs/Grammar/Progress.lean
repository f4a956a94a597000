import LazyDecl.Proofs.Grammar.Chunks
import LazyDecl.Proofs.Grammar.Compositional

/-!
Parsing comes to an end and always advances, whatever the tokens are (`parsing_ends`).

* `Input.Reaches i j`: `j` is left of `i`, and no end mark lies between them;
* `goesForward`: the parsers of the grammar only go forward, also where they fail;
* `operandWithin_eq`: operands nest less deep than there are tokens;
* `loopsEnd`: every round of its loops takes a token;
* `rounds_units`: so does every unit that is read or given up.
-/

namespace LazyDecl

theorem EndsShown.suffix {ts us : List Token} (h : EndsShown ts) (hs : us <:+ ts) : EndsShown us :=
  fun t ht => h t (hs.mem ht)

/-! ## What is left -/

namespace Input

/-- `j` is what is left of `i` behind some of its tokens, none of which is an end mark. -/
structure Reaches (i j : Input) : Prop where
  final_eq : j.final = i.final
  taken : ∃ ts, i.rest = ts ++ j.rest ∧ ∀ t ∈ ts, t.kind ≠ .eof

/-- How many tokens stand in front of the first end mark. -/
def live (i : Input) : Nat := (i.rest.takeWhile (·.kind ≠ .eof)).length

variable {i j k : Input} {v : View}

theorem Reaches.refl (i : Input) : i.Reaches i := ⟨rfl, [], rfl, nofun⟩

theorem Reaches.trans (h : i.Reaches j) (h' : j.Reaches k) : i.Reaches k := by
  obtain ⟨ts, hts, live⟩ := h.taken
  obtain ⟨us, hus, live'⟩ := h'.taken
  refine ⟨h'.final_eq.trans h.final_eq, ts ++ us, by rw [hts, hus, List.append_assoc], ?_⟩
  intro t ht
  exact (List.mem_append.1 ht).elim (live t) (live' t)

theorem Reaches.suffix (h : i.Reaches j) : j.rest <:+ i.rest := by
  obtain ⟨ts, hts, -⟩ := h.taken
  exact ⟨ts, hts.symm⟩

theorem Reaches.endsShown (h : i.Reaches j) (hi : EndsShown i.rest) : EndsShown j.rest :=
  hi.suffix h.suffix

/-- Every token that is taken stood in front of the first end mark. -/
theorem Reaches.live_add_size (h : i.Reaches j) : i.live + j.size = j.live + i.size := by
  obtain ⟨ts, hts, live⟩ := h.taken
  have htake : i.rest.takeWhile (·.kind ≠ .eof) = ts ++ j.rest.takeWhile (·.kind ≠ .eof) := by
    rw [hts, List.takeWhile_append_of_pos fun t ht => decide_eq_true (live t ht)]
  have hlive : i.live = ts.length + j.live := by rw [Input.live, htake, List.length_append]; rfl
  have hsize : i.size = ts.length + j.size := by rw [size, hts, List.length_append]; rfl
  omega

theorem Reaches.live_lt (h : i.Reaches j) (hlt : j.size < i.size) : j.live < i.live := by
  have := h.live_add_size
  omega

/-- Where end marks are shown, no view steps over one. -/
theorem ahead_taken (v : View) {ts : List Token} (h : EndsShown ts) :
    ∃ us, ts = us ++ v.ahead ts ∧ ∀ t ∈ us, t.kind ≠ .eof := by
  cases v with
  | hidden => exact ⟨[], rfl, nofun⟩
  | visible =>
    refine ⟨ts.takeWhile (·.hidden), List.takeWhile_append_dropWhile.symm, fun t ht hk => ?_⟩
    have hhidden : t.hidden = true := List.mem_takeWhile_imp ht
    rw [h t (List.takeWhile_subset _ ht) hk] at hhidden
    cases hhidden

theorem reaches_advance (v : View) (hi : EndsShown i.rest) : i.Reaches (i.advance v).2 := by
  obtain ⟨us, hus, live⟩ := ahead_taken v hi
  cases h : v.ahead i.rest with
  | nil =>
    rw [advance_nil h]
    exact ⟨rfl, us, by rw [← h]; exact hus, live⟩
  | cons t ts =>
    rw [h] at hus
    rw [advance_cons h]
    split
    · exact ⟨rfl, us, hus, live⟩
    · rename_i hk
      have hts : EndsShown ts := hi.suffix ((List.suffix_cons t ts).trans ⟨us, hus.symm⟩)
      obtain ⟨us', hus', live'⟩ := ahead_taken v hts
      refine ⟨rfl, us ++ t :: us', ?_, ?_⟩
      · rw [hus, List.append_assoc, List.cons_append, ← hus']
      · intro u hu
        rcases List.mem_append.1 hu with hu | hu
        · exact live u hu
        · rcases List.mem_cons.1 hu with rfl | hu
          · exact hk
          · exact live' u hu

end Input

namespace Parser

variable {α β : Type}

/-- The input that a result leaves, with a value or with an error. -/
def left : EStateM.Result SyntaxError Input α → Input
  | .ok _ j => j
  | .error _ j => j

/-- The parser passes no end mark, whether it succeeds or fails. -/
def Forward (p : Parser α) : Prop := ∀ i : Input, EndsShown i.rest → i.Reaches (left (p i))

theorem Forward.pure (a : α) : Forward (pure a) := fun i _ => .refl i

theorem Forward.fail (cause : SyntaxCause) (t : Token) : Forward (fail cause t : Parser α) :=
  fun i _ => .refl i

theorem Forward.get : Forward (get : Parser Input) := fun i _ => .refl i

theorem Forward.advance (v : View) : Forward (advance v) := fun _ hi => Input.reaches_advance v hi

theorem Forward.bind {p : Parser α} {k : α → Parser β} (hp : Forward p)
    (hk : ∀ a, Forward (k a)) : Forward (p >>= k) := by
  intro i hi
  have h := hp i hi
  rw [bind_apply]
  cases hr : p i with
  | error e j =>
    rw [hr] at h
    exact h
  | ok a j =>
    rw [hr] at h
    exact h.trans (hk a j (h.endsShown hi))

end Parser

namespace Grammar

open LazyDecl.Parser

/-- The grammar only goes forward. -/
theorem goesForward : Compositional fun _ i r => EndsShown i.rest → i.Reaches (left r) where
  pure := Forward.pure
  get := Forward.get
  advance := Forward.advance
  fail _ := Forward.fail _ _
  bind := Forward.bind

theorem statement_forward : Forward statement := goesForward.statement

theorem item_forward : Forward item := goesForward.item

/-! ## Calls

The grammar calls itself for operands inside operands. The depth of these calls is bounded by the
tokens ahead, so what a call beyond that bound would give is never asked for. -/

/-- The grammar unrolled `n` times, over a parser of the operands further inside. -/
def operandWithin (bottom : Parser Expr) : Nat → Parser Expr
  | 0 => bottom
  | n + 1 => operandOver (operandWithin bottom n)

/-- Parsers that return the same on inputs of at most `n` tokens. -/
def AgreeUpTo {α : Type} (n : Nat) (p q : Parser α) : Prop := ∀ i : Input, i.size ≤ n → p i = q i

theorem agreeUpTo_of_mirrors {α : Type} {φ : α → α} (hφ : ∀ a, φ a = a) {n : Nat}
    {p q : Parser α} (h : Mirrors .none n (Image φ) p q) : AgreeUpTo n p q := by
  intro i hi
  have hm := h i hi
  rw [Input.relabel_none] at hm
  exact eq_of_mirrored hφ hm

theorem mirrors_operandWithin (bottom : Parser Expr) (n : Nat) {m : Nat} (hm : m < n) :
    Mirrors .none m (Image (Expr.map Relabeling.none)) (operandWithin bottom n) operand := by
  induction n generalizing m with
  | zero => omega
  | succ n ih =>
    intro i hi
    rw [operand_eq]
    exact operandOver_mirrors (fun k hk => ih (by omega)) i hi

/-- **Operands nest less deep than there are tokens.** -/
theorem operandWithin_eq (bottom : Parser Expr) {n : Nat} {i : Input} (hi : i.size < n) :
    operandWithin bottom n i = operand i :=
  agreeUpTo_of_mirrors Expr.map_id (mirrors_operandWithin bottom n hi) i (Nat.le_refl _)

/-! ## Loops

The loops of the grammar are repetitions that would also stop where a round takes nothing. No
round does, so they run to their own ends. -/

/-- The result of a loop behind one more round. -/
def behindRound {α : Type} (a : α) :
    EStateM.Result SyntaxError Input (List α) → EStateM.Result SyntaxError Input (List α)
  | .ok as j => .ok (a :: as) j
  | .error e j => .error e j

/-- The loop over a step ends with a result: rounds of it up to one that declines or fails. -/
inductive Loop {α : Type} (step : Parser (Option α)) :
    Input → EStateM.Result SyntaxError Input (List α) → Prop
  | stop {i j : Input} : step i = .ok none j → Loop step i (.ok [] j)
  | fail {i j : Input} {e : SyntaxError} : step i = .error e j → Loop step i (.error e j)
  | again {i j : Input} {a : α} {r : EStateM.Result SyntaxError Input (List α)} :
      step i = .ok (some a) j → Loop step j r → Loop step i (behindRound a r)

theorem loop_many {α : Type} {step : Parser (Option α)}
    (h : ∀ i a j, step i = .ok (some a) j → j.size < i.size) (i : Input) :
    Loop step i (many step i) := by
  generalize hn : i.size = n
  induction n using Nat.strongRecOn generalizing i with
  | _ n ih =>
    rw [many]
    cases hs : step i with
    | error e j => exact .fail hs
    | ok a? j =>
      cases a? with
      | none => exact .stop hs
      | some a =>
        have hlt := h i a j hs
        have hloop := Loop.again hs (ih j.size (hn ▸ hlt) j rfl)
        simp only [if_pos hlt]
        cases hm : many step j with
        | ok as k =>
          rw [hm] at hloop
          exact hloop
        | error e k =>
          rw [hm] at hloop
          exact hloop

theorem size_lt_of_parserAt {ls : List Level} {i j : Input} {e : Expr}
    (h : parserAt ls i = .ok e j) : j.size < i.size :=
  ((parserAt_eq_ok_iff ls).1 h).size_lt

theorem size_lt_of_expression {i j : Input} {e : Expr} (h : expression i = .ok e j) :
    j.size < i.size :=
  ((parserAt_eq_ok_iff levels).1 h).size_lt

theorem joinStep_size_lt {level : Level} {ls : List Level} {i j : Input}
    {a : (Expr → Expr → Expr) × Expr} (h : joinStep level (parserAt ls) i = .ok (some a) j) :
    j.size < i.size := by
  obtain ⟨t, k, nodeOf, -, ht, hp, -⟩ := joinStep_eq_some.1 h
  exact (size_lt_of_parserAt hp).trans ht.size_lt

theorem bodyStep_size_lt {i j : Input} {s : Statement}
    (h : bodyStep operand i = .ok (some s) j) : j.size < i.size := by
  obtain ⟨k, m, -, ht, hv, hend⟩ := statementOver_eq_ok.1 (bodyStep_eq_some.1 h)
  have := size_lt_of_expression hv
  have := endUnit_size_le hend
  have := ht.size_lt
  omega

theorem elementStep_size_lt {first e : Expr} {i j : Input}
    (h : elementStep operand first i = .ok (some e) j) : j.size < i.size := by
  obtain ⟨-, -, he, -⟩ := elementStep_eq_some.1 h
  exact Nat.lt_of_lt_of_le (size_lt_of_expression he) (separated_size_le i)

/-- Every loop of the grammar ends at the input `i`: the operators of one level, the statements
of a builder, the separators between elements and the elements of a sequence. -/
structure LoopsEnd (i : Input) : Prop where
  operators : ∀ level ls,
    Loop (joinStep level (parserAt ls)) i (many (joinStep level (parserAt ls)) i)
  body : Loop (bodyStep operand) i (many (bodyStep operand) i)
  separators :
    let step := take? .hidden fun kind => if isSeparator kind then some () else none
    Loop step i (many step i)
  elements : ∀ first, Loop (elementStep operand first) i (many (elementStep operand first) i)

theorem loopsEnd (i : Input) : LoopsEnd i where
  operators _ _ := loop_many (fun _ _ _ h => joinStep_size_lt h) i
  body := loop_many (fun _ _ _ h => bodyStep_size_lt h) i
  separators := loop_many (fun _ _ _ h => ((take?_eq_some rfl).1 h).2.size_lt) i
  elements _ := loop_many (fun _ _ _ h => elementStep_size_lt h) i

/-! ## Units -/

variable {α : Type} {unit unit' : Parser α} {mode : Mode} {i j : Input}

/-- The top loop ends with a list of results: a turn for each of them, which moves forward, up
to the first end mark. -/
inductive Rounds (mode : Mode) (unit : Parser α) : Input → List (Except SyntaxError α) → Prop
  | done {i : Input} : i.isAtEnd .visible = true → Rounds mode unit i []
  | round {i j : Input} {r : Except SyntaxError α} {rs : List (Except SyntaxError α)} :
      i.isAtEnd .visible = false → turn unit (unitStart mode i) = (r, j) → i.Reaches j →
      j.size < i.size → Rounds mode unit j rs → Rounds mode unit i (r :: rs)

/-- There are no more rounds than tokens in front of the first end mark. -/
theorem Rounds.length_le {rs : List (Except SyntaxError α)} (h : Rounds mode unit i rs) :
    rs.length ≤ i.live := by
  induction h with
  | done => exact Nat.zero_le _
  | round _ _ hreach hlt _ ih =>
    have := hreach.live_lt hlt
    rw [List.length_cons]
    omega

theorem pastBoundary_taken (ts : List Token) :
    ∃ us, ts = us ++ pastBoundary ts ∧ ∀ t ∈ us, t.kind ≠ .eof := by
  induction ts with
  | nil => exact ⟨[], rfl, nofun⟩
  | cons t ts ih =>
    unfold pastBoundary
    split
    · exact ⟨[], rfl, nofun⟩
    · rename_i hk
      split
      · exact ⟨[t], rfl, by simpa using hk⟩
      · obtain ⟨us, hus, live⟩ := ih
        exact ⟨t :: us, congrArg (t :: ·) hus, by simpa [hk] using live⟩

theorem reaches_recover (start i : Input) : i.Reaches (recover start i) := by
  unfold recover
  split
  · exact .refl i
  · exact ⟨rfl, pastBoundary_taken i.rest⟩

theorem reaches_unitStart (mode : Mode) (i : Input) : i.Reaches (unitStart mode i) := by
  cases mode with
  | batch => exact ⟨rfl, [], rfl, nofun⟩
  | interactive =>
    refine ⟨rfl, _, List.takeWhile_append_dropWhile.symm, fun t ht => ?_⟩
    have hlive := List.mem_takeWhile_imp ht
    simp only [Bool.and_eq_true, decide_eq_true_eq] at hlive
    exact hlive.2

theorem reaches_turn (h : Forward unit) (hi : EndsShown i.rest) : i.Reaches (turn unit i).2 := by
  have hu := h i hi
  unfold turn
  cases hr : unit i with
  | ok a j =>
    rw [hr] at hu
    exact hu
  | error e j =>
    rw [hr] at hu
    exact hu.trans (reaches_recover i j)

/-- **Every turn takes a token**, whether its unit is read or given up. -/
theorem turn_passes {map : (Token → Token) → α → α} (h : UnitParser mode unit map)
    (hf : Forward unit) (hi : EndsShown i.rest) (hend : i.isAtEnd .visible = false) :
    i.Reaches (turn unit (unitStart mode i)).2 ∧
      (turn unit (unitStart mode i)).2.size < i.size := by
  have hstart := reaches_unitStart mode i
  obtain ⟨t, ts, hr, ht⟩ := unitStart_live mode hi hend
  exact ⟨hstart.trans (reaches_turn hf (hstart.endsShown hi)),
    Nat.lt_of_lt_of_le (h.turn_size_lt hr ht) (unitStart_size_le mode i)⟩

/-- **The units are the rounds of the top loop**, with any unit parser that agrees on inputs
this short. -/
theorem rounds_units {map : (Token → Token) → α → α} (h : UnitParser mode unit map)
    (hf : Forward unit) (hi : EndsShown i.rest) (hagree : AgreeUpTo i.size unit' unit) :
    Rounds mode unit' i (units mode unit i) := by
  induction i using units_induction mode unit with
  | next i ih =>
    cases hend : i.isAtEnd .visible with
    | true =>
      rw [units_nil hend]
      exact .done hend
    | false =>
      obtain ⟨hreach, hlt⟩ := turn_passes h hf hi hend
      have hturn : turn unit' (unitStart mode i) = turn unit (unitStart mode i) := by
        unfold turn
        rw [hagree _ (unitStart_size_le mode i)]
      rw [units_cons hend hlt]
      exact .round hend hturn hreach hlt (ih hlt (hreach.endsShown hi) fun j hj =>
        hagree j (by omega))

theorem length_accepted_add (rs : List (Except SyntaxError α)) :
    (accepted rs).length + (rejected rs).length = rs.length := by
  induction rs with
  | nil => rfl
  | cons r rs ih =>
    cases r with
    | ok a =>
      have ha : accepted (.ok a :: rs) = a :: accepted rs := rfl
      have hr : rejected (.ok a :: rs) = rejected rs := rfl
      rw [ha, hr, List.length_cons, List.length_cons]
      omega
    | error e =>
      have ha : accepted (.error e :: rs) = accepted rs := rfl
      have hr : rejected (.error e :: rs) = e :: rejected rs := rfl
      rw [ha, hr, List.length_cons, List.length_cons]
      omega

/-! ## Runs of tokens -/

theorem endsShown_ofTokens {ts : List Token} (h : EndsShown ts) :
    EndsShown (Input.ofTokens ts).rest :=
  fun t ht => h t (Input.rest_ofTokens_subset ts ht)

/-- **Parsing always terminates and always advances.** However the calls of the grammar beyond
the number of tokens were answered, both top loops end with the same results, in rounds that move
forward; so do the loops inside a unit; and no program has more units and errors than there are
tokens in front of the first end mark. -/
theorem parsing_ends {ts : List Token} (h : EndsShown ts) :
    (∀ bottom n, ts.length < n →
      Rounds .batch (statementOver (operandWithin bottom n) false) (.ofTokens ts)
          (units .batch statement (.ofTokens ts)) ∧
        Rounds .interactive (itemOver (operandWithin bottom n)) (.ofTokens ts)
          (units .interactive item (.ofTokens ts))) ∧
      (∀ i, LoopsEnd i) ∧
      ∀ mode, (program mode ts).1.size + (program mode ts).2.length ≤
        (ts.takeWhile (·.kind ≠ .eof)).length := by
  have hends := endsShown_ofTokens h
  have hbatch : ∀ unit', AgreeUpTo (Input.ofTokens ts).size unit' statement →
      Rounds .batch unit' (.ofTokens ts) (units .batch statement (.ofTokens ts)) :=
    fun _ => rounds_units unitParser_statement statement_forward hends
  have hinteractive : ∀ unit', AgreeUpTo (Input.ofTokens ts).size unit' item →
      Rounds .interactive unit' (.ofTokens ts) (units .interactive item (.ofTokens ts)) :=
    fun _ => rounds_units unitParser_item item_forward hends
  refine ⟨fun bottom n hn => ?_, loopsEnd, fun mode => ?_⟩
  · have hsize : (Input.ofTokens ts).size < n :=
      Nat.lt_of_le_of_lt (Input.size_ofTokens_le ts) hn
    have hwithin := mirrors_operandWithin bottom n hsize
    exact ⟨hbatch _ (agreeUpTo_of_mirrors Statement.map_id (statementOver_mirrors false hwithin)),
      hinteractive _ (agreeUpTo_of_mirrors Item.map_id (itemOver_mirrors .none hwithin))⟩
  · rw [← Input.takeWhile_rest_ofTokens]
    cases mode with
    | batch =>
      have hlength := (hbatch statement fun _ _ => rfl).length_le
      rw [← length_accepted_add] at hlength
      exact hlength
    | interactive =>
      have hlength := (hinteractive item fun _ _ => rfl).length_le
      rw [← length_accepted_add] at hlength
      exact hlength

/-- An end mark in the middle, and a token in front of it that starts nothing. -/
def strayParen : List Token :=
  [⟨.rightParen, ")", .start, false⟩, .eof .start, ⟨.identifier, "x", .start, false⟩]

theorem parsing_ends_strayParen :
    EndsShown strayParen ∧
      (∀ bottom, Rounds .batch (statementOver (operandWithin bottom 4) false) (.ofTokens strayParen)
        (units .batch statement (.ofTokens strayParen))) ∧
      ∀ mode, (program mode strayParen).1.size + (program mode strayParen).2.length ≤ 1 := by
  have h : EndsShown strayParen := by
    intro t ht _
    simp only [strayParen, List.mem_cons, List.not_mem_nil, or_false] at ht
    rcases ht with rfl | rfl | rfl <;> rfl
  obtain ⟨hrounds, -, hcount⟩ := parsing_ends h
  exact ⟨h, fun bottom => (hrounds bottom 4 (by decide)).1, hcount⟩

end Grammar

end LazyDecl
