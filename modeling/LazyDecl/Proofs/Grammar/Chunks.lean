import LazyDecl.Proofs.Grammar.Seam

/-!
The units of a text that goes on. When the units of its first part are read without an
error, they are read in the whole as well, and those of the rest follow them.

* `UnitParser mode unit map`: what is asked of the parser of one unit;
* `units_clear`: hidden tokens in front of a unit make no difference;
* `units_continue`: the units in front of a continuation and then those of it.
-/

namespace LazyDecl

/-- No end mark is hidden, so that the visible view does not step over it. -/
def EndsShown (ts : List Token) : Prop := ∀ t ∈ ts, t.kind = .eof → t.hidden = false

theorem Plain.endsShown {ts : List Token} (h : Plain ts) : EndsShown ts :=
  fun t ht hk => absurd hk (h t ht).1

/-- The input without the hidden tokens in front. -/
def Input.clear (i : Input) : Input := { i with rest := View.visible.ahead i.rest, skipped := false }

namespace Input

variable {i j : Input} {t : Token}

theorem visible_clear (i : Input) : View.visible.ahead i.clear.rest = View.visible.ahead i.rest :=
  List.dropWhile_idempotent _ _

theorem peek_clear (i : Input) : i.clear.peek .visible = i.peek .visible := by
  unfold peek
  rw [visible_clear]
  rfl

theorem isAtEnd_clear (i : Input) : i.clear.isAtEnd .visible = i.isAtEnd .visible := by
  unfold isAtEnd
  rw [peek_clear]

theorem size_clear_le (i : Input) : i.clear.size ≤ i.size :=
  (View.visible.ahead_suffix i.rest).length_le

theorem Takes.clear (h : i.Takes .visible t j) : i.clear.Takes .visible t j := by
  obtain ⟨live, ts, hts, rfl⟩ := takes_iff.1 h
  exact takes_iff.2 ⟨live, ts, i.visible_clear.trans hts, rfl⟩

/-- Whether hidden tokens were stepped over makes no difference to the next step. -/
theorem Takes.restart (h : i.Takes .visible t j) :
    Takes .visible { i with skipped := false } t j := by
  obtain ⟨live, ts, hts, rfl⟩ := takes_iff.1 h
  exact takes_iff.2 ⟨live, ts, hts, rfl⟩

theorem clear_eq_nil (hp : Plain i.rest) (h : i.isAtEnd .visible = true) : i.clear.rest = [] := by
  unfold isAtEnd peek at h
  unfold clear
  cases ha : View.visible.ahead i.rest with
  | nil => rfl
  | cons t ts =>
    have hmem : t ∈ i.rest := (View.visible.ahead_suffix i.rest).mem (by simp [ha])
    rw [ha] at h
    exact absurd (of_decide_eq_true h) (hp t hmem).1

theorem isAtEnd_of_shows (hp : Plain i.rest) (h : i.Shows) : i.isAtEnd .visible = false := by
  cases hend : i.isAtEnd .visible with
  | false => rfl
  | true => exact absurd (clear_eq_nil hp hend) (shows_iff.1 h)

theorem clear_eq_cons (h : i.isAtEnd .visible = false) :
    ∃ t ts, i.clear.rest = t :: ts ∧ t.kind ≠ .eof ∧ t.hidden = false := by
  have ht : i.Takes .visible (i.peek .visible) (i.advance .visible).2 :=
    takes_peek (of_decide_eq_false h)
  obtain ⟨live, ts, hts, -⟩ := takes_iff.1 ht
  exact ⟨_, ts, hts, live, ht.not_hidden⟩

end Input

namespace Grammar

open LazyDecl.Parser

/-! ## Where a unit starts -/

variable {i j k : Input} {t : Token} {mode : Mode}

theorem unitStart_clear (mode : Mode) (i : Input) : unitStart mode i.clear = i.clear := by
  cases mode with
  | batch => rfl
  | interactive =>
    have h := List.head?_dropWhile_not (·.hidden) i.rest
    unfold unitStart Input.clear
    dsimp only [View.ahead_visible]
    cases hr : i.rest.dropWhile (·.hidden) with
    | nil => rfl
    | cons t ts =>
      rw [hr] at h
      simp_all

theorem unitStart_interactive (h : EndsShown i.rest) : unitStart .interactive i = i.clear := by
  have hdrop : ∀ ts : List Token, EndsShown ts →
      ts.dropWhile (fun t => t.hidden && t.kind ≠ .eof) = ts.dropWhile (·.hidden) := by
    intro ts hts
    induction ts with
    | nil => rfl
    | cons t ts ih =>
      obtain ⟨ht, hts⟩ := List.forall_mem_cons.1 hts
      rw [List.dropWhile_cons, List.dropWhile_cons, ih hts]
      cases hh : t.hidden with
      | false => rfl
      | true =>
        have live : t.kind ≠ .eof := fun hk => by simp [ht hk] at hh
        simp [live]
  unfold unitStart Input.clear
  dsimp only [View.ahead_visible]
  rw [hdrop i.rest h]

theorem unitStart_live (mode : Mode) (h : EndsShown i.rest) (hend : i.isAtEnd .visible = false) :
    ∃ t ts, (unitStart mode i).rest = t :: ts ∧ t.kind ≠ .eof := by
  cases mode with
  | batch =>
    cases hr : i.rest with
    | nil => simp [Input.isAtEnd, Input.peek, hr, i.final_eof] at hend
    | cons t ts =>
      refine ⟨t, ts, hr, fun hk => ?_⟩
      have hvisible := h t (by simp [hr]) hk
      simp [Input.isAtEnd, Input.peek, hr, hvisible, hk] at hend
  | interactive =>
    obtain ⟨t, ts, hr, live, -⟩ := Input.clear_eq_cons hend
    exact ⟨t, ts, by rw [unitStart_interactive h, hr], live⟩

/-! ## Progress -/

theorem pastBoundary_length_le (ts : List Token) : (pastBoundary ts).length ≤ ts.length := by
  induction ts with
  | nil => simp [pastBoundary]
  | cons t ts ih =>
    unfold pastBoundary
    split
    · exact Nat.le_refl _
    · rw [List.length_cons]
      split <;> omega

theorem pastBoundary_length_lt {ts : List Token} (ht : t.kind ≠ .eof) :
    (pastBoundary (t :: ts)).length < (t :: ts).length := by
  have h := pastBoundary_length_le ts
  unfold pastBoundary
  rw [if_neg ht, List.length_cons]
  split <;> omega

/-- Recovery leaves fewer tokens than the unit that failed had in front of it. -/
theorem recover_size_lt {ts : List Token} (hr : i.rest = t :: ts) (ht : t.kind ≠ .eof)
    (hk : k.rest <:+ i.rest) : (recover i k).size < i.size := by
  unfold recover
  split
  · rename_i h
    have hne : k.size ≠ i.size := of_decide_eq_true (Bool.and_eq_true _ _ ▸ h).1
    exact Nat.lt_of_le_of_ne hk.length_le hne
  · by_cases hlt : k.size < i.size
    · exact Nat.lt_of_le_of_lt (pastBoundary_length_le k.rest) hlt
    · have heq : k.rest = i.rest := hk.eq_of_length_le (Nat.le_of_not_lt hlt)
      simp only [Input.size, heq, hr]
      exact pastBoundary_length_lt ht

theorem rest_suffix_of_ok {α : Type} {unit : Parser α} {φ : α → α} {a : α}
    (h : Mirrors .none i.size (Image φ) unit unit) (ha : unit i = .ok a k) :
    k.rest <:+ i.rest := by
  have hi := h i (Nat.le_refl _)
  rw [ha] at hi
  generalize unit (i.relabel .none) = r at hi
  cases hi with
  | ok _ hk => exact hk

theorem rest_suffix_of_error {α : Type} {unit : Parser α} {φ : α → α} {e : SyntaxError}
    (h : Mirrors .none i.size (Image φ) unit unit) (he : unit i = .error e k) :
    k.rest <:+ i.rest := by
  have hi := h i (Nat.le_refl _)
  rw [he] at hi
  generalize unit (i.relabel .none) = r at hi
  cases hi with
  | error hk => exact hk

/-! ## A statement behind its tag -/

def statementBehind (tag : Token) : Parser Statement := do
  let value ← expression
  unitEnd false .expectedStatementEnd
  return { tag, value }

theorem statement_of_takes (ht : i.Takes .visible t j) (hk : t.kind = .identifier) :
    statement i = statementBehind t j := by
  have h : statement i =
      (expect .identifier .expectedTag >>= statementBehind) i := rfl
  rw [h, bind_apply, (expect_eq_ok (by decide)).2 ⟨hk, ht⟩]

theorem statementBehind_mirrors (tag : Token) (n : Nat) :
    Mirrors .none n (Image (Statement.map Relabeling.none)) (statementBehind tag)
      (statementBehind tag) := by
  refine (expressionOver_mirrors (operand_mirrors .none n)).bind ?_
  rintro value _ rfl
  refine (unitEnd_mirrors false _).bind ?_
  rintro _ _ rfl
  exact .pure rfl

theorem recover_eq {start start' : Input} (h : k.size < start.size) (h' : k.size < start'.size) :
    recover start k = recover start' k := by
  unfold recover
  rw [decide_eq_true (Nat.ne_of_lt h), decide_eq_true (Nat.ne_of_lt h')]

/-- What comes of a statement depends on its tag and on what is left behind that. -/
theorem turn_statement {i' : Input} (ht : i.Takes .visible t j) (ht' : i'.Takes .visible t j)
    (hk : t.kind = .identifier) : turn statement i = turn statement i' := by
  unfold turn
  rw [statement_of_takes ht hk, statement_of_takes ht' hk]
  cases h : statementBehind t j with
  | ok s k => rfl
  | error e k =>
    have hle := (rest_suffix_of_error (statementBehind_mirrors t _) h).length_le
    exact congrArg (Prod.mk _)
      (recover_eq (Nat.lt_of_le_of_lt hle ht.size_lt) (Nat.lt_of_le_of_lt hle ht'.size_lt))

/-! ## Units that go on -/

variable {α : Type} {unit : Parser α} {map : (Token → Token) → α → α} {c : Continuation}
  {i' : Input}

/-- A parser of units: it does not look at where tokens stand, reads something, starts
alike whatever is hidden in front of it (in a file, in front of a name), and reads the same
in front of a continuation that it cannot go on with. -/
structure UnitParser (mode : Mode) (unit : Parser α) (map : (Token → Token) → α → α) : Prop where
  mirrors : ∀ (ρ : Relabeling) (n : Nat), Mirrors ρ n (Image (map ρ)) unit unit
  size_lt : ∀ {i j : Input} {a : α}, unit i = .ok a j → j.size < i.size
  start : ∀ {i j : Input} {t : Token}, Plain i.rest → i.Takes .visible t j →
    mode = .interactive ∨ t.kind = .identifier → turn unit (unitStart mode i) = turn unit i.clear
  extend : ∀ {c : Continuation} {i i' j : Input} {a : α}, Plain i.rest →
    c.Fresh ∨ Sealed i.rest ∨ j.Shows → i.isAtEnd .visible = false → Seam c (unitStart mode i) i' →
      unit (unitStart mode i) = .ok a j → ∃ j', unit i' = .ok a j' ∧ Meets c j j'

/-- An expression that is followed by the end of a unit does not go on with the
continuation, if the unit is not the last one or the tokens end with a semicolon. -/
theorem Reads.ends {ls : List Level} {m : Input} {e : Expr} {inBuilder : Bool}
    (h : Reads ls i e m) (hend : endUnit inBuilder m = some j)
    (hc : c.Fresh ∨ Sealed i.rest ∨ j.Shows) : c.Fresh ∨ m.Shows :=
  hc.imp_right (Or.rec h.closedBy.shows fun hj => hj.of_suffix (endUnit_suffix hend))

theorem statement_extend {s : Statement} (hs : Seam c i i')
    (hc : c.Fresh ∨ Sealed i.rest ∨ j.Shows) (h : statement i = .ok s j) :
    ∃ j', statement i' = .ok s j' ∧ Meets c j j' := by
  obtain ⟨k, m, hk, ht, he, hend⟩ := statement_eq_ok_iff.1 h
  obtain ⟨k', ht', hk'⟩ := hs.takes ht
  have hc' := hc.imp_right (Or.imp_left (·.suffix ht.rest_suffix))
  obtain ⟨m', he', hm'⟩ := he.extend hk' (he.ends hend hc')
  obtain ⟨j', hend', hj⟩ := hm'.endUnit hend
  exact ⟨j', statement_eq_ok_iff.2 ⟨k', m', hk, ht', he', hend'⟩, hj⟩

theorem unitParser_statement : UnitParser .batch statement Statement.map where
  mirrors := statement_mirrors
  size_lt := size_lt_of_statement
  start _ ht hk := turn_statement ht.restart ht.clear (hk.resolve_left nofun)
  extend _ hc _ hs h := statement_extend hs hc h

/-- A name alone in front of a line break opens no statement on either side. -/
theorem opensStatement_extend {ts : List Token} (hs : Seam c i i') (hr : i.rest = t :: ts)
    (ht : t.hidden = false) : opensStatement i' = opensStatement i := by
  cases hs with
  | past hi => simp [hr] at hi
  | inside hne hl hp =>
    have live : t.kind ≠ .eof := (hp t (by simp [hr])).1
    have hcheck : (c.after i).check .visible .identifier = i.check .visible .identifier := by
      simp [Input.check, Input.isAtEnd, Input.peek, Continuation.after, hr, ht]
    unfold opensStatement
    rw [hcheck]
    cases ts with
    | cons u us =>
      have hnext : (c.after i).peekNext .hidden = i.peekNext .hidden := by
        simp [Input.peekNext, Continuation.after, hr, live]
      rw [hnext]
    | nil =>
      obtain ⟨u, us, hu, -⟩ := (hr ▸ hl).hidden_next ht (by simp)
      rw [List.nil_append] at hu
      have hk : u.kind = .eol := (hl.eols u (by simp [hu])).1
      have hnext : (c.after i).peekNext .hidden = u := by
        have hrest : (c.after i).rest = t :: u :: (us ++ c.below) := by
          simp [Continuation.after, hr, hu]
        simp [Input.peekNext, hrest, live]
      have hfinal : (i.peekNext .hidden).kind = .eof := by
        simp [Input.peekNext, hr, live, i.final_eof]
      rw [hnext, hk, hfinal]

theorem unitParser_item : UnitParser .interactive item Item.map where
  mirrors := item_mirrors
  size_lt := size_lt_of_item
  start hp _ _ := by rw [unitStart_interactive hp.endsShown]
  extend {c i i' j it} hp hc hend hs h := by
    rw [unitStart_interactive hp.endsShown] at hs h
    obtain ⟨t, ts, hr, -, hvisible⟩ := Input.clear_eq_cons hend
    have hopens := opensStatement_extend hs hr hvisible
    have hc := hc.imp_right (Or.imp_left (·.suffix (View.visible.ahead_suffix i.rest)))
    rcases item_eq_ok_iff.1 h with ⟨ho, s, rfl, hst⟩ | ⟨ho, e, m, rfl, he, hm⟩
    · obtain ⟨j', hst', hj⟩ := statement_extend hs hc hst
      exact ⟨j', item_eq_ok_iff.2 (.inl ⟨hopens.trans ho, s, rfl, hst'⟩), hj⟩
    · obtain ⟨m', he', hm'⟩ := he.extend hs (he.ends hm hc)
      obtain ⟨j', hend', hj⟩ := hm'.endUnit hm
      exact ⟨j', item_eq_ok_iff.2 (.inr ⟨hopens.trans ho, e, m', rfl, he', hend'⟩), hj⟩

/-- On live input a turn leaves less. -/
theorem UnitParser.turn_size_lt (h : UnitParser mode unit map) {ts : List Token}
    (hr : i.rest = t :: ts) (ht : t.kind ≠ .eof) : (turn unit i).2.size < i.size := by
  unfold turn
  cases hu : unit i with
  | ok a j => exact h.size_lt hu
  | error e k =>
    have hid : Mirrors .none i.size (Image (map Relabeling.none)) unit unit := h.mirrors .none _
    exact recover_size_lt hr ht (rest_suffix_of_error hid hu)

/-- Hidden tokens in front of a unit, or of nothing, make no difference, if it starts with a
name or stands at the prompt. -/
theorem units_clear (h : UnitParser mode unit map) (hp : Plain i.rest)
    (hi : mode = .interactive ∨ (i.peek .visible).kind = .identifier ∨
      (i.peek .visible).kind = .eof) :
    units mode unit i = units mode unit i.clear := by
  cases hend : i.isAtEnd .visible with
  | true => rw [units_nil hend, units_nil (i.isAtEnd_clear.trans hend)]
  | false =>
    have live : (i.peek .visible).kind ≠ .eof := of_decide_eq_false hend
    have hk := hi.imp_right (·.resolve_right live)
    obtain ⟨t, ts, hr, ht, -⟩ := Input.clear_eq_cons hend
    have hturn := h.start hp (Input.takes_peek live) hk
    have hlt : (turn unit i.clear).2.size < i.clear.size := h.turn_size_lt hr ht
    have hclear := unitStart_clear mode i
    rw [units_cons hend (by rw [hturn]; exact Nat.lt_of_lt_of_le hlt i.size_clear_le),
      units_cons (i.isAtEnd_clear.trans hend) (by rw [hclear]; exact hlt), hturn, hclear]

theorem Seam.isAtEnd (hs : Seam c i i') (hi : i.isAtEnd .visible = false) :
    i'.isAtEnd .visible = false := by
  have live : (i.peek .visible).kind ≠ .eof := of_decide_eq_false hi
  have he := hs.peek_of_shows (Input.takes_peek live).shows
  exact decide_eq_false (he ▸ live)

theorem Seam.unitStart (hi : i.isAtEnd .visible = false) (hs : Seam c i i') :
    Seam c (unitStart mode i) (unitStart mode i') := by
  cases hs with
  | past hr => simp [Input.isAtEnd, Input.peek, hr, i.final_eof] at hi
  | inside hne hl hp =>
    cases mode with
    | batch => exact .inside hne hl hp
    | interactive =>
      have hshows : (Grammar.unitStart .interactive i).Shows := by
        rw [unitStart_interactive hp.endsShown]
        exact (Input.takes_peek (of_decide_eq_false hi)).clear.shows
      have hne' := hshows.rest_ne_nil
      have htail : (Grammar.unitStart .interactive i).rest <:+ i.rest := List.dropWhile_suffix _
      have hafter : Grammar.unitStart .interactive (c.after i) =
          c.after (Grammar.unitStart .interactive i) := by
        simp only [Grammar.unitStart, Continuation.after] at hne' ⊢
        rw [List.dropWhile_append, if_neg (by simpa using hne')]
      rw [hafter]
      exact .inside hshows (hl.suffix htail hne') (hp.suffix htail)

theorem Meets.plain (h : Meets c i i') : Plain i.rest := by
  cases h with
  | seam h => exact h.plain
  | last _ hp => exact hp

/-- Behind the last unit only the continuation is left. -/
theorem Meets.clear_eq (h : Meets c i i') (hend : i.isAtEnd .visible = true) :
    i'.clear = c.input := by
  have hafter : View.visible.ahead i.rest = [] → (c.after i).clear = c.input := by
    intro ha
    simp only [Input.clear, Continuation.after, Continuation.input]
    rw [View.ahead_append_nil ha, c.visible_ends]
  cases h with
  | seam h =>
    cases h with
    | inside hne hl hp => exact hafter (Input.clear_eq_nil hp hend)
    | past hi =>
      simp only [Input.clear, Continuation.input]
      rw [c.visible_below]
  | last hi _ => exact hafter (not_not.1 fun h => hi (Input.shows_iff.2 h))

theorem Meets.plain_after (h : Meets c i i') : Plain i'.rest := by
  have hafter : Plain i.rest → Plain (c.after i).rest :=
    fun hp => hp.append ((plain_of_eols c.eols).append c.plain)
  cases h with
  | seam h =>
    cases h with
    | inside hne hl hp => exact hafter hp
    | past hi => exact c.plain
  | last _ hp => exact hafter hp

theorem accepted_append (results results' : List (Except SyntaxError α)) :
    accepted (results ++ results') = accepted results ++ accepted results' :=
  List.filterMap_append

theorem rejected_append (results results' : List (Except SyntaxError α)) :
    rejected (results ++ results') = rejected results ++ rejected results' :=
  List.filterMap_append

theorem accepted_relabel (ρ : Relabeling) (φ : α → α)
    (results : List (Except SyntaxError α)) :
    accepted (results.map (relabelUnit ρ φ)) = (accepted results).map φ := by
  simp only [accepted, List.filterMap_map, List.map_filterMap]
  refine List.filterMap_congr fun r _ => ?_
  cases r <;> rfl

theorem rejected_relabel (ρ : Relabeling) (φ : α → α)
    (results : List (Except SyntaxError α)) :
    rejected (results.map (relabelUnit ρ φ)) = (rejected results).map (SyntaxError.relabel ρ) := by
  simp only [rejected, List.filterMap_map, List.map_filterMap]
  refine List.filterMap_congr fun r _ => ?_
  cases r <;> rfl

/-- The program of relabeled tokens is that of the tokens, relabeled, and so are the errors. -/
theorem program_relabel (ρ : Relabeling) (mode : Mode) {ts : List Token} {final : Token}
    (heof : final.kind = .eof) :
    program mode ((ts ++ [final]).map ρ) =
      ((program mode (ts ++ [final])).1.map ρ,
        (program mode (ts ++ [final])).2.map (SyntaxError.relabel ρ)) := by
  have hinput : Input.ofTokens ((ts ++ [final]).map ρ) =
      (Input.ofTokens (ts ++ [final])).relabel ρ := by
    rw [List.map_append, List.map_singleton, Input.ofTokens_concat _ heof,
      Input.ofTokens_concat _ ((ρ.kind_apply final).trans heof)]
    rfl
  cases mode with
  | batch =>
    simp only [program, hinput, units_relabel ρ (unitParser_statement.mirrors ρ),
      accepted_relabel, rejected_relabel, Program.map]
  | interactive =>
    simp only [program, hinput, units_relabel ρ (unitParser_item.mirrors ρ), accepted_relabel,
      rejected_relabel, Program.map]

theorem rejected_cons {rs : List (Except SyntaxError α)} {r : Except SyntaxError α}
    (h : rejected (r :: rs) = []) : (∃ a, r = .ok a) ∧ rejected rs = [] := by
  cases r with
  | ok a => exact ⟨⟨a, rfl⟩, h⟩
  | error e => cases h

/-- Without an error the results are the units. -/
theorem map_ok_accepted {rs : List (Except SyntaxError α)} (h : rejected rs = []) :
    (accepted rs).map .ok = rs := by
  induction rs with
  | nil => rfl
  | cons r rs ih =>
    obtain ⟨⟨a, rfl⟩, h⟩ := rejected_cons h
    exact congrArg (.ok a :: ·) (ih h)

/-- **Units that are read without an error are read in front of a continuation, too,** and
then those of the continuation are, if no expression goes on with it or if a semicolon
stands in front of it. -/
theorem units_continue (h : UnitParser mode unit map) (hm : Meets c i i')
    (hr : rejected (units mode unit i) = []) (hc : c.Fresh ∨ Sealed i.rest)
    (hopens : mode = .interactive ∨ (c.input.peek .visible).kind = .identifier ∨
      (c.input.peek .visible).kind = .eof) :
    units mode unit i' = units mode unit i ++ units mode unit c.input := by
  induction i using units_induction mode unit generalizing i' with
  | next i ih =>
    cases hend : i.isAtEnd .visible with
    | true =>
      have hclear := hm.clear_eq hend
      have hpeek : i'.peek .visible = c.input.peek .visible := by
        rw [← Input.peek_clear, hclear]
      rw [units_nil hend, units_clear h hm.plain_after (hpeek ▸ hopens), hclear]
      rfl
    | false =>
      obtain ⟨t, ts, hrest, live⟩ := unitStart_live mode hm.plain.endsShown hend
      have hlt := Nat.lt_of_lt_of_le (h.turn_size_lt hrest live) (unitStart_size_le mode i)
      rw [units_cons hend hlt] at hr ⊢
      obtain ⟨⟨a, ha⟩, hr⟩ := rejected_cons hr
      have hunit := turn_eq_ok.1 (Prod.ext ha rfl)
      have hs := hm.seam_of_shows (Input.takes_peek (of_decide_eq_false hend)).shows
      obtain ⟨j', hj', hm'⟩ :=
        h.extend hm.plain (hc.imp_right .inl) hend (hs.unitStart hend) hunit
      have hlt' := Nat.lt_of_lt_of_le (h.size_lt hj') (unitStart_size_le mode i')
      have hsuffix := (rest_suffix_of_ok (h.mirrors .none _) hunit).trans
        (unitStart_suffix mode i)
      rw [units_ok (hs.isAtEnd hend) hj' hlt',
        ih hlt hm' hr (hc.imp_right (·.suffix hsuffix)), ha]
      rfl

/-! ## Texts -/

/-- The same tokens with `n` more lines in front. -/
def shifted (n : Nat) : Relabeling := ⟨Token.down n, fun _ => rfl, fun _ => rfl, fun _ => rfl⟩

/-- The second of two texts as a continuation of the first one. -/
def nextLine (n : Nat) (source : String) (ends : List Token)
    (eols : ∀ t ∈ ends, t.kind = .eol ∧ t.hidden = true) : Continuation where
  ends := ends
  below := ((textTokens source).dropWhile (·.hidden)).map (Token.down n)
  final := .eof ((Position.start.advance source.toList).down n)
  final_eof := rfl
  eols := eols
  opens := by
    intro t ht
    rw [List.head?_map, ← List.find?_not_eq_head?_dropWhile] at ht
    obtain ⟨u, hu, rfl⟩ := Option.map_eq_some_iff.1 ht
    have hidden : u.hidden = false := by simpa using List.find?_some hu
    exact hidden
  plain := by
    intro t ht
    obtain ⟨u, hu, rfl⟩ := List.mem_map.1 ht
    exact plain_textTokens source u ((List.dropWhile_suffix _).mem hu)

section Texts

variable (n : Nat) (source : String) {ends : List Token}
  (eols : ∀ t ∈ ends, t.kind = .eol ∧ t.hidden = true)

theorem input_nextLine : (nextLine n source ends eols).input =
    (Input.ofTokens (tokens source)).clear.relabel (shifted n) := by
  rw [ofTokens_tokens]
  rfl

theorem peek_nextLine : ((nextLine n source ends eols).input.peek .visible).kind =
    ((Input.ofTokens (tokens source)).peek .visible).kind := by
  rw [input_nextLine, Input.peek_relabel, Input.peek_clear]
  rfl

end Texts

/-- The first token of a text that can be seen, or its end mark. -/
theorem peek_tokens (source : String) :
    (Input.ofTokens (tokens source)).peek .visible =
      ((textTokens source).find? (!·.hidden)).getD
        (.eof (Position.start.advance source.toList)) := by
  rw [ofTokens_tokens, List.find?_not_eq_head?_dropWhile, ← List.headD_eq_head?_getD]
  rfl

theorem peek_of_opensWithName {source : String} (h : OpensWithName (textTokens source)) :
    ((Input.ofTokens (tokens source)).peek .visible).kind = .identifier ∨
      ((Input.ofTokens (tokens source)).peek .visible).kind = .eof := by
  rw [peek_tokens]
  cases hf : (textTokens source).find? (!·.hidden) with
  | none => exact .inr rfl
  | some t => exact .inl (h t hf)

theorem meets_tokens {s₁ s₂ s : String} {ends : List Token} (hl : LineEnd (textTokens s₁) ends)
    (hs : tokens s = textTokens s₁ ++ ends ++
      ((textTokens s₂).dropWhile (·.hidden)).map (Token.down (linesBelow s₁)) ++
        [.eof ((Position.start.advance s₂.toList).down (linesBelow s₁))]) :
    Meets (nextLine (linesBelow s₁) s₂ ends hl.eols) (.ofTokens (tokens s₁))
      (.ofTokens (tokens s)) := by
  rw [hs, ofTokens_tokens, Input.ofTokens_concat _ rfl, List.append_assoc]
  let i : Input :=
    { rest := textTokens s₁
      final := .eof (Position.start.advance s₁.toList)
      final_eof := rfl }
  by_cases hshows : i.Shows
  · exact .seam (.inside hshows hl (plain_textTokens s₁))
  · exact .last hshows (plain_textTokens s₁)

/-- **The units of a text and of one on the next line** are those of the first one and then
those of the second one, which stand further down. -/
theorem units_onNextLine (h : UnitParser mode unit map) {s₁ s₂ s : String}
    (hs : OnNextLine s₁ s₂ s) (hr : rejected (units mode unit (.ofTokens (tokens s₁))) = [])
    (hc : ((Input.ofTokens (tokens s₂)).peek .visible).kind.Fresh ∨ Sealed (textTokens s₁))
    (hopens : mode = .interactive ∨ OpensWithName (textTokens s₂)) :
    units mode unit (.ofTokens (tokens s)) =
      units mode unit (.ofTokens (tokens s₁)) ++
        (units mode unit (.ofTokens (tokens s₂))).map
          (relabelUnit (shifted (linesBelow s₁)) (map (Token.down (linesBelow s₁)))) := by
  obtain ⟨ends, hl, htokens⟩ := hs
  have hplain : Plain (Input.ofTokens (tokens s₂)).rest := by
    rw [ofTokens_tokens]
    exact plain_textTokens s₂
  have hopens' := hopens.imp_right peek_of_opensWithName
  have hc' : (nextLine (linesBelow s₁) s₂ ends hl.eols).Fresh ∨
      Sealed (Input.ofTokens (tokens s₁)).rest := by
    rwa [Continuation.Fresh, peek_nextLine, ofTokens_tokens s₁]
  rw [units_continue h (meets_tokens hl htokens) hr hc' (by rwa [peek_nextLine]), input_nextLine,
    units_relabel _ (h.mirrors _), ← units_clear h hplain hopens']
  rfl

/-- **The units of two texts with a newline between them.** -/
theorem units_newline (h : UnitParser mode unit map) {s₁ s₂ : String}
    (h₁ : (scanDiagnostics s₁).errors = [])
    (hr : rejected (units mode unit (.ofTokens (tokens s₁))) = [])
    (h₂ : OpensWithName (textTokens s₂)) :
    units mode unit (.ofTokens (tokens (s₁ ++ "\n" ++ s₂))) =
      units mode unit (.ofTokens (tokens s₁)) ++
        (units mode unit (.ofTokens (tokens s₂))).map
          (relabelUnit (shifted (linesBelow s₁)) (map (Token.down (linesBelow s₁)))) :=
  units_onNextLine h (tokens_newline h₁ h₂.opensUnit) hr
    (.inl (TokenKind.fresh_of_name (peek_of_opensWithName h₂))) (.inr h₂)

end Grammar

end LazyDecl
