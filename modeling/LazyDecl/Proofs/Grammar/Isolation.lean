import LazyDecl.Proofs.Grammar.LeadingLine
import LazyDecl.Proofs.Grammar.OneLine

/-!
A line that cannot be read, between lines that can. It costs one error, the one it has alone,
and neither what stands in front of it nor what stands behind it reads otherwise
(`program_isolated`). Recovery stops right behind the line, wherever in it the unit has failed,
and also if the unit has stepped over the line end already (`recover_line`).
-/

namespace LazyDecl

theorem Plain.rest_ofTokens {ts : List Token} (h : Plain ts) : (Input.ofTokens ts).rest = ts :=
  Input.rest_ofTokens fun t ht => (h t ht).1

namespace Grammar

open LazyDecl.Parser

/-- The first token is a name. -/
def NameFirst (ts : List Token) : Prop := ts.head?.map (·.kind) = some .identifier

instance (ts : List Token) : Decidable (NameFirst ts) :=
  inferInstanceAs (Decidable (_ = _))

theorem NameFirst.eq_cons {ts : List Token} (h : NameFirst ts) :
    ∃ t us, ts = t :: us ∧ t.kind = .identifier := by
  cases ts with
  | nil => cases h
  | cons t us => exact ⟨t, us, rfl, Option.some.inj h⟩

theorem NameFirst.ne_nil {ts : List Token} (h : NameFirst ts) : ts ≠ [] := by
  obtain ⟨t, us, rfl, -⟩ := h.eq_cons
  exact List.cons_ne_nil t us

theorem NameFirst.append {ts : List Token} (h : NameFirst ts) (us : List Token) :
    NameFirst (ts ++ us) := by
  obtain ⟨t, ts, rfl, hk⟩ := h.eq_cons
  exact congrArg some hk

/-- Tokens that begin with a name, as a continuation of others. -/
def following (ends ts : List Token) (eols : ∀ t ∈ ends, t.kind = .eol ∧ t.hidden = true)
    (plain : Plain ts) (name : NameFirst ts) : Continuation where
  ends := ends
  below := ts
  final := (Input.ofTokens ts).final
  final_eof := (Input.ofTokens ts).final_eof
  eols := eols
  opens := by
    obtain ⟨t, us, rfl, hk⟩ := name.eq_cons
    rintro _ ⟨⟩
    exact plain.visible List.mem_cons_self (by simp [hk])
  plain := plain

section Following

variable {ends ts us : List Token} (eols : ∀ t ∈ ends, t.kind = .eol ∧ t.hidden = true)
  (plain : Plain ts) (name : NameFirst ts)

theorem input_following : (following ends ts eols plain name).input = .ofTokens ts := by
  have hmk : ∀ i : Input, i.rest = ts → i.skipped = false →
      { rest := ts, final := i.final, final_eof := i.final_eof } = i := by
    rintro ⟨_, _, _, _⟩ rfl rfl
    rfl
  exact hmk _ plain.rest_ofTokens (Input.skipped_ofTokens ts)

theorem after_following (hus : Plain us) :
    (following ends ts eols plain name).after (.ofTokens us) = .ofTokens (us ++ (ends ++ ts)) := by
  rw [← List.append_assoc, Input.ofTokens_append _ name.ne_nil, plain.rest_ofTokens]
  simp [Continuation.after, following, hus.rest_ofTokens, Input.skipped_ofTokens,
    List.append_assoc]

theorem name_following :
    ((following ends ts eols plain name).input.peek .visible).kind = .identifier := by
  have hvisible := (following ends ts eols plain name).visible_below
  obtain ⟨t, us, rfl, hk⟩ := name.eq_cons
  rw [Input.peek, Continuation.input, hvisible]
  exact hk

end Following

variable {α : Type} {unit : Parser α} {mode : Mode} {map : (Token → Token) → α → α}
  {c : Continuation} {n : Nat} {i i' k k' : Input} {e : SyntaxError} {eol : Token}

theorem units_restart (mode : Mode) (unit : Parser α) (i : Input) (b : Bool) :
    units mode unit { i with skipped := b } = units mode unit i := by
  have hstart : unitStart mode { i with skipped := b } = unitStart mode i := by
    cases mode <;> rfl
  rw [units, units, hstart]
  rfl

/-- No boundary stands on the line. -/
theorem OneLine.pastBoundary (h : OneLine c n i i') (us : List Token) :
    pastBoundary (i.rest ++ us) = Grammar.pastBoundary us := by
  have hline := h.unmarked
  generalize i.rest = ts at hline
  induction ts with
  | nil => rfl
  | cons t ts ih =>
    obtain ⟨⟨live, heol, hsemicolon⟩, hts⟩ := List.forall_mem_cons.1 hline
    rw [← ih hts, List.cons_append, Grammar.pastBoundary, if_neg live,
      if_neg (by simp [heol, hsemicolon])]

/-- **Wherever on the line a unit fails, what is behind the line is left.** Either the rest of
the line is discarded with its end, or the unit has stepped over that and nothing is. -/
theorem recover_line (h : OneLine c n k k') (hends : c.ends = [eol]) {start : Input}
    (hlt : c.below.length < start.size) :
    ∃ b, recover start k' = { c.input with skipped := b } := by
  have heol : eol.kind = .eol := (c.eols eol (by simp [hends])).1
  have hlevel := h.level
  have hpast := h.pastBoundary (c.ends ++ c.below)
  cases h.seam with
  | inside _ _ _ =>
    have hskipped : (c.after k).skipped = false := hlevel
    have hbelow : pastBoundary (c.after k).rest = c.below := by
      rw [hends, List.singleton_append, pastBoundary, if_neg (by simp [heol]),
        if_pos (by simp [heol])] at hpast
      rwa [← List.singleton_append, ← hends] at hpast
    refine ⟨false, ?_⟩
    unfold recover
    rw [hskipped, Bool.and_false, if_neg (by simp), hbelow]
    rfl
  | past _ =>
    have hsize : Input.size { c.input with skipped := true } ≠ start.size := Nat.ne_of_lt hlt
    exact ⟨true, if_pos (by simpa using hsize)⟩

/-- Alone, the line is discarded to its end. -/
theorem recover_alone (h : OneLine c n k k') (start : Input) : (recover start k).rest = [] := by
  unfold recover
  rw [h.level, Bool.and_false, if_neg (by simp), ← k.rest.append_nil, h.pastBoundary]
  rfl

theorem recover_nil (hr : k.rest = []) (start : Input) : (recover start k).rest = [] := by
  unfold recover
  split
  · exact hr
  · rw [hr]
    rfl

/-! ## Units -/

theorem unitStart_visible (mode : Mode) (hs : i.skipped = false)
    (h : ∀ t ∈ i.rest.head?, t.hidden = false) : unitStart mode i = i := by
  have hclear : i.clear = i := by
    have hahead : View.visible.ahead i.rest = i.rest := by
      rw [View.ahead_visible]
      cases hr : i.rest with
      | nil => rfl
      | cons t ts =>
        rw [hr] at h
        exact List.dropWhile_cons_of_neg (by simp [h t rfl])
    unfold Input.clear
    rw [hahead, ← hs]
  rw [← hclear, unitStart_clear]

theorem OneLine.unitStart (h : OneLine c n i i') (mode : Mode) : unitStart mode i = i :=
  unitStart_visible mode h.level fun t ht => (h.line t (List.mem_of_head? ht)).1

theorem OneLine.isAtEnd (h : OneLine c n i i') (hne : i.rest ≠ []) :
    i.isAtEnd .visible = false := by
  cases h.shown with
  | ended hr _ _ => exact absurd hr hne
  | same ht _ _ => exact decide_eq_false (ht.peek_eq ▸ ht.live)

/-- The first unit of a line is the only one. -/
theorem units_alone (h : LineParser unit) (hi : OneLine c n i i') (hne : i.rest ≠ []) :
    units mode unit i = [(turn unit i).1] := by
  have hrest : (turn unit i).2.rest = [] := by
    have hagrees := h.along c n i i' hi
    unfold turn
    cases hu : unit i with
    | ok a j => exact h.exhausts c n i i' a j hi hu
    | error e k =>
      rw [hu] at hagrees
      rcases hagrees.of_error with ⟨k', -, hk⟩ | ⟨-, hk⟩
      · exact recover_alone hk i
      · exact recover_nil hk i
  have hlt : (turn unit i).2.size < i.size := by
    rw [Input.size, hrest]
    exact List.length_pos_iff.2 hne
  have hdone : (turn unit i).2.isAtEnd .visible = true := by
    simp [Input.isAtEnd, kind_peek_of_nil _ hrest]
  have hstart := hi.unitStart mode
  rw [units_cons (hi.isAtEnd hne) (by rwa [hstart]), hstart, units_nil hdone]

/-- **A line that cannot be read costs one error,** and what follows it reads as it does
alone. -/
theorem units_isolated (h : LineParser unit) (hi : OneLine c n i (c.after i))
    (hends : c.ends = [eol]) (hne : i.rest ≠ []) (he : e ∈ rejected (units mode unit i))
    (hanchor : e.token.kind ≠ .eof) :
    rejected (units mode unit i) = [e] ∧
      units mode unit (c.after i) = .error e :: units mode unit c.input := by
  have hunits : units mode unit i = [(turn unit i).1] := units_alone h hi hne
  obtain ⟨k, hu⟩ : ∃ k, unit i = .error e k := by
    unfold turn at hunits
    rw [hunits] at he
    cases hu : unit i with
    | ok a j =>
      rw [hu] at he
      cases he
    | error e' k =>
      rw [hu] at he
      exact ⟨k, by rw [List.mem_singleton.1 he]⟩
  have hagrees := h.along c n i (c.after i) hi
  rw [hu] at hagrees
  obtain ⟨k', hu', hk⟩ := hagrees.of_error.resolve_right fun hlate => hanchor hlate.1
  refine ⟨by rw [hunits, turn, hu]; rfl, ?_⟩
  have hsize : c.below.length < (c.after i).size := by
    simp only [Input.size, Continuation.after, hends, List.length_append, List.length_singleton]
    omega
  obtain ⟨b, hrecover⟩ := recover_line hk hends hsize
  have hstart : unitStart mode (c.after i) = c.after i := by
    refine unitStart_visible mode hi.level fun t ht => (hi.line t ?_).1
    have hhead : (c.after i).rest.head? = i.rest.head? := List.head?_append_of_ne_nil _ hne
    exact List.mem_of_head? (hhead ▸ ht)
  have hturn : turn unit (unitStart mode (c.after i)) =
      (.error e, { c.input with skipped := b }) := by
    rw [hstart, turn, hu', ← hrecover]
  rw [units_cons (hi.seam.isAtEnd (hi.isAtEnd hne)) (by rw [hturn]; exact hsize), hturn,
    units_restart]

/-! ## Token runs -/

/-- A run of tokens that is empty or ends with a line end meets the name that follows. -/
theorem meets_following {before ts : List Token} (hbefore : Plain before)
    (hlast : ∀ t ∈ before.getLast?, t.kind = .eol) (plain : Plain ts) (name : NameFirst ts) :
    Meets (following [] ts (List.forall_mem_nil _) plain name) (.ofTokens before)
      (.ofTokens (before ++ ts)) := by
  have hrest := hbefore.rest_ofTokens
  have hafter := after_following (List.forall_mem_nil _) plain name hbefore
  rw [List.nil_append] at hafter
  rw [← hafter]
  by_cases hshows : (Input.ofTokens before).Shows
  · have hne : before ≠ [] := hrest ▸ hshows.rest_ne_nil
    have hlast? := List.getLast?_eq_some_getLast hne
    have hidden : (before.getLast hne).hidden = true :=
      (hbefore _ (List.getLast_mem hne)).2.2 (hlast _ hlast?)
    have hl : LineEnd before [] := ⟨List.forall_mem_nil _, _, by rwa [List.append_nil], hidden⟩
    exact .seam (.inside hshows (hrest.symm ▸ hl) (hrest.symm ▸ hbefore))
  · exact .last hshows (hrest.symm ▸ hbefore)

/-- A line, with its end behind it and then a name. -/
theorem oneLine_following {line ts : List Token} (hline : Plain line)
    (hmarks : ∀ t ∈ line, t.kind ≠ .eol ∧ t.kind ≠ .semicolon) (hne : line ≠ [])
    (eols : ∀ t ∈ [eol], t.kind = .eol ∧ t.hidden = true) (plain : Plain ts)
    (name : NameFirst ts) :
    OneLine (following [eol] ts eols plain name) line.length (.ofTokens line)
      ((following [eol] ts eols plain name).after (.ofTokens line)) := by
  have hrest := hline.rest_ofTokens
  have hvisible : ∀ t ∈ line, t.hidden = false := fun t ht => hline.visible ht (hmarks t ht).1
  have hshows : (Input.ofTokens line).Shows := by
    obtain ⟨t, us, rfl⟩ := List.exists_cons_of_ne_nil hne
    exact ⟨t, by simp [hrest], hvisible t List.mem_cons_self⟩
  have hl : LineEnd line [eol] :=
    ⟨eols, eol, List.getLast?_concat, (eols eol List.mem_cons_self).2⟩
  exact {
    seam := .inside hshows (hrest.symm ▸ hl) (hrest.symm ▸ hline)
    name := name_following eols plain name
    level := Input.skipped_ofTokens line
    line := hrest.symm ▸ fun t ht => ⟨hvisible t ht, (hmarks t ht).2⟩
    size_le := Input.size_ofTokens_le line }

/-- The units in front of a line that cannot be read, its error, and the units behind it. -/
theorem units_around (h : UnitParser mode unit map) (hl : LineParser unit)
    {before line rest : List Token} (hbefore : Plain before) (hline : Plain line)
    (hrest : Plain rest) (heol : eol.kind = .eol) (hhidden : eol.hidden = true)
    (hlast : ∀ t ∈ before.getLast?, t.kind = .eol)
    (hclean : rejected (units mode unit (.ofTokens before)) = [])
    (hname : NameFirst line) (hmarks : ∀ t ∈ line, t.kind ≠ .eol ∧ t.kind ≠ .semicolon)
    (he : e ∈ rejected (units mode unit (.ofTokens line))) (hanchor : e.token ∈ line)
    (hrestName : NameFirst rest) :
    rejected (units mode unit (.ofTokens line)) = [e] ∧
      accepted (units mode unit (.ofTokens (before ++ line ++ [eol] ++ rest))) =
        accepted (units mode unit (.ofTokens before)) ++
          accepted (units mode unit (.ofTokens rest)) ∧
      rejected (units mode unit (.ofTokens (before ++ line ++ [eol] ++ rest))) =
        e :: rejected (units mode unit (.ofTokens rest)) := by
  have eols : ∀ t ∈ [eol], t.kind = .eol ∧ t.hidden = true := by simp [heol, hhidden]
  have hplain : Plain (line ++ ([eol] ++ rest)) := hline.append ((plain_of_eols eols).append hrest)
  have hbelow := hname.append ([eol] ++ rest)
  have hfront : units mode unit (.ofTokens (before ++ (line ++ ([eol] ++ rest)))) =
      units mode unit (.ofTokens before) ++
        units mode unit (.ofTokens (line ++ ([eol] ++ rest))) := by
    have hidentifier := name_following (List.forall_mem_nil _) hplain hbelow
    rw [units_continue h (meets_following hbefore hlast hplain hbelow) hclean
      (.inl (TokenKind.fresh_of_name (.inl hidentifier))) (.inr (.inl hidentifier)),
      input_following]
  have hi := oneLine_following hline hmarks hname.ne_nil eols hrest hrestName
  have hne : (Input.ofTokens line).rest ≠ [] := hline.rest_ofTokens.symm ▸ hname.ne_nil
  obtain ⟨hone, hunits⟩ := units_isolated hl hi rfl hne he (hline _ hanchor).1
  rw [after_following eols hrest hrestName hline, input_following] at hunits
  rw [List.append_assoc, List.append_assoc, hfront, hunits, accepted_append, rejected_append,
    hclean]
  exact ⟨hone, rfl, rfl⟩

/-- **A malformed line is isolated.** Behind lines that are read without an error, and in front of
one that begins with a name, a line that cannot be read costs the one error it has alone. The
units in front of it and behind it are read, and so are the errors behind it found. -/
theorem program_isolated (mode : Mode) {before line rest : List Token} {eol : Token}
    {e : SyntaxError} (hbefore : Plain before) (hline : Plain line) (hrest : Plain rest)
    (heol : eol.kind = .eol) (hhidden : eol.hidden = true)
    (hlast : ∀ t ∈ before.getLast?, t.kind = .eol) (hclean : (program mode before).2 = [])
    (hname : NameFirst line) (hmarks : ∀ t ∈ line, t.kind ≠ .eol ∧ t.kind ≠ .semicolon)
    (he : e ∈ (program mode line).2) (hanchor : e.token ∈ line) (hrestName : NameFirst rest) :
    (program mode line).2 = [e] ∧
      (program mode (before ++ line ++ [eol] ++ rest)).1.items =
        (program mode before).1.items ++ (program mode rest).1.items ∧
      (program mode (before ++ line ++ [eol] ++ rest)).2 = e :: (program mode rest).2 := by
  cases mode with
  | batch =>
    obtain ⟨hone, haccepted, hrejected⟩ := units_around unitParser_statement lineParser_statement
      hbefore hline hrest heol hhidden hlast hclean hname hmarks he hanchor hrestName
    refine ⟨hone, ?_, hrejected⟩
    simp only [program, Program.items, haccepted, List.map_append]
  | interactive =>
    exact units_around unitParser_item lineParser_item hbefore hline hrest heol hhidden hlast
      hclean hname hmarks he hanchor hrestName

/-- A table entry without a key, at which the list fails when it is behind its line already. -/
def entryMissing : List Token := textTokens "x [a: 1, 2"

theorem program_isolated_entryMissing :
    Plain (textTokens "decl a: 1\n") ∧ Plain entryMissing ∧ Plain (textTokens "y a") ∧
      (program .batch (textTokens "decl a: 1\n")).2 = [] ∧ NameFirst entryMissing ∧
      (∀ t ∈ entryMissing, t.kind ≠ .eol ∧ t.kind ≠ .semicolon) ∧
      NameFirst (textTokens "y a") ∧
      ∃ e, e.cause = .expectedEntry ∧ e.token ∈ entryMissing ∧
        (program .batch entryMissing).2 = [e] ∧
        (program .batch
          (textTokens "decl a: 1\n" ++ entryMissing ++ [lineBreak] ++ textTokens "y a")).2 = [e] ∧
        (program .batch
          (textTokens "decl a: 1\n" ++ entryMissing ++ [lineBreak] ++ textTokens "y a")).1.items =
          (program .batch (textTokens "decl a: 1\n")).1.items ++
            (program .batch (textTokens "y a")).1.items := by
  have hclean : (program .batch (textTokens "decl a: 1\n")).2 = [] := by decide +kernel
  have hname : NameFirst entryMissing := by decide +kernel
  have hmarks : ∀ t ∈ entryMissing, t.kind ≠ .eol ∧ t.kind ≠ .semicolon := by decide +kernel
  have hrest : NameFirst (textTokens "y a") := by decide +kernel
  obtain ⟨e, he, hcause, hanchor⟩ : ∃ e ∈ (program .batch entryMissing).2,
      e.cause = .expectedEntry ∧ e.token ∈ entryMissing := by decide +kernel
  have hplain := plain_textTokens
  have hline : Plain entryMissing := hplain _
  have hlast : ∀ t ∈ (textTokens "decl a: 1\n").getLast?, t.kind = .eol := by decide +kernel
  obtain ⟨hone, hitems, herrors⟩ := program_isolated .batch (hplain _) hline (hplain _)
    (show lineBreak.kind = .eol from rfl) rfl hlast hclean hname hmarks he hanchor hrest
  have hnone : (program .batch (textTokens "y a")).2 = [] := by decide +kernel
  exact ⟨hplain _, hline, hplain _, hclean, hname, hmarks, hrest, e, hcause, hanchor, hone,
    by rw [herrors, hnone], hitems⟩

end Grammar

end LazyDecl
