import LazyDecl.Proofs.Text.Turns

/-!
String literals where the scan comes to them, good ones and bad ones. Backslashes in a row pair up
from the first one on, so it is their number in front of a quote that tells whether the quote
ends a literal.

* `Quoted.inside_iff_ends`: in front of the quote that ends a literal are plain characters and
  pairs, and nothing else;
* `Segment.readString_good`, `Segment.readString_fault`: how far a literal goes, and what is wrong
  with it;
* `literals_end`: a literal, with a mistake or without, is taken in one turn.
-/

namespace LazyDecl

namespace Quoted

/-! ## Backslashes and their partners -/

/-- The text ends with a backslash that has no partner: they pair up from the first one on. -/
def Dangling (cs : List Char) : Prop := (cs.reverse.takeWhile (· = '\\')).length % 2 = 1

/-- Wherever no backslash waits for its partner, the rest of the text is as told. -/
def Throughout (told : List Char → Prop) (cs : List Char) : Prop :=
  ∀ front back, cs = front ++ back → ¬Dangling front → told back

/-- A quote behind this text is the first one that no backslash without a partner precedes. -/
structure Ends (body : List Char) : Prop where
  paired : ¬Dangling body
  first : Throughout (·.head? ≠ some '"') body

/-- Each pair that begins in the text has a meaning. -/
def Meaningful (cs : List Char) : Prop :=
  Throughout (fun back => ∀ d rest, back = '\\' :: d :: rest → d ∈ ['n', '\\', '"', '\n']) cs

theorem not_dangling_nil : ¬Dangling [] := nofun

theorem dangling_backslash : Dangling ['\\'] := rfl

section Recursion

variable {told : List Char → Prop} {c : Char}

theorem dangling_plain (h : c ≠ '\\') (cs : List Char) : Dangling (c :: cs) ↔ Dangling cs := by
  have hc : [c].takeWhile (· = '\\') = [] := by simp [h]
  rw [Dangling, Dangling, List.reverse_cons, List.takeWhile_append, hc, List.append_nil]
  split
  · rename_i hall
    rw [hall]
  · rfl

/-- A pair in front changes nothing. -/
theorem dangling_pair (d : Char) (cs : List Char) : Dangling ('\\' :: d :: cs) ↔ Dangling cs := by
  have hreverse : ('\\' :: d :: cs).reverse = cs.reverse ++ [d, '\\'] := by simp
  rw [Dangling, Dangling, hreverse, List.takeWhile_append]
  split
  · rename_i hall
    -- all of the text is backslashes, and the pair makes them two more or none
    rw [List.length_append, hall]
    by_cases hd : d = '\\' <;> simp [hd]
  · rfl

theorem throughout_nil : Throughout told [] ↔ told [] := by
  refine ⟨fun h => h [] [] rfl not_dangling_nil, fun h front back hcs _ => ?_⟩
  obtain ⟨-, rfl⟩ := List.append_eq_nil_iff.1 hcs.symm
  exact h

theorem throughout_plain (h : c ≠ '\\') (cs : List Char) :
    Throughout told (c :: cs) ↔ told (c :: cs) ∧ Throughout told cs := by
  constructor
  · refine fun hall => ⟨hall [] _ rfl not_dangling_nil, fun front back hcs hfront => ?_⟩
    exact hall (c :: front) back (congrArg (c :: ·) hcs) (mt (dangling_plain h front).1 hfront)
  · rintro ⟨hhead, hrest⟩ front back hcs hfront
    cases front with
    | nil =>
      rw [List.nil_append] at hcs
      exact hcs ▸ hhead
    | cons e front =>
      obtain ⟨rfl, hback⟩ := List.cons_eq_cons.1 hcs
      exact hrest front back hback (mt (dangling_plain h front).2 hfront)

theorem throughout_pair (d : Char) (cs : List Char) :
    Throughout told ('\\' :: d :: cs) ↔ told ('\\' :: d :: cs) ∧ Throughout told cs := by
  constructor
  · refine fun hall => ⟨hall [] _ rfl not_dangling_nil, fun front back hcs hfront => ?_⟩
    exact hall ('\\' :: d :: front) back (congrArg (fun es => '\\' :: d :: es) hcs)
      (mt (dangling_pair d front).1 hfront)
  · rintro ⟨hhead, hrest⟩ front back hcs hfront
    match front with
    | [] =>
      rw [List.nil_append] at hcs
      exact hcs ▸ hhead
    | [e] =>
      -- between the two characters of the pair the backslash waits
      obtain ⟨rfl, -⟩ := List.cons_eq_cons.1 hcs
      exact absurd dangling_backslash hfront
    | e :: f :: front =>
      obtain ⟨he, hfcs⟩ := List.cons_eq_cons.1 hcs
      obtain ⟨hf, hback⟩ := List.cons_eq_cons.1 hfcs
      rw [← he, ← hf, dangling_pair] at hfront
      exact hrest front back hback hfront

end Recursion

/-! ## The insides of literals -/

theorem meaningful_nil : Meaningful [] :=
  throughout_nil.2 fun _ _ h => absurd h.symm (List.cons_ne_nil _ _)

theorem meaningful_plain {c : Char} (h : c ≠ '\\') (cs : List Char) :
    Meaningful (c :: cs) ↔ Meaningful cs :=
  (throughout_plain h cs).trans (and_iff_right fun _ _ hcs => absurd (List.cons_eq_cons.1 hcs).1 h)

theorem meaningful_pair (d : Char) (cs : List Char) :
    Meaningful ('\\' :: d :: cs) ↔ d ∈ ['n', '\\', '"', '\n'] ∧ Meaningful cs := by
  refine (throughout_pair d cs).trans (and_congr_left' ?_)
  refine ⟨fun h => h d cs rfl, fun h e rest hcs => ?_⟩
  obtain ⟨rfl, -⟩ := List.cons_eq_cons.1 (List.cons_eq_cons.1 hcs).2
  exact h

/-- **What stands in front of the quote that ends a literal.** -/
theorem inside_iff_ends {strict : Bool} {body : List Char} :
    Inside strict body ↔ Ends body ∧ (strict = true → Meaningful body) := by
  constructor
  · intro h
    induction h with
    | nil =>
      exact ⟨⟨not_dangling_nil, throughout_nil.2 nofun⟩, fun _ => meaningful_nil⟩
    | @plain c cs hq hb _ ih =>
      obtain ⟨hends, hmeaning⟩ := ih
      refine ⟨⟨mt (dangling_plain hb cs).1 hends.paired, ?_⟩, fun hs => ?_⟩
      · exact (throughout_plain hb cs).2 ⟨by simpa using hq, hends.first⟩
      · exact (meaningful_plain hb cs).2 (hmeaning hs)
    | @pair d cs hd _ ih =>
      obtain ⟨hends, hmeaning⟩ := ih
      refine ⟨⟨mt (dangling_pair d cs).1 hends.paired, ?_⟩, fun hs => ?_⟩
      · exact (throughout_pair d cs).2 ⟨by simp, hends.first⟩
      · exact (meaningful_pair d cs).2 ⟨hd hs, hmeaning hs⟩
  · rintro ⟨⟨hpaired, hfirst⟩, hmeaning⟩
    fun_induction closing? body with
    | case1 => exact .nil
    | case2 cs => exact absurd rfl (hfirst [] _ rfl not_dangling_nil)
    | case3 => exact absurd dangling_backslash hpaired
    | case4 d cs _ ih =>
      have hall := fun hs => (meaningful_pair d cs).1 (hmeaning hs)
      exact .pair (fun hs => (hall hs).1) (ih (fun hs => (hall hs).2)
        (mt (dangling_pair d cs).2 hpaired) ((throughout_pair d cs).1 hfirst).2)
    | case5 c cs hq hb ih =>
      exact .plain hq hb (ih (fun hs => (meaningful_plain hb cs).1 (hmeaning hs))
        (mt (dangling_plain hb cs).2 hpaired) ((throughout_plain hb cs).1 hfirst).2)

/-! ## What is wrong with a literal -/

/-- Nothing in the text ends a literal. -/
def Open (cs : List Char) : Prop := ∀ body rest, cs = body ++ '"' :: rest → ¬Ends body

/-- What is wrong with a literal that goes on with this text behind its opening quote, and the part
of it that is shown. The first pair without a meaning counts, even if nothing ends the literal. -/
inductive Fault (cs : List Char) : ScanError → List Char → Prop where
  | escape {front : List Char} {d : Char} : Ends front → Meaningful front →
      d ∉ ['n', '\\', '"', '\n'] → front ++ ['\\', d] <+: cs →
      Fault cs (.unexpectedEscape d) ('"' :: (front ++ ['\\']))
  | unterminated : Open cs → Meaningful cs → Fault cs .unterminatedString ('"' :: cs)

section Ends

variable {body rest cs : List Char}

theorem Ends.closing?_eq (h : Ends body) (rest : List Char) :
    closing? (body ++ '"' :: rest) = some (body.length + 1) :=
  (inside_iff_ends.2 ⟨h, (nofun : false = true → Meaningful body)⟩).closing?_eq rest

theorem open_iff : Open cs ↔ closing? cs = none := by
  constructor
  · intro h
    cases hclose : closing? cs with
    | none => rfl
    | some n =>
      obtain ⟨inside, hinside, htake⟩ :=
        closed_of_closing? (nofun : false = true → badEscape? cs = none) hclose
      refine absurd (inside_iff_ends.1 hinside).1 (h inside (cs.drop n) ?_)
      rw [← List.singleton_append, ← List.append_assoc, ← htake, List.take_append_drop]
  · rintro h body rest rfl hbody
    rw [hbody.closing?_eq] at h
    cases h

theorem meaningful_of_open (h : closing? cs = none) (hbad : badEscape? cs = none) :
    Meaningful cs := by
  fun_induction closing? cs with
  | case1 => exact meaningful_nil
  | case2 => cases h
  | case3 =>
    rintro front back hcs hfront d rest rfl
    have hlength := congrArg List.length hcs
    simp only [List.length_append, List.length_cons, List.length_nil] at hlength
    omega
  | case4 d cs _ ih =>
    obtain ⟨hd, hbad⟩ := badEscape?_pair hbad
    exact (meaningful_pair d cs).2 ⟨hd, ih (Option.map_eq_none_iff.1 h) hbad⟩
  | case5 c cs hq hb ih =>
    rw [badEscape?_plain hq hb, Option.map_eq_none_iff] at hbad
    exact (meaningful_plain hb cs).2 (ih (Option.map_eq_none_iff.1 h) hbad)

end Ends

end Quoted

namespace Segment

variable {body rest cs : List Char}

theorem readString_good (h : Quoted.Ends body) (hm : Quoted.Meaningful body) (rest : List Char) :
    readString (body ++ '"' :: rest) = (.token .string, body.length + 1) := by
  have hinside : Quoted.Inside true body := Quoted.inside_iff_ends.2 ⟨h, fun _ => hm⟩
  exact readString_closed (hinside.badEscape?_eq rest) (hinside.closing?_eq rest)

/-- **A literal that is no token has a fault**, and goes on as far as a good one. -/
theorem readString_fault (h : Quoted.badEscape? cs ≠ none ∨ Quoted.closing? cs = none) :
    ∃ error shown, Quoted.Fault cs error shown ∧
      readString cs = (.malformed error shown, (Quoted.closing? cs).getD cs.length) := by
  cases hbad : Quoted.badEscape? cs with
  | some pair =>
    obtain ⟨n, d⟩ := pair
    obtain ⟨inside, rest, hinside, hd, rfl, rfl, -⟩ := Quoted.badEscape?_eq_some hbad
    obtain ⟨hends, hmeaning⟩ := Quoted.inside_iff_ends.1 hinside
    have hshown : (inside ++ '\\' :: d :: rest).take (inside.length + 1) = inside ++ ['\\'] :=
      List.take_length_add_append 1
    refine ⟨.unexpectedEscape d, _, .escape hends (hmeaning rfl) hd ⟨rest, by simp⟩, ?_⟩
    rw [readString_bad hbad, ← hshown]
  | none =>
    have hclose : Quoted.closing? cs = none := h.resolve_left (not_not_intro hbad)
    refine ⟨.unterminatedString, _, .unterminated (Quoted.open_iff.2 hclose)
      (Quoted.meaningful_of_open hclose hbad), ?_⟩
    rw [readString_open hbad hclose, hclose, Option.getD_none]

/-- A pair without a meaning in front of the quote that ends a literal is found. -/
theorem badEscape?_ne_none (h : Quoted.Ends body) (hm : ¬Quoted.Meaningful body)
    (rest : List Char) : Quoted.badEscape? (body ++ '"' :: rest) ≠ none := by
  intro hbad
  obtain ⟨inside, hinside, htake⟩ :=
    Quoted.closed_of_closing? (fun _ : true = true => hbad) (h.closing?_eq rest)
  rw [List.take_length_add_append] at htake
  obtain rfl : body = inside := (List.append_inj' htake rfl).1
  exact hm ((Quoted.inside_iff_ends.1 hinside).2 rfl)

end Segment

/-- **A bad literal does not derail the scan.** Where the scan comes to an opening quote, it takes
in one turn all up to the first quote that no backslash without a partner precedes, or all that is
left if there is none. If there is one and each pair has a meaning, that is one string token.
Otherwise it is one error at the opening quote, and no token. -/
theorem literals_end {source : String} {front : List Segment} {cs : List Char}
    (h : Segment.Comes source front ('"' :: cs)) :
    (∀ body rest, cs = body ++ '"' :: rest → Quoted.Ends body →
      (Quoted.Meaningful body →
        Segment.Turn source front ('"' :: (body ++ ['"']))
          [⟨.string, String.ofList ('"' :: (body ++ ['"'])),
            Position.behind (front.flatMap (·.text)), false⟩] [] rest) ∧
      (¬Quoted.Meaningful body → ∃ error shown, Quoted.Fault cs error shown ∧
        Segment.Turn source front ('"' :: (body ++ ['"'])) []
          [Segment.mistake (Position.behind (front.flatMap (·.text))) error shown] rest)) ∧
    (Quoted.Open cs → ∃ error shown, Quoted.Fault cs error shown ∧
      Segment.Turn source front ('"' :: cs) []
        [Segment.mistake (Position.behind (front.flatMap (·.text))) error shown] []) := by
  have hread : ∀ eol, Segment.read eol '"' cs = Segment.readString cs := fun eol =>
    Segment.read_quote eol cs
  constructor
  · rintro body rest rfl hbody
    have htake : '"' :: (body ++ '"' :: rest).take (body.length + 1) = '"' :: (body ++ ['"']) :=
      congrArg ('"' :: ·) (List.take_length_add_append 1)
    have hdrop : (body ++ '"' :: rest).drop (body.length + 1) = rest :=
      List.drop_length_add_append 1
    constructor
    · intro hmeaning
      rw [Segment.readString_good hbody hmeaning] at hread
      have hturn := h.turn hread nofun rfl rfl
      rw [htake, hdrop] at hturn
      exact hturn
    · intro hbad
      obtain ⟨error, shown, hfault, hbad⟩ :=
        Segment.readString_fault (.inl (Segment.badEscape?_ne_none hbody hbad rest))
      rw [hbad, hbody.closing?_eq] at hread
      have hturn := h.turn hread nofun rfl rfl
      rw [Option.getD_some, htake, hdrop] at hturn
      exact ⟨error, shown, hfault, hturn⟩
  · intro hopen
    have hclose := Quoted.open_iff.1 hopen
    obtain ⟨error, shown, hfault, hbad⟩ := Segment.readString_fault (.inr hclose)
    rw [hbad, hclose] at hread
    have hturn := h.turn hread nofun rfl rfl
    rw [Option.getD_none, List.take_length, List.drop_length] at hturn
    exact ⟨error, shown, hfault, hturn⟩

/-- A good literal and a bad one that both hold a quote with a backslash in front, and a literal
that ends with a backslash. -/
theorem literals_end_quotes :
    let good := ['a', '\\', '"', 'b']
    let bad := ['c', '\\', 'q', '\\', '"', 'd']
    let last := ['e', '\\']
    let source := "\"a\\\"b\"\"c\\q\\\"d\"\"e\\"
    let front := Segment.ofSource source
    (Segment.Comes source [] ('"' :: (good ++ '"' :: '"' :: (bad ++ '"' :: '"' :: last))) ∧
        Quoted.Ends good ∧ Quoted.Meaningful good ∧
        Segment.Turn source [] ('"' :: (good ++ ['"'])) [⟨.string, "\"a\\\"b\"", ⟨1, 1⟩, false⟩] []
          ('"' :: (bad ++ '"' :: '"' :: last))) ∧
      (Segment.Comes source (front.take 1) ('"' :: (bad ++ '"' :: '"' :: last)) ∧
        Quoted.Ends bad ∧ ¬Quoted.Meaningful bad ∧
        ∃ error shown, Segment.Turn source (front.take 1) ('"' :: (bad ++ ['"'])) []
          [Segment.mistake ⟨1, 7⟩ error shown] ('"' :: last)) ∧
      Segment.Comes source (front.take 2) ('"' :: last) ∧ Quoted.Open last ∧
        ∃ error shown, Segment.Turn source (front.take 2) ('"' :: last) []
          [Segment.mistake ⟨1, 15⟩ error shown] [] := by
  intro good bad last source front
  have hfirst : Segment.Comes source []
      ('"' :: (good ++ '"' :: '"' :: (bad ++ '"' :: '"' :: last))) :=
    ⟨front, rfl, by decide +kernel⟩
  have hsecond : Segment.Comes source (front.take 1) ('"' :: (bad ++ '"' :: '"' :: last)) :=
    ⟨front.drop 1, (List.take_append_drop _ _).symm, by decide +kernel⟩
  have hthird : Segment.Comes source (front.take 2) ('"' :: last) :=
    ⟨front.drop 2, (List.take_append_drop _ _).symm, by decide +kernel⟩
  have hsecondPlace : Position.behind ((front.take 1).flatMap (·.text)) = ⟨1, 7⟩ := by
    decide +kernel
  have hthirdPlace : Position.behind ((front.take 2).flatMap (·.text)) = ⟨1, 15⟩ := by
    decide +kernel
  have hgood : Quoted.Inside true good :=
    .plain (by decide) (by decide) (.pair (fun _ => by decide) (.plain (by decide) (by decide) .nil))
  have hbad : Quoted.Inside false bad :=
    .plain (by decide) (by decide)
      (.pair nofun (.pair nofun (.plain (by decide) (by decide) .nil)))
  obtain ⟨hends, hmeaning⟩ := Quoted.inside_iff_ends.1 hgood
  obtain ⟨hends', -⟩ := Quoted.inside_iff_ends.1 hbad
  have hmeaningless : ¬Quoted.Meaningful bad := fun h =>
    absurd (h ['c'] _ rfl (by unfold Quoted.Dangling; decide) 'q' _ rfl) (by decide)
  have hopen : Quoted.Open last := Quoted.open_iff.2 (by decide)
  have hturn := ((literals_end hfirst).1 good _ rfl hends).1 (hmeaning rfl)
  obtain ⟨error, shown, -, hturn'⟩ := ((literals_end hsecond).1 bad _ rfl hends').2 hmeaningless
  obtain ⟨error', shown', -, hturn''⟩ := (literals_end hthird).2 hopen
  rw [hsecondPlace] at hturn'
  rw [hthirdPlace] at hturn''
  exact ⟨⟨hfirst, hends, hmeaning rfl, hturn⟩, ⟨hsecond, hends', hmeaningless, error, shown, hturn'⟩,
    hthird, hopen, error', shown', hturn''⟩

end LazyDecl
