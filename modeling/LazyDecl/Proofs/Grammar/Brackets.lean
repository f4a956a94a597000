import LazyDecl.Prompt
import LazyDecl.Proofs.Grammar.Chunks

/-!
The brackets of a text that is read without an error come in pairs. What a derivation
passes is `Nested`, since the bracket that opens a node and the one that closes it belong
to the same derivation. The prompt only counts brackets; so it never waits for more lines
behind such a text (`program_nested`).
-/

namespace LazyDecl

/-- The kind that closes a bracket of this kind. -/
def TokenKind.closing? : TokenKind → Option TokenKind
  | leftParen => some rightParen
  | leftBracket => some rightBracket
  | leftBrace => some rightBrace
  | _ => none

theorem TokenKind.depth_of_closing? {o c : TokenKind} (h : o.closing? = some c) :
    o.depth = 1 ∧ c.depth = -1 := by
  cases o <;> cases h <;> exact ⟨rfl, rfl⟩

/-- What is no bracket leaves the depth as it is. -/
theorem TokenKind.depth_eq_zero_iff {kind : TokenKind} : kind.depth = 0 ↔
    kind ∉ [leftParen, rightParen, leftBrace, rightBrace, leftBracket, rightBracket] := by
  cases kind <;> simp [depth]

/-- Every bracket has its partner, a closing one of its kind behind an opening one, and
what stands between partners is nested as well. -/
inductive Nested : List Token → Prop
  | nil : Nested []
  | cons {t ts} : t.kind ∉ [.leftParen, .rightParen, .leftBrace, .rightBrace, .leftBracket,
      .rightBracket] → Nested ts → Nested (t :: ts)
  | pair {o ts c us} : o.kind.closing? = some c.kind → Nested ts → Nested us →
      Nested (o :: (ts ++ c :: us))

/-! ## Counting -/

theorem foldl_depth (ts : List Token) (n : Int) :
    ts.foldl (fun depth t => depth + t.kind.depth) n = n + bracketDepth ts := by
  unfold bracketDepth
  induction ts generalizing n with
  | nil => simp
  | cons t ts ih =>
    rw [List.foldl_cons, List.foldl_cons, ih, ih (0 + _)]
    omega

@[simp] theorem bracketDepth_cons (t : Token) (ts : List Token) :
    bracketDepth (t :: ts) = t.kind.depth + bracketDepth ts := by
  rw [bracketDepth, List.foldl_cons, foldl_depth, Int.zero_add]

@[simp] theorem bracketDepth_append (ts us : List Token) :
    bracketDepth (ts ++ us) = bracketDepth ts + bracketDepth us := by
  rw [bracketDepth, List.foldl_append, foldl_depth us]
  rfl

namespace Nested

variable {ts us : List Token}

theorem of_flat (h : ∀ t ∈ ts, t.kind.depth = 0) : Nested ts := by
  induction ts with
  | nil => exact .nil
  | cons t ts ih =>
    obtain ⟨ht, hts⟩ := List.forall_mem_cons.1 h
    exact .cons (TokenKind.depth_eq_zero_iff.1 ht) (ih hts)

theorem append (h : Nested ts) (h' : Nested us) : Nested (ts ++ us) := by
  induction h with
  | nil => exact h'
  | cons ht _ ih => exact .cons ht ih
  | pair hc hin _ _ ih =>
    rw [List.cons_append, List.append_assoc, List.cons_append]
    exact .pair hc hin ih

theorem bracketDepth_eq_zero (h : Nested ts) : bracketDepth ts = 0 := by
  induction h with
  | nil => rfl
  | cons ht _ ih => rw [bracketDepth_cons, TokenKind.depth_eq_zero_iff.2 ht, ih, Int.zero_add]
  | pair hc _ _ hin hout =>
    obtain ⟨ho, hclose⟩ := TokenKind.depth_of_closing? hc
    simp only [bracketDepth_cons, bracketDepth_append, ho, hclose, hin, hout]
    decide

/-- A prefix ends behind one part of a run or inside of it. -/
theorem prefix_append {front : List Token} (h : front <+: ts ++ us) :
    front <+: ts ∨ ∃ rest, rest <+: us ∧ front = ts ++ rest := by
  rcases List.prefix_or_prefix_of_prefix h (List.prefix_append ts us) with h' | ⟨rest, rfl⟩
  · exact .inl h'
  · exact .inr ⟨rest, (List.prefix_append_right_inj ts).1 h, rfl⟩

/-- A bracket is never closed before it is opened. -/
theorem bracketDepth_nonneg (h : Nested ts) :
    ∀ front, front <+: ts → 0 ≤ bracketDepth front := by
  induction h with
  | nil =>
    intro front hfront
    rw [List.prefix_nil.1 hfront]
    exact Int.le_refl 0
  | cons ht _ ih =>
    intro front hfront
    rcases List.prefix_cons_iff.1 hfront with rfl | ⟨rest, rfl, hrest⟩
    · exact Int.le_refl 0
    · rw [bracketDepth_cons, TokenKind.depth_eq_zero_iff.2 ht, Int.zero_add]
      exact ih rest hrest
  | @pair o ts c us hc hin _ ihin ihout =>
    intro front hfront
    obtain ⟨ho, hclose⟩ := TokenKind.depth_of_closing? hc
    rcases List.prefix_cons_iff.1 hfront with rfl | ⟨rest, rfl, hrest⟩
    · exact Int.le_refl 0
    rw [bracketDepth_cons, ho]
    rcases prefix_append hrest with hrest | ⟨rest', hrest', rfl⟩
    · have := ihin rest hrest
      omega
    rw [bracketDepth_append, hin.bracketDepth_eq_zero]
    rcases List.prefix_cons_iff.1 hrest' with rfl | ⟨last, rfl, hlast⟩
    · decide
    · rw [bracketDepth_cons, hclose]
      have := ihout last hlast
      omega

end Nested

/-! ## Steps -/

theorem Plain.depth_of_hidden {ts : List Token} (h : Plain ts) {t : Token} (ht : t ∈ ts)
    (hidden : t.hidden = true) : t.kind.depth = 0 := by
  rw [((h t ht).2).1 hidden]
  rfl

namespace Grammar

theorem depth_of_isSeparator {kind : TokenKind} (h : isSeparator kind = true) :
    kind.depth = 0 := by
  cases kind <;> first | rfl | cases h

theorem depth_of_literal? {t : Token} {read : Except SyntaxCause Literal}
    (h : literal? t = some read) : t.kind.depth = 0 := by
  rcases literal?_kind h with ⟨b, hk⟩ | hk | hk | hk <;> rw [hk] <;> rfl

theorem depth_of_prefixOp? {kind : TokenKind} {op : UnaryOp} (h : prefixOp? kind = some op) :
    kind.depth = 0 := by
  cases kind <;> first | rfl | cases h

theorem depth_of_infixNode? {l : Level} {kind : TokenKind} {node : Token → Expr → Expr → Expr}
    (h : infixNode? l kind = some node) : kind.depth = 0 := by
  cases l <;> cases kind <;> first | rfl | cases h

/-- The brackets between `i` and `j` come in pairs. -/
structure Balances (i j : Input) : Prop where
  between : ∃ ts, i.rest = ts ++ j.rest ∧ Nested ts
  plain : Plain j.rest

namespace Balances

variable {i j k m : Input} {t o c : Token}

theorem refl (hi : Plain i.rest) : Balances i i := ⟨⟨[], rfl, .nil⟩, hi⟩

theorem trans (h : Balances i j) (h' : Balances j k) : Balances i k := by
  obtain ⟨ts, hi, hts⟩ := h.between
  obtain ⟨us, hj, hus⟩ := h'.between
  exact ⟨⟨ts ++ us, by rw [hi, hj, List.append_assoc], hts.append hus⟩, h'.plain⟩

/-- What is dropped in front holds no bracket. -/
theorem dropWhile {p : Token → Bool} (hi : Plain i.rest)
    (hp : ∀ t ∈ i.rest, p t = true → t.kind.depth = 0) (hj : j.rest = i.rest.dropWhile p) :
    Balances i j := by
  refine ⟨⟨i.rest.takeWhile p, by rw [hj, List.takeWhile_append_dropWhile], .of_flat ?_⟩, ?_⟩
  · intro t ht
    exact hp t ((List.takeWhile_prefix p).mem ht) (List.mem_takeWhile_imp ht)
  · exact hj ▸ hi.suffix (List.dropWhile_suffix p)

theorem ahead (v : View) (hi : Plain i.rest) (hj : j.rest = v.ahead i.rest) : Balances i j := by
  cases v with
  | visible => exact dropWhile hi (fun t ht hidden => hi.depth_of_hidden ht hidden) hj
  | hidden => exact ⟨⟨[], hj.symm, .nil⟩, hj ▸ hi⟩

/-- A step passes one token, and no bracket in front of it or behind it. -/
theorem around {v : View} (hi : Plain i.rest) (ht : i.Takes v t j) :
    ∃ front back : Input, Balances i front ∧ front.rest = t :: back.rest ∧ Balances back j := by
  obtain ⟨-, ts, hts, rfl⟩ := Input.takes_iff.1 ht
  have hfront : Plain (t :: ts) := hi.suffix (hts ▸ v.ahead_suffix i.rest)
  exact ⟨{ i with rest := t :: ts }, { i with rest := ts }, ahead v hi hts.symm, rfl,
    ahead v (hfront.suffix (List.suffix_cons t ts)) rfl⟩

theorem takes {v : View} (hi : Plain i.rest) (ht : i.Takes v t j) (hk : t.kind.depth = 0) :
    Balances i j := by
  obtain ⟨front, back, hfront, hrest, hback⟩ := around hi ht
  have ht : Balances front back :=
    ⟨⟨[t], hrest, .of_flat (List.forall_mem_singleton.2 hk)⟩,
      hfront.plain.suffix (hrest ▸ List.suffix_cons t back.rest)⟩
  exact hfront.trans (ht.trans hback)

/-- A pair of brackets around what is balanced. -/
theorem pair (hi : Plain i.rest) (ho : i.Takes .visible o j) (h : Balances j k)
    (hc : k.Takes .visible c m) (hk : o.kind.closing? = some c.kind) : Balances i m := by
  obtain ⟨front, back, hfront, hopen, hback⟩ := around hi ho
  obtain ⟨front', back', hfront', hclose, hback'⟩ := around h.plain hc
  obtain ⟨ts, hbetween, hts⟩ := (hback.trans (h.trans hfront')).between
  have hpair : Balances front back' := by
    refine ⟨⟨o :: (ts ++ [c]), ?_, .pair hk hts .nil⟩,
      hfront'.plain.suffix (hclose ▸ List.suffix_cons c back'.rest)⟩
    rw [hopen, hbetween, hclose]
    simp
  exact hfront.trans (hpair.trans hback')

theorem separated (hi : Plain i.rest) : Balances i (separated i).2 := by
  unfold Grammar.separated
  split
  · exact dropWhile hi (fun _ _ h => depth_of_isSeparator h) rfl
  · exact refl hi

theorem endUnit {inBuilder : Bool} (hi : Plain i.rest) (h : endUnit inBuilder i = some j) :
    Balances i j := by
  rcases endUnit_eq_some h with rfl | ⟨t, hk, ht⟩
  · exact refl hi
  · exact takes hi ht (by rcases hk with hk | hk <;> rw [hk] <;> rfl)

theorem unitStart (mode : Mode) (hi : Plain i.rest) : Balances i (unitStart mode i) := by
  cases mode with
  | batch => exact ⟨⟨[], rfl, .nil⟩, hi⟩
  | interactive =>
    refine dropWhile hi (fun t ht h => hi.depth_of_hidden ht ?_) rfl
    exact (Bool.and_eq_true _ _ ▸ h).1

end Balances

/-! ## Derivations -/

mutual

/-- Each bracket that a derivation takes is closed in it. -/
theorem Reads.balances {ls : List Level} {i j : Input} {e : Expr} (h : Reads ls i e j)
    (hi : Plain i.rest) : Balances i j := by
  match h with
  | .level hc _ => exact hc.balances hi
  | .prefixed hop ht he =>
    have ht := Balances.takes hi ht (depth_of_prefixOp? hop)
    exact ht.trans (he.balances ht.plain)
  | .bound hl hk ht hr =>
    have hl := hl.balances hi
    have ht := Balances.takes hl.plain ht (by rw [hk]; rfl)
    exact hl.trans (ht.trans (hr.balances ht.plain))
  | .primary hp _ => exact hp.balances hi

theorem Chain.balances {l : Level} {ls : List Level} {i j : Input} {e : Expr}
    (h : Chain l ls i e j) (hi : Plain i.rest) : Balances i j := by
  match h with
  | .first he => exact he.balances hi
  | .more hc hnode ht he _ =>
    have hc := hc.balances hi
    have ht := Balances.takes hc.plain ht (depth_of_infixNode? hnode)
    exact hc.trans (ht.trans (he.balances ht.plain))

theorem Primary.balances {i j : Input} {e : Expr} (h : Primary i e j) (hi : Plain i.rest) :
    Balances i j := by
  match h with
  | .literal hl ht => exact .takes hi ht (depth_of_literal? hl)
  | .name hk ht _ => exact .takes hi ht (by rw [hk]; rfl)
  | .builder hk ht hbrace hb =>
    have ht := Balances.takes hi ht (by rw [hk]; rfl)
    obtain ⟨o, ho, hopen⟩ := ht.plain.takes_leftBrace hbrace
    obtain ⟨m, c, hbody, hc, hclose⟩ := hb.balances (ht.plain.suffix hopen.rest_suffix)
    exact ht.trans (.pair ht.plain hopen hbody hclose (by rw [ho, hc]; rfl))
  | .grouping hk ht he hu hclose =>
    exact .pair hi ht (he.balances (hi.suffix ht.rest_suffix)) hclose (by rw [hk, hu]; rfl)
  | .empty hk ht hu hclose =>
    exact .pair hi ht (.refl (hi.suffix ht.rest_suffix)) hclose (by rw [hk, hu]; rfl)
  | .sequence hk ht _ he hs =>
    have he := he.balances (hi.suffix ht.rest_suffix)
    obtain ⟨m, c, helements, hc, hclose⟩ := hs.balances he.plain
    exact .pair hi ht (he.trans helements) hclose (by rw [hk, hc]; rfl)

/-- The elements are balanced up to the bracket that closes their sequence. -/
theorem Elements.balances {first : Expr} {i j : Input} {es : List Expr}
    (h : Elements first i es j) (hi : Plain i.rest) :
    ∃ k c, Balances i k ∧ c.kind = .rightBracket ∧ k.Takes .visible c j := by
  have hsep := Balances.separated hi
  match h with
  | .close hu hclose => exact ⟨_, _, hsep, hu, hclose⟩
  | .cons _ _ he _ hs =>
    have he := he.balances hsep.plain
    obtain ⟨k, c, helements, hc, hclose⟩ := hs.balances he.plain
    exact ⟨k, c, hsep.trans (he.trans helements), hc, hclose⟩

/-- The statements are balanced up to the brace that closes their builder. -/
theorem Body.balances {i j : Input} {ss : List Statement} (h : Body i ss j)
    (hi : Plain i.rest) :
    ∃ k c, Balances i k ∧ c.kind = .rightBrace ∧ k.Takes .visible c j := by
  match h with
  | .close hu hclose => exact ⟨_, _, .refl hi, hu, hclose⟩
  | .cons hk ht he hend hs =>
    have ht := Balances.takes hi ht (by rw [hk]; rfl)
    have he := he.balances ht.plain
    have hend := Balances.endUnit he.plain hend
    obtain ⟨k, c, hbody, hc, hclose⟩ := hs.balances hend.plain
    exact ⟨k, c, ht.trans (he.trans (hend.trans hbody)), hc, hclose⟩

end

/-! ## Programs -/

theorem statement_balances {i j : Input} {s : Statement} (hi : Plain i.rest)
    (h : statement i = .ok s j) : Balances i j := by
  obtain ⟨k, m, hk, ht, he, hend⟩ := statement_eq_ok_iff.1 h
  have ht := Balances.takes hi ht (by rw [hk]; rfl)
  have he := he.balances ht.plain
  exact ht.trans (he.trans (.endUnit he.plain hend))

theorem item_balances {i j : Input} {it : Item} (hi : Plain i.rest) (h : item i = .ok it j) :
    Balances i j := by
  rcases item_eq_ok_iff.1 h with ⟨-, s, -, hs⟩ | ⟨-, e, m, -, he, hend⟩
  · exact statement_balances hi hs
  · have he := he.balances hi
    exact he.trans (.endUnit he.plain hend)

/-- The tokens of units without an error are nested. -/
theorem UnitsRead.nested {α : Type} {unit : Parser α} {mode : Mode} {i : Input} {as : List α}
    (hunit : ∀ i a j, Plain i.rest → unit i = .ok a j → Balances i j)
    (hi : Plain i.rest) (h : UnitsRead mode unit i as) : Nested i.rest := by
  induction h with
  | @done i hend =>
    have hhidden : ∀ t ∈ i.rest, t.hidden = true :=
      List.dropWhile_eq_nil_iff.1 (Input.clear_eq_nil hi hend)
    exact .of_flat fun t ht => hi.depth_of_hidden ht (hhidden t ht)
  | cons _ hu _ ih =>
    have hstart := Balances.unitStart mode hi
    have hj := hstart.trans (hunit _ _ _ hstart.plain hu)
    obtain ⟨ts, hrest, hts⟩ := hj.between
    exact hrest ▸ hts.append (ih hj.plain)

end Grammar

open Grammar in
theorem nested_tokens (mode : Mode) (source : String)
    (h : (program mode (tokens source)).2 = []) : Nested (tokens source) := by
  have hi := ofTokens_tokens source
  have hplain : Plain (Input.ofTokens (tokens source)).rest := hi ▸ plain_textTokens source
  have hrest : (Input.ofTokens (tokens source)).rest = textTokens source := by rw [hi]
  have htext : Nested (textTokens source) := by
    rw [← hrest]
    cases mode with
    | batch =>
      have hread := unitsRead_of_rejected (fun _ _ _ => size_lt_of_statement) h
      exact hread.nested (fun _ _ _ => statement_balances) hplain
    | interactive =>
      have hread := unitsRead_of_rejected (fun _ _ _ => size_lt_of_item) h
      exact hread.nested (fun _ _ _ => item_balances) hplain
  rw [tokens_eq]
  exact htext.append (.cons (TokenKind.depth_eq_zero_iff.1 rfl) .nil)

/-- Lines with nested brackets are run at once, together with all that is pending. -/
theorem Prompt.push_nested (p : Prompt) (line : String)
    (h : Nested (tokens ("\n".intercalate (p.pending ++ [line])))) :
    p.push line =
      (some (p.session.run .interactive ("\n".intercalate (p.pending ++ [line]))).1,
        { session := (p.session.run .interactive ("\n".intercalate (p.pending ++ [line]))).2
          pending := [] }) := by
  unfold push joinLines
  dsimp only
  rw [h.bracketDepth_eq_zero, if_neg (Int.lt_irrefl 0)]

open Grammar in
/-- **A text without syntax errors has nested brackets.** So as many are closed as are
opened, none is closed before it is opened, and the prompt runs the text as soon as its last
line is there. -/
theorem program_nested (mode : Mode) (source : String)
    (h : (program mode (tokens source)).2 = []) :
    Nested (tokens source) ∧ bracketDepth (tokens source) = 0 ∧
      (∀ front, front <+: tokens source → 0 ≤ bracketDepth front) ∧
      ∀ (p : Prompt) (line : String), "\n".intercalate (p.pending ++ [line]) = source →
        p.push line = (some (p.session.run .interactive source).1,
          { session := (p.session.run .interactive source).2, pending := [] }) := by
  have hn := nested_tokens mode source h
  refine ⟨hn, hn.bracketDepth_eq_zero, hn.bracketDepth_nonneg, ?_⟩
  rintro p line rfl
  exact p.push_nested line hn

open Grammar in
theorem program_nested_lines :
    (program .batch (tokens "x T \x7b\n  a [(1), [2]]\n  b U \x7b c 3 \x7d\x7d")).2 = [] ∧
      Nested (tokens "x T \x7b\n  a [(1), [2]]\n  b U \x7b c 3 \x7d\x7d") ∧
      (Prompt.push { pending := ["x T \x7b", "  a [(1), [2]]"] } "  b U \x7b c 3 \x7d\x7d").2.pending
        = [] := by
  have h : (program .batch (tokens "x T \x7b\n  a [(1), [2]]\n  b U \x7b c 3 \x7d\x7d")).2 = [] := by
    decide +kernel
  obtain ⟨hn, -, -, hpush⟩ := program_nested .batch _ h
  refine ⟨h, hn, ?_⟩
  rw [hpush _ _ (by decide +kernel)]

end LazyDecl
