import Mathlib.Data.Nat.Digits.Defs
import LazyDecl.Proofs.Grammar.Compositional
import LazyDecl.Proofs.Grammar.Precedence
import LazyDecl.Proofs.Grammar.Sources
import LazyDecl.Proofs.StringLiterals
import LazyDecl.Proofs.Text.Numeral
import LazyDecl.Proofs.Text.Segmentation

/-!
Number literals. The lexeme of a number token spells a number (`Numeral.Spells`), and the grammar
reads it as that number (`Numeral.Spells.literal?_eq`). So no failure is about a number that does
not read, and each number in a tree is the one that its token spells (`number_literals`).
-/

namespace LazyDecl

def TokenKind.isNumber : TokenKind → Bool
  | integer | decimal => true
  | _ => false

def Literal.isNumber : Literal → Bool
  | integer _ | decimal _ => true
  | _ => false

/-! ## Numbers and their lexemes -/

namespace Numeral

/-- The number that digits stand for in base ten. -/
def baseTen (cs : List Char) : Nat := Nat.ofDigits 10 (cs.reverse.map digitValue)

theorem value_eq_baseTen {cs : List Char} (h : Digits cs) : value cs = baseTen cs := by
  induction cs using List.reverseRecOn with
  | nil => rfl
  | append_singleton cs c ih =>
    have hcs : Digits cs := fun d hd => h d (List.mem_append_left _ hd)
    have hc : c ≠ '_' := ne_of_mem_of_not_mem (List.mem_append_right cs (List.mem_singleton_self c))
      (h.not_mem (by decide))
    calc value (cs ++ [c]) = 10 * value cs + digitValue c := by
          simp only [value, List.foldl_append, List.foldl_cons, List.foldl_nil, if_neg hc]
      _ = baseTen (cs ++ [c]) := by
          rw [ih hcs, baseTen, baseTen, List.reverse_concat, List.map_cons, Nat.ofDigits_cons,
            Nat.add_comm]

/-- The number that a lexeme spells: digits are an integer, and digits on both sides of a point
are a decimal that has all of them as its digits, with a scale that counts those behind the
point. -/
inductive Spells : TokenKind → List Char → Literal → Prop
  | integer {cs : List Char} : Digits cs → cs ≠ [] → Spells .integer cs (.integer (baseTen cs))
  | decimal {whole fraction : List Char} : Decimal.Pointed whole fraction →
      Spells .decimal (whole ++ '.' :: fraction)
        (.decimal ⟨baseTen (whole ++ fraction), fraction.length⟩)

theorem Spells.scale_pos {kind : TokenKind} {cs : List Char} {d : Decimal}
    (h : Spells kind cs (.decimal d)) : 1 ≤ d.scale := by
  cases h with
  | decimal hpointed => exact Int.natCast_pos.2 (List.length_pos_iff.2 hpointed.fraction_ne)

/-- A decimal that does not read, since it has more places than a scale counts. -/
structure TooLong (t : Token) : Prop where
  kind : t.kind = .decimal
  length : 2 ^ 63 ≤ t.lexeme.length
  read : Grammar.literal? t = some (.error .invalidDecimal)

/-- **A number is read as the one that it spells,** unless it is too long. -/
theorem Spells.literal?_eq {t : Token} {value : Literal}
    (h : Spells t.kind t.lexeme.toList value) :
    Grammar.literal? t = some (.ok value) ∨ TooLong t := by
  obtain ⟨kind, lexeme, start, hidden⟩ := t
  dsimp only at h ⊢
  generalize hcs : lexeme.toList = cs at h
  cases h with
  | integer hdigits hne =>
    left
    simp only [Grammar.literal?, hcs, integer?_digits hdigits hne, value_eq_baseTen hdigits]
  | @decimal whole fraction hpointed =>
    obtain rfl : String.ofList (whole ++ '.' :: fraction) = lexeme := by
      rw [← hcs, String.ofList_toList]
    have hdigits := hpointed.whole_digits.append hpointed.fraction_digits
    by_cases hrange : Decimal.scaleInRange fraction.length = true
    · left
      simp only [Grammar.literal?, Decimal.ofText?_pointed hpointed hrange,
        value_eq_baseTen hdigits]
    · right
      refine ⟨rfl, ?_, ?_⟩
      · simp only [Decimal.scaleInRange, Bool.and_eq_true, decide_eq_true_eq] at hrange
        simp only [String.length_ofList, List.length_append, List.length_cons]
        omega
      · simp only [Grammar.literal?, Decimal.ofText?_pointed_eq hpointed, if_neg hrange]

theorem Spells.eq_of_read {t : Token} {value value' : Literal}
    (h : Spells t.kind t.lexeme.toList value)
    (hread : Grammar.literal? t = some (.ok value')) : value = value' := by
  rcases h.literal?_eq with hok | hlong
  · simpa using hok.symm.trans hread
  · have hbad := hlong.read.symm.trans hread
    simp at hbad

end Numeral

/-! ## Number tokens -/

namespace Segment

open Numeral

theorem spelling?_isNumber {kind : TokenKind} {cs : List Char}
    (h : kind.spelling? = some cs) : kind.isNumber = false := by
  unfold TokenKind.spelling? at h
  split at h <;> first | rfl | cases h

theorem digits_of_isDigit {cs : List Char} (h : ∀ c ∈ cs, IsDigit c) : Digits cs :=
  fun c hc => isDigit_iff.2 (h c hc)

theorem IsLexeme.spells {kind : TokenKind} {cs : List Char} (h : IsLexeme kind cs)
    (hk : kind.isNumber = true) : ∃ value, Spells kind cs value := by
  cases h with
  | spelled hs => exact absurd ((spelling?_isNumber hs).symm.trans hk) nofun
  | identifier | string => cases hk
  | integer hc hdigits =>
    have hall := digits_of_isDigit (List.forall_mem_cons.2 ⟨hc, hdigits⟩)
    exact ⟨_, .integer hall (List.cons_ne_nil _ _)⟩
  | @decimal c digits places hc hdigits hplaces hne =>
    have hall := digits_of_isDigit (List.forall_mem_cons.2 ⟨hc, hdigits⟩)
    have hpointed : Decimal.Pointed (c :: digits) places :=
      ⟨hall, List.cons_ne_nil _ _, digits_of_isDigit hplaces, hne⟩
    exact ⟨_, .decimal hpointed⟩

end Segment

section Tokens

variable {source : String} {t : Token}

/-- The tokens of a text but the mark at its end are cut out of it. -/
theorem mem_tokensFrom (h : t ∈ tokens source) (hk : t.kind ≠ .eof) :
    t ∈ Segment.tokensFrom false .start source.toList := by
  rw [tokens_eq] at h
  rcases List.mem_append.1 h with h | h
  · exact h
  · rw [List.mem_singleton.1 h] at hk
    exact absurd rfl hk

theorem ne_eof_of_isNumber (hk : t.kind.isNumber = true) : t.kind ≠ .eof := by
  intro heof
  rw [heof] at hk
  cases hk

theorem spells_of_mem_tokens (h : t ∈ tokens source) (hk : t.kind.isNumber = true) :
    ∃ value, Numeral.Spells t.kind t.lexeme.toList value :=
  (Segment.isLexeme_of_mem (mem_tokensFrom h (ne_eof_of_isNumber hk))).spells hk

theorem length_lexeme_le (h : t ∈ tokens source) (hk : t.kind.isNumber = true) :
    t.lexeme.length ≤ source.length := by
  obtain ⟨s, hs, ht⟩ := List.mem_filterMap.1 (mem_tokensFrom h (ne_eof_of_isNumber hk))
  have hlexeme : t.lexeme.toList = s.text := by
    unfold Segment.token? at ht
    split at ht
    · cases ht
      exact String.toList_ofList
    · cases ht
  have hsub := List.sublist_flatten_of_mem (List.mem_map_of_mem (f := Segment.text) hs)
  rw [← List.flatMap_def, Segment.cut_text] at hsub
  have hle := hsub.length_le
  rwa [← hlexeme, String.length_toList, String.length_toList] at hle

end Tokens

/-! ## Literals in trees -/

mutual

/-- The literals of a tree with their tokens, in source order. -/
def Expr.literals : Expr → List (Literal × Token)
  | .literal value token => [(value, token)]
  | .name _ => []
  | .grouping inner => inner.literals
  | .unary _ _ operand => operand.literals
  | .binary _ _ left right => left.literals ++ right.literals
  | .logical _ _ left right => left.literals ++ right.literals
  | .binding left _ right => left.literals ++ right.literals
  | .sequence _ elements => elementLiterals elements
  | .builder _ body => bodyLiterals body

def elementLiterals : List Expr → List (Literal × Token)
  | [] => []
  | e :: es => e.literals ++ elementLiterals es

def bodyLiterals : List Statement → List (Literal × Token)
  | [] => []
  | ⟨_, value⟩ :: ss => value.literals ++ bodyLiterals ss

end

def Item.literals : Item → List (Literal × Token)
  | statement s => s.value.literals
  | expression e => e.literals

def Program.literals (p : Program) : List (Literal × Token) := p.items.flatMap Item.literals

/-- A literal that was read from one of these tokens. -/
structure ReadFrom (ts : List Token) (l : Literal × Token) : Prop where
  mem : l.2 ∈ ts
  read : Grammar.literal? l.2 = some (.ok l.1)

theorem ReadFrom.mono {ts us : List Token} {l : Literal × Token} (h : ReadFrom ts l)
    (hts : ts ⊆ us) : ReadFrom us l :=
  ⟨hts h.mem, h.read⟩

/-- Literals that were read from the tokens of two parts. -/
theorem readFrom_append {ts us vs : List Token} {ls ms : List (Literal × Token)}
    (hl : ∀ l ∈ ls, ReadFrom ts l) (hm : ∀ l ∈ ms, ReadFrom us l) (hts : ts ⊆ vs) (hus : us ⊆ vs) :
    ∀ l ∈ ls ++ ms, ReadFrom vs l :=
  List.forall_mem_append.2 ⟨fun l h => (hl l h).mono hts, fun l h => (hm l h).mono hus⟩

mutual

/-- The literals of a tree were read from its tokens. -/
theorem Expr.Respects.literals_readFrom {e : Expr} (h : e.Respects) :
    ∀ l ∈ e.literals, ReadFrom e.tokens l := by
  match e with
  | .literal value token =>
    exact List.forall_mem_singleton.2 ⟨List.mem_singleton_self token, h.2⟩
  | .name _ => exact List.forall_mem_nil _
  | .grouping inner => exact Expr.Respects.literals_readFrom (e := inner) h
  | .unary _ _ operand =>
    exact fun l hl => (h.2.2.literals_readFrom l hl).mono (List.subset_cons_self _ _)
  | .binary _ _ left right | .logical _ _ left right | .binding left _ right =>
    exact readFrom_append h.2.2.1.literals_readFrom h.2.2.2.literals_readFrom
      (List.subset_append_left _ _)
      (List.Subset.trans (List.subset_cons_self _ _) (List.subset_append_right _ _))
  | .sequence _ elements =>
    exact fun l hl => (elementLiterals_readFrom h.2.2 l hl).mono (List.subset_cons_self _ _)
  | .builder _ body =>
    exact fun l hl => (bodyLiterals_readFrom h.2 l hl).mono (List.subset_cons_self _ _)

theorem elementLiterals_readFrom {es : List Expr} (h : elementsRespect es) :
    ∀ l ∈ elementLiterals es, ReadFrom (elementTokens es) l := by
  match es with
  | [] => exact List.forall_mem_nil _
  | e :: es =>
    exact readFrom_append h.1.literals_readFrom (elementLiterals_readFrom h.2)
      (List.subset_append_left _ _) (List.subset_append_right _ _)

theorem bodyLiterals_readFrom {ss : List Statement} (h : bodyRespects ss) :
    ∀ l ∈ bodyLiterals ss, ReadFrom (bodyTokens ss) l := by
  match ss with
  | [] => exact List.forall_mem_nil _
  | ⟨_, value⟩ :: ss =>
    exact readFrom_append h.2.1.literals_readFrom (bodyLiterals_readFrom h.2.2)
      (List.Subset.trans (List.subset_cons_self _ _) (List.subset_append_left _ _))
      (List.subset_append_right _ _)

end

theorem Item.Respects.literals_readFrom {it : Item} (h : it.Respects) :
    ∀ l ∈ it.literals, ReadFrom it.tokens l := by
  cases it with
  | statement s =>
    obtain ⟨tag, value⟩ := s
    exact fun l hl => (h.2.literals_readFrom l hl).mono (List.subset_cons_self _ _)
  | expression e => exact Expr.Respects.literals_readFrom h

namespace Grammar

open LazyDecl.Parser

/-- The literals of a program were read from the tokens of the text. -/
theorem program_literals (mode : Mode) (source : String) :
    ∀ l ∈ (program mode (tokens source)).1.literals, ReadFrom (tokens source) l := by
  intro l hl
  obtain ⟨it, hit, hl⟩ := List.mem_flatMap.1 hl
  have hread := (program_respects mode _ it hit).literals_readFrom l hl
  exact hread.mono fun t ht =>
    (program_sources_tokens mode source).1 (List.mem_flatMap.2 ⟨it, hit, ht⟩)

/-! ## Failures -/

/-- A failure that is about a number points at a number that does not read. -/
theorem numeralFailures : Compositional fun _ _ r =>
    ∀ e j, r = .error e j → e.cause.isNumber = true →
      literal? e.token = some (.error e.cause) where
  pure _ _ _ _ h := by cases h
  get _ _ _ h := by cases h
  advance v i e j h := by
    rw [advance_apply] at h
    cases h
  fail h i e j he := by
    cases he
    exact h
  bind {α β p k} hp hk i e j h := by
    rw [bind_apply] at h
    cases hr : p i with
    | ok a m =>
      rw [hr] at h
      exact hk a m e j h
    | error e' m =>
      rw [hr] at h
      cases h
      exact hp i e j hr

theorem program_numeralFailures (mode : Mode) (ts : List Token) :
    ∀ e ∈ (program mode ts).2, e.cause.isNumber = true →
      literal? e.token = some (.error e.cause) := by
  intro e he
  cases mode with
  | batch =>
    obtain ⟨j, k, h⟩ := rejected_units he
    exact numeralFailures.statement j e k h
  | interactive =>
    obtain ⟨j, k, h⟩ := rejected_units he
    exact numeralFailures.item j e k h

theorem isNumber_of_error {t : Token} {cause : SyntaxCause}
    (h : literal? t = some (.error cause)) : t.kind.isNumber = true := by
  rcases literal?_kind h with ⟨b, hk⟩ | hk | hk | hk
  · simp [literal?, hk] at h
  · simp [literal?, hk] at h
  · rw [hk]; rfl
  · rw [hk]; rfl

theorem isNumber_of_ok {t : Token} {value : Literal} (h : literal? t = some (.ok value))
    (hv : value.isNumber = true) : t.kind.isNumber = true := by
  rcases literal?_kind h with ⟨b, hk⟩ | hk | hk | hk
  · simp only [literal?, hk, Option.some.injEq, Except.ok.injEq] at h
    subst h
    cases hv
  · simp only [literal?, hk, Option.some.injEq, Except.ok.injEq] at h
    subst h
    cases hv
  · rw [hk]; rfl
  · rw [hk]; rfl

/-- The only cause of a failure that is about a number is a decimal with too many places. -/
theorem program_failure (mode : Mode) (source : String) {e : SyntaxError}
    (he : e ∈ (program mode (tokens source)).2) (hcause : e.cause.isNumber = true) :
    e.cause = .invalidDecimal ∧ 2 ^ 63 ≤ source.length := by
  have hread := program_numeralFailures mode _ e he hcause
  have hmem := (program_sources_tokens mode source).2 e he
  have hk := isNumber_of_error hread
  obtain ⟨value, hspells⟩ := spells_of_mem_tokens hmem hk
  rcases hspells.literal?_eq with hok | hlong
  · rw [hread] at hok
    cases hok
  · have hbad := hread.symm.trans hlong.read
    simp only [Option.some.injEq, Except.error.injEq] at hbad
    exact ⟨hbad, hlong.length.trans (length_lexeme_le hmem hk)⟩

end Grammar

/-! ## The numbers of a text -/

theorem SyntaxCause.message_invalid {cause : SyntaxCause} :
    (cause.message = "invalid integer literal" → cause = .invalidInteger) ∧
      (cause.message = "invalid decimal literal" → cause = .invalidDecimal) := by
  cases cause <;> decide

/-- **Number literals.** In either mode no text is reported to have an integer that does not
read, nor, with fewer than `2 ^ 63` characters, a decimal that does not read; every text that
fits in memory is as short as that. Each number token of a text spells a number and is read as
it, integers at any length and decimals again in a text that short. Each literal in a tree was
read from a token of the text, and if it is a number, its token spells just this number. -/
theorem number_literals (mode : Mode) (source : String) :
    (∀ d ∈ (Grammar.diagnostics (Grammar.program mode (tokens source)).2).errors,
      d.message ≠ "invalid integer literal" ∧
        (source.length < 2 ^ 63 → d.message ≠ "invalid decimal literal")) ∧
      (∀ t ∈ tokens source, t.kind.isNumber = true →
        ∃ value, Numeral.Spells t.kind t.lexeme.toList value ∧
          (t.kind = .integer ∨ source.length < 2 ^ 63 →
            Grammar.literal? t = some (.ok value))) ∧
      ∀ l ∈ (Grammar.program mode (tokens source)).1.literals,
        l.2 ∈ tokens source ∧
          (l.1.isNumber = true → Numeral.Spells l.2.kind l.2.lexeme.toList l.1) ∧
          ∀ d, l.1 = .decimal d → 1 ≤ d.scale := by
  refine ⟨fun d hd => ?_, fun t ht hk => ?_, fun l hl => ?_⟩
  · obtain ⟨e, he, rfl⟩ := List.mem_map.1 hd
    have hfailure := Grammar.program_failure mode source he
    refine ⟨fun hmessage => ?_, fun hsize hmessage => ?_⟩
    · have hcause := SyntaxCause.message_invalid.1 hmessage
      rw [hcause] at hfailure
      exact absurd (hfailure rfl).1 nofun
    · have hcause := SyntaxCause.message_invalid.2 hmessage
      rw [hcause] at hfailure
      exact absurd hsize (Nat.not_lt.2 (hfailure rfl).2)
  · obtain ⟨value, hspells⟩ := spells_of_mem_tokens ht hk
    refine ⟨value, hspells, fun hread => ?_⟩
    rcases hspells.literal?_eq with hok | hlong
    · exact hok
    rcases hread with hinteger | hsize
    · rw [hlong.kind] at hinteger
      cases hinteger
    · exact absurd hsize (Nat.not_lt.2 (hlong.length.trans (length_lexeme_le ht hk)))
  · have hread := Grammar.program_literals mode source l hl
    have hspells : l.1.isNumber = true → Numeral.Spells l.2.kind l.2.lexeme.toList l.1 := by
      intro hv
      obtain ⟨value, hspells⟩ :=
        spells_of_mem_tokens hread.mem (Grammar.isNumber_of_ok hread.read hv)
      exact hspells.eq_of_read hread.read ▸ hspells
    refine ⟨hread.mem, hspells, fun d hd => ?_⟩
    rw [hd] at hspells
    exact (hspells rfl).scale_pos

/-- Zeros in front and behind. -/
theorem number_literals_zeros :
    "emit 007 + [1.50]".length < 2 ^ 63 ∧
      (∀ d ∈ (Grammar.diagnostics
          (Grammar.program .batch (tokens "emit 007 + [1.50]")).2).errors,
        d.message ≠ "invalid decimal literal") ∧
      (Grammar.program .batch (tokens "emit 007 + [1.50]")).1.literals.map (·.1) =
        [.integer 7, .decimal ⟨150, 2⟩] := by
  have hsize : "emit 007 + [1.50]".length < 2 ^ 63 := by decide
  exact ⟨hsize, fun d hd => ((number_literals .batch _).1 d hd).2 hsize, by decide +kernel⟩

end LazyDecl
