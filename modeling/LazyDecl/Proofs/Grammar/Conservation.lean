import LazyDecl.Proofs.Grammar.Precedence
import LazyDecl.Proofs.Segment

/-!
Reading keeps all tokens but punctuation. On the tokens of a source text a derivation
stores every other visible token that it passes, in order and once each
(`Reads.stored`). So does a whole program without syntax errors
(`program_tokens_eq`).
-/

namespace LazyDecl

/-- The kinds that only hold units and nodes apart or together. -/
def TokenKind.isPunctuation : TokenKind → Bool
  | leftParen | rightParen | rightBracket | leftBrace | rightBrace | comma | semicolon | eof => true
  | _ => false

/-- Whether a tree has a place for the token. -/
def Token.isStored (t : Token) : Bool := !t.hidden && !t.kind.isPunctuation

namespace Input

/-- The tokens ahead that a tree has a place for. -/
def stored (i : Input) : List Token := i.rest.filter Token.isStored

variable {i j : Input} {t : Token}

theorem filter_dropWhile {p : Token → Bool} {ts : List Token}
    (h : ∀ t ∈ ts, p t = true → t.isStored = false) :
    (ts.dropWhile p).filter Token.isStored = ts.filter Token.isStored := by
  induction ts with
  | nil => rfl
  | cons t ts ih =>
    cases hp : p t with
    | false => rw [List.dropWhile_cons_of_neg (by simp [hp])]
    | true =>
      rw [List.dropWhile_cons_of_pos hp, List.filter_cons_of_neg (by simp [h t (by simp) hp])]
      exact ih fun u hu => h u (List.mem_cons_of_mem t hu)

theorem filter_visible (ts : List Token) :
    (View.visible.ahead ts).filter Token.isStored = ts.filter Token.isStored :=
  filter_dropWhile fun t _ h => by simp [Token.isStored, h]

theorem stored_of_takes (h : i.Takes .visible t j) :
    i.stored = [t].filter Token.isStored ++ j.stored := by
  obtain ⟨-, ts, hts, rfl⟩ := takes_iff.1 h
  unfold stored
  rw [← filter_visible, hts, filter_visible, List.filter_cons]
  cases ht : t.isStored <;> simp [List.filter, ht]

theorem Takes.stored_eq (h : i.Takes .visible t j) (hk : t.kind.isPunctuation = false) :
    i.stored = t :: j.stored := by
  rw [stored_of_takes h, List.filter_cons_of_pos (by simp [Token.isStored, h.not_hidden, hk])]
  rfl

theorem Takes.stored_punctuation (h : i.Takes .visible t j) (hk : t.kind.isPunctuation = true) :
    i.stored = j.stored := by
  rw [stored_of_takes h, List.filter_cons_of_neg (by simp [Token.isStored, hk])]
  rfl

end Input

/-- Separators leave no trace in a tree. -/
theorem Plain.isStored_eq_false {ts : List Token} (h : Plain ts) {t : Token} (ht : t ∈ ts)
    (hk : Grammar.isSeparator t.kind = true) : t.isStored = false := by
  simp only [Grammar.isSeparator, Bool.or_eq_true, decide_eq_true_eq] at hk
  rcases hk with (hk | hk) | hk
  · simp [Token.isStored, ((h t ht).2).2 hk]
  · simp [Token.isStored, hk, TokenKind.isPunctuation]
  · simp [Token.isStored, hk, TokenKind.isPunctuation]

namespace Grammar

theorem literal?_stored {t : Token} {read : Except SyntaxCause Literal}
    (h : literal? t = some read) : t.kind.isPunctuation = false := by
  rcases literal?_kind h with ⟨b, hk⟩ | hk | hk | hk <;> rw [hk] <;> rfl

theorem prefixOp?_stored {kind : TokenKind} {op : UnaryOp} (h : prefixOp? kind = some op) :
    kind.isPunctuation = false := by
  rw [prefixOp?_eq_some.1 h]
  cases op <;> rfl

theorem infixNode?_stored {l : Level} {kind : TokenKind} {node : Token → Expr → Expr → Expr}
    (h : infixNode? l kind = some node) : kind.isPunctuation = false := by
  rcases infixNode?_eq_some.1 h with ⟨op, -, rfl, -⟩ | ⟨op, -, rfl, -⟩ <;> cases op <;> rfl

theorem tokens_join {l : Level} {t : Token} {node : Token → Expr → Expr → Expr}
    (h : infixNode? l t.kind = some node) (left right : Expr) :
    (node t left right).tokens = left.tokens ++ t :: right.tokens := by
  rcases infixNode?_eq_some.1 h with ⟨op, -, -, rfl⟩ | ⟨op, -, -, rfl⟩ <;> rfl

/-- From `i` to `j`, exactly the tokens `ts` are stored. -/
structure Stores (ts : List Token) (i j : Input) : Prop where
  stored_eq : i.stored = ts ++ j.stored
  plain : Plain j.rest

namespace Stores

variable {ts us : List Token} {i j k : Input} {t : Token}

theorem trans (h : Stores ts i j) (h' : Stores us j k) : Stores (ts ++ us) i k :=
  ⟨by rw [h.stored_eq, h'.stored_eq, List.append_assoc], h'.plain⟩

theorem takes (hi : Plain i.rest) (ht : i.Takes .visible t j)
    (hk : t.kind.isPunctuation = false) : Stores [t] i j :=
  ⟨ht.stored_eq hk, hi.suffix ht.rest_suffix⟩

theorem punctuation (hi : Plain i.rest) (ht : i.Takes .visible t j)
    (hk : t.kind.isPunctuation = true) : Stores [] i j :=
  ⟨ht.stored_punctuation hk, hi.suffix ht.rest_suffix⟩

theorem brace (hi : Plain i.rest) (hb : (!i.skipped && i.check .hidden .leftBrace) = true) :
    Stores [] i (i.advance .visible).2 := by
  obtain ⟨t, hk, ht⟩ := hi.takes_leftBrace hb
  exact punctuation hi ht (by rw [hk]; rfl)

theorem separated (hi : Plain i.rest) : Stores [] i (separated i).2 := by
  unfold Grammar.separated
  split
  · exact ⟨(Input.filter_dropWhile fun t ht h => hi.isStored_eq_false ht h).symm,
      hi.suffix (List.dropWhile_suffix _)⟩
  · exact ⟨rfl, hi⟩

theorem endUnit (hi : Plain i.rest) {inBuilder : Bool} (h : endUnit inBuilder i = some j) :
    Stores [] i j := by
  rcases endUnit_eq_some h with rfl | ⟨t, hk, ht⟩
  · exact ⟨rfl, hi⟩
  · have hs : isSeparator t.kind = true := by
      rcases hk with hk | hk <;> simp [isSeparator, hk]
    obtain ⟨-, ts, hr, rfl⟩ := Input.takes_iff.1 ht
    rw [View.ahead_hidden] at hr
    have hmem : t ∈ i.rest := by simp [hr]
    refine ⟨?_, hi.suffix (hr ▸ List.suffix_cons t ts)⟩
    simp [Input.stored, hr, hi.isStored_eq_false hmem hs]

end Stores

mutual

/-- A derivation stores every token that it passes, but for punctuation. -/
theorem Reads.stores {ls : List Level} {i j : Input} {e : Expr} (h : Reads ls i e j)
    (hi : Plain i.rest) : Stores e.tokens i j := by
  match h with
  | .level hc _ => exact hc.stores hi
  | .prefixed hop ht he =>
    have ht := Stores.takes hi ht (prefixOp?_stored hop)
    exact ht.trans (he.stores ht.plain)
  | .bound hl hk ht hr =>
    have hl := hl.stores hi
    have ht := Stores.takes hl.plain ht (by rw [hk]; rfl)
    exact hl.trans (ht.trans (hr.stores ht.plain))
  | .primary hp _ => exact hp.stores hi

theorem Chain.stores {l : Level} {ls : List Level} {i j : Input} {e : Expr}
    (h : Chain l ls i e j) (hi : Plain i.rest) : Stores e.tokens i j := by
  match h with
  | .first he => exact he.stores hi
  | .more hc hnode ht he heq =>
    have hc := hc.stores hi
    have ht := Stores.takes hc.plain ht (infixNode?_stored hnode)
    rw [heq, tokens_join hnode]
    exact hc.trans (ht.trans (he.stores ht.plain))

theorem Primary.stores {i j : Input} {e : Expr} (h : Primary i e j) (hi : Plain i.rest) :
    Stores e.tokens i j := by
  match h with
  | .literal hl ht => exact .takes hi ht (literal?_stored hl)
  | .name hk ht _ => exact .takes hi ht (by rw [hk]; rfl)
  | .builder hk ht hbrace hb =>
    have ht := Stores.takes hi ht (by rw [hk]; rfl)
    have hbrace := Stores.brace ht.plain hbrace
    exact ht.trans (hbrace.trans (hb.stores hbrace.plain))
  | .grouping hk ht he hu hclose =>
    have ht := Stores.punctuation hi ht (by rw [hk]; rfl)
    have he := he.stores ht.plain
    have hclose := Stores.punctuation he.plain hclose (by rw [hu]; rfl)
    simpa [Expr.tokens] using ht.trans (he.trans hclose)
  | .empty hk ht hu hclose =>
    have ht := Stores.takes hi ht (by rw [hk]; rfl)
    exact ht.trans (.punctuation ht.plain hclose (by rw [hu]; rfl))
  | .sequence hk ht _ he hs =>
    have ht := Stores.takes hi ht (by rw [hk]; rfl)
    have he := he.stores ht.plain
    exact ht.trans (he.trans (hs.stores he.plain))

theorem Elements.stores {first : Expr} {i j : Input} {es : List Expr}
    (h : Elements first i es j) (hi : Plain i.rest) : Stores (elementTokens es) i j := by
  have hsep := Stores.separated hi
  match h with
  | .close hu hclose => exact hsep.trans (.punctuation hsep.plain hclose (by rw [hu]; rfl))
  | .cons _ _ he _ hs =>
    have he := he.stores hsep.plain
    exact hsep.trans (he.trans (hs.stores he.plain))

theorem Body.stores {i j : Input} {ss : List Statement} (h : Body i ss j)
    (hi : Plain i.rest) : Stores (bodyTokens ss) i j := by
  match h with
  | .close hu hclose => exact .punctuation hi hclose (by rw [hu]; rfl)
  | .cons hk ht he hend hs =>
    have ht := Stores.takes hi ht (by rw [hk]; rfl)
    have he := he.stores ht.plain
    have hend := Stores.endUnit he.plain hend
    have hbody := ht.trans (he.trans (hend.trans (hs.stores hend.plain)))
    simpa [bodyTokens, Statement.tokens] using hbody

end

/-! ## Programs -/

theorem statement_stores {i j : Input} {s : Statement} (hi : Plain i.rest)
    (h : statement i = .ok s j) : Stores s.tokens i j := by
  obtain ⟨k, m, hk, ht, he, hend⟩ := statement_eq_ok_iff.1 h
  have ht := Stores.takes hi ht (by rw [hk]; rfl)
  have he := he.stores ht.plain
  obtain ⟨tag, value⟩ := s
  simpa [Statement.tokens] using ht.trans (he.trans (.endUnit he.plain hend))

theorem item_stores {i j : Input} {it : Item} (hi : Plain i.rest) (h : item i = .ok it j) :
    Stores it.tokens i j := by
  rcases item_eq_ok_iff.1 h with ⟨-, s, rfl, hs⟩ | ⟨-, e, m, rfl, he, hend⟩
  · exact statement_stores hi hs
  · have he := he.stores hi
    simpa [Item.tokens] using he.trans (.endUnit he.plain hend)

theorem stored_of_isAtEnd {i : Input} (hi : Plain i.rest) (h : i.isAtEnd .visible = true) :
    i.stored = [] := by
  have hp : (i.peek .visible).kind = .eof := decide_eq_true_iff.1 h
  have hv : (View.visible.ahead i.rest).filter Token.isStored = [] := by
    cases ha : View.visible.ahead i.rest with
    | nil => rfl
    | cons t ts =>
      have ht : i.peek .visible = t := by simp [Input.peek, ha]
      have hmem : t ∈ i.rest := (List.dropWhile_suffix _).mem (ha ▸ List.mem_cons_self)
      exact absurd (ht ▸ hp) (hi t hmem).1
  exact (Input.filter_visible _).symm.trans hv

theorem unitStart_stores {mode : Mode} {i : Input} (hi : Plain i.rest) :
    Stores [] i (unitStart mode i) := by
  cases mode with
  | batch => exact ⟨rfl, hi⟩
  | interactive =>
    refine ⟨(Input.filter_dropWhile fun t _ h => ?_).symm, hi.suffix (unitStart_suffix _ _)⟩
    simp [Token.isStored, ((Bool.and_eq_true _ _ ▸ h).1 : t.hidden = true)]

/-- Units without an error store all that there is to store. -/
theorem UnitsRead.stored_eq {α : Type} {unit : Parser α} {tokensOf : α → List Token}
    {mode : Mode} {i : Input} {as : List α}
    (hunit : ∀ i a j, Plain i.rest → unit i = .ok a j → Stores (tokensOf a) i j)
    (hi : Plain i.rest) (h : UnitsRead mode unit i as) : i.stored = as.flatMap tokensOf := by
  induction h with
  | done hend => exact stored_of_isAtEnd hi hend
  | @cons i j a as hend hu _ ih =>
    have hstart : Stores [] i (unitStart mode i) := unitStart_stores hi
    have hj := hunit _ _ _ hstart.plain hu
    rw [hstart.stored_eq, hj.stored_eq, ih hj.plain]
    rfl

end Grammar

open Grammar in
/-- **A program without syntax errors stores all tokens but punctuation.** -/
theorem program_tokens_eq (mode : Mode) (source : String)
    (h : (program mode (tokens source)).2 = []) :
    (program mode (tokens source)).1.tokens = (tokens source).filter Token.isStored := by
  have hi := ofTokens_tokens source
  have hplain : Plain (Input.ofTokens (tokens source)).rest := hi ▸ plain_textTokens source
  have hstored : (Input.ofTokens (tokens source)).stored =
      (tokens source).filter Token.isStored := by
    rw [hi, tokens_eq]
    simp [Input.stored, Token.isStored, Token.eof, TokenKind.isPunctuation]
  rw [← hstored]
  cases mode with
  | batch =>
    have hread := unitsRead_of_rejected (fun _ _ _ => size_lt_of_statement) h
    rw [hread.stored_eq (fun _ _ _ => statement_stores) hplain]
    simp [Program.tokens, Program.items, program, List.flatMap_map, Item.tokens]
  | interactive =>
    have hread := unitsRead_of_rejected (fun _ _ _ => size_lt_of_item) h
    exact (hread.stored_eq (fun _ _ _ => item_stores) hplain).symm

open Grammar in
/-- **Reading loses, invents and reorders nothing.** Every tree of a program respects
precedence; without syntax errors the trees hold all tokens but punctuation, in order
and once each. -/
theorem program_faithful (mode : Mode) (source : String) :
    (∀ it ∈ (program mode (tokens source)).1.items, it.Respects) ∧
      ((program mode (tokens source)).2 = [] →
        (program mode (tokens source)).1.tokens = (tokens source).filter Token.isStored) :=
  ⟨program_respects mode (tokens source), program_tokens_eq mode source⟩

open Grammar in
theorem program_faithful_builder :
    (program .interactive (tokens "decl a: T \x7b x 1; \x7d\n-a\n")).2 = [] ∧
      (program .interactive (tokens "decl a: T \x7b x 1; \x7d\n-a\n")).1.tokens =
        (tokens "decl a: T \x7b x 1; \x7d\n-a\n").filter Token.isStored :=
  ⟨by decide +kernel, (program_faithful .interactive "decl a: T \x7b x 1; \x7d\n-a\n").2
    (by decide +kernel)⟩

end LazyDecl
