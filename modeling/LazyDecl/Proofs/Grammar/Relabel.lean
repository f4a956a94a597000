import Mathlib.Data.List.Forall2
import LazyDecl.Proofs.Expr
import LazyDecl.Proofs.Grammar.Steps

/-!
The grammar does not look at where tokens stand. A relabeling changes nothing else of
a token; on relabeled input every parser does what it did, relabeled.

* `operandOver_mirrors`: one round of the grammar, over parsers of operands that go
  alike on shorter input;
* `operand_eq`: with the relabeling that changes nothing, the parser of operands is a
  fixed point of one round;
* `units_relabel`: all units of a run of tokens, with the errors of those that fail.
-/

namespace LazyDecl

/-- A change of tokens that keeps all that the grammar reads. -/
structure Relabeling where
  apply : Token → Token
  kind_apply : ∀ t, (apply t).kind = t.kind
  lexeme_apply : ∀ t, (apply t).lexeme = t.lexeme
  hidden_apply : ∀ t, (apply t).hidden = t.hidden

namespace Relabeling

instance : CoeFun Relabeling (fun _ => Token → Token) := ⟨apply⟩

attribute [simp] kind_apply lexeme_apply hidden_apply

/-- The relabeling that changes nothing. -/
def none : Relabeling := ⟨id, fun _ => rfl, fun _ => rfl, fun _ => rfl⟩

end Relabeling

variable (ρ : Relabeling)

def SyntaxError.relabel (e : SyntaxError) : SyntaxError := { e with token := ρ e.token }

namespace View

theorem ahead_map (v : View) (ts : List Token) : v.ahead (ts.map ρ) = (v.ahead ts).map ρ := by
  cases v with
  | visible => simp [List.dropWhile_map, Function.comp_def]
  | hidden => rfl

theorem skips_map (v : View) (ts : List Token) : v.skips (ts.map ρ) = v.skips ts := by
  cases v with
  | visible => cases ts <;> simp
  | hidden => rfl

end View

namespace Input

def relabel (i : Input) : Input where
  rest := i.rest.map ρ
  final := ρ i.final
  skipped := i.skipped
  final_eof := (ρ.kind_apply _).trans i.final_eof

@[simp] theorem size_relabel (i : Input) : (i.relabel ρ).size = i.size := List.length_map ..

@[simp] theorem skipped_relabel (i : Input) : (i.relabel ρ).skipped = i.skipped := rfl

@[simp] theorem peek_relabel (v : View) (i : Input) : (i.relabel ρ).peek v = ρ (i.peek v) := by
  simp only [peek, relabel, View.ahead_map]
  cases v.ahead i.rest <;> rfl

@[simp] theorem peekNext_relabel (v : View) (i : Input) :
    (i.relabel ρ).peekNext v = ρ (i.peekNext v) := by
  simp only [peekNext, relabel, View.ahead_map]
  cases v.ahead i.rest with
  | nil => rfl
  | cons t ts =>
    simp only [List.map_cons, Relabeling.kind_apply, View.ahead_map]
    split
    · rfl
    · cases v.ahead ts <;> rfl

@[simp] theorem advance_relabel (v : View) (i : Input) :
    (i.relabel ρ).advance v = (ρ (i.advance v).1, (i.advance v).2.relabel ρ) := by
  have hr : v.ahead (i.relabel ρ).rest = (v.ahead i.rest).map ρ := View.ahead_map ρ v i.rest
  cases h : v.ahead i.rest with
  | nil =>
    rw [h] at hr
    rw [advance_nil h, advance_nil hr]
    rfl
  | cons t ts =>
    rw [h] at hr
    rw [advance_cons h, advance_cons hr]
    simp only [Relabeling.kind_apply, View.ahead_map, View.skips_map]
    split <;> rfl

@[simp] theorem isAtEnd_relabel (v : View) (i : Input) :
    (i.relabel ρ).isAtEnd v = i.isAtEnd v := by
  simp [isAtEnd]

@[simp] theorem check_relabel (v : View) (kind : TokenKind) (i : Input) :
    (i.relabel ρ).check v kind = i.check v kind := by
  simp [check]

@[simp] theorem relabel_none (i : Input) : i.relabel .none = i := by
  simp [relabel, Relabeling.none]

end Input

namespace Parser

/-- The second result is the first one relabeled, with `A` between the values; a tail of
`ts` is left. -/
inductive Mirrored {α β : Type} (A : α → β → Prop) (ts : List Token) :
    EStateM.Result SyntaxError Input α → EStateM.Result SyntaxError Input β → Prop
  | ok {a : α} {b : β} {i : Input} : A a b → i.rest <:+ ts →
      Mirrored A ts (.ok a i) (.ok b (i.relabel ρ))
  | error {e : SyntaxError} {i : Input} : i.rest <:+ ts →
      Mirrored A ts (.error e i) (.error (e.relabel ρ) (i.relabel ρ))

/-- On relabeled input of at most `n` tokens, the second parser does what the first one
does, and both leave a tail of what there was. -/
def Mirrors {α β : Type} (n : Nat) (A : α → β → Prop) (p : Parser α) (q : Parser β) : Prop :=
  ∀ i : Input, i.size ≤ n → Mirrored ρ A i.rest (p i) (q (i.relabel ρ))

/-- The second value is the image of the first one. -/
def Image {α β : Type} (φ : α → β) (a : α) (b : β) : Prop := b = φ a

section Combinators

variable {ρ} {α β α' β' : Type} {n : Nat} {A : α → α' → Prop} {B : β → β' → Prop}

theorem Mirrored.mono {ts us : List Token} {r : EStateM.Result SyntaxError Input α}
    {r' : EStateM.Result SyntaxError Input α'} (h : Mirrored ρ A ts r r') (hts : ts <:+ us) :
    Mirrored ρ A us r r' := by
  cases h with
  | ok ha hi => exact .ok ha (hi.trans hts)
  | error hi => exact .error (hi.trans hts)

theorem Mirrors.mono {m : Nat} {p : Parser α} {q : Parser α'} (h : Mirrors ρ n A p q)
    (hm : m ≤ n) : Mirrors ρ m A p q :=
  fun i hi => h i (Nat.le_trans hi hm)

theorem Mirrors.pure {a : α} {b : α'} (h : A a b) : Mirrors ρ n A (pure a) (pure b) :=
  fun _ _ => .ok h (List.suffix_refl _)

theorem Mirrors.fail (cause : SyntaxCause) (t : Token) :
    Mirrors ρ n A (fail cause t) (fail cause (ρ t)) :=
  fun _ _ => .error (e := ⟨cause, t⟩) (List.suffix_refl _)

theorem Mirrored.bind {ts : List Token} {p : Parser α} {q : Parser α'} {k : α → Parser β}
    {k' : α' → Parser β'} {i i' : Input} (hp : Mirrored ρ A ts (p i) (q i'))
    (hk : ∀ a b, A a b → Mirrors ρ ts.length B (k a) (k' b)) :
    Mirrored ρ B ts ((p >>= k) i) ((q >>= k') i') := by
  rw [bind_apply, bind_apply]
  generalize p i = r at hp ⊢
  generalize q i' = r' at hp ⊢
  cases hp with
  | ok ha hj => exact (hk _ _ ha _ hj.length_le).mono hj
  | error hj => exact .error hj

theorem Mirrors.bind {p : Parser α} {q : Parser α'} {k : α → Parser β} {k' : α' → Parser β'}
    (hp : Mirrors ρ n A p q) (hk : ∀ a b, A a b → Mirrors ρ n B (k a) (k' b)) :
    Mirrors ρ n B (p >>= k) (q >>= k') :=
  fun i hi => (hp i hi).bind fun a b h => (hk a b h).mono hi

theorem Mirrors.get : Mirrors ρ n (Image (Input.relabel ρ)) get get :=
  fun _ _ => .ok rfl (List.suffix_refl _)

theorem Mirrors.ite {c : Prop} [Decidable c] {p p' : Parser α} {q q' : Parser α'}
    (hp : Mirrors ρ n A p q) (hp' : Mirrors ρ n A p' q') :
    Mirrors ρ n A (if c then p else p') (if c then q else q') := by
  split
  · exact hp
  · exact hp'

theorem Mirrors.check (v : View) (kind : TokenKind) :
    Mirrors ρ n Eq (check v kind) (check v kind) := by
  intro i _
  have h : Parser.check v kind (i.relabel ρ) = .ok (i.check v kind) (i.relabel ρ) :=
    congrArg (EStateM.Result.ok · _) (Input.check_relabel ρ v kind i)
  rw [h]
  exact .ok rfl (List.suffix_refl _)

theorem Mirrors.advance (v : View) : Mirrors ρ n (Image ρ) (advance v) (advance v) := by
  intro i _
  rw [advance_apply, advance_apply, Input.peek_relabel, Input.advance_relabel]
  exact .ok rfl (Input.rest_advance_suffix v i)

/-- Behind a token that is no end mark fewer tokens are left. -/
theorem Mirrored.advance_bind {v : View} {i : Input} (hi : (i.peek v).kind ≠ .eof)
    {k k' : Token → Parser β} {B : β → β → Prop}
    (hk : ∀ m < i.size, Mirrors ρ m B (k (i.peek v)) (k' (ρ (i.peek v)))) :
    Mirrored ρ B i.rest ((Parser.advance v >>= k) i) ((Parser.advance v >>= k') (i.relabel ρ)) := by
  have ht := Input.takes_peek hi
  rw [bind_apply, bind_apply, advance_apply, advance_apply, Input.peek_relabel,
    Input.advance_relabel]
  exact (hk _ ht.size_lt _ (Nat.le_refl _)).mono ht.rest_suffix

theorem Mirrors.take?_bind {v : View} {f : TokenKind → Option α} (hf : f .eof = none)
    {k : Option (α × Token) → Parser β} {k' : Option (α × Token) → Parser β'}
    (hsome : ∀ m < n, ∀ a t, f t.kind = some a →
      Mirrors ρ m B (k (some (a, t))) (k' (some (a, ρ t))))
    (hnone : Mirrors ρ n B (k none) (k' none)) :
    Mirrors ρ n B (take? v f >>= k) (take? v f >>= k') := by
  intro i hi
  rw [bind_apply, bind_apply, take?_apply, take?_apply, Input.peek_relabel, ρ.kind_apply]
  cases h : f (i.peek v).kind with
  | none => exact hnone i hi
  | some a =>
    have hlive : (i.peek v).kind ≠ .eof := by
      intro he
      rw [he, hf] at h
      cases h
    have ht := Input.takes_peek hlive
    have hlt := Nat.lt_of_lt_of_le ht.size_lt hi
    rw [Input.advance_relabel]
    exact (hsome _ hlt _ _ h _ (Nat.le_refl _)).mono ht.rest_suffix

theorem Mirrors.accept_bind {kind : TokenKind} (hk : kind ≠ .eof)
    {k : Option Token → Parser β} {k' : Option Token → Parser β'}
    (hsome : ∀ m < n, ∀ t, Mirrors ρ m B (k (some t)) (k' (some (ρ t))))
    (hnone : Mirrors ρ n B (k none) (k' none)) :
    Mirrors ρ n B (accept kind >>= k) (accept kind >>= k') := by
  intro i hi
  rw [bind_apply, bind_apply, accept_apply, accept_apply, Input.check_relabel]
  cases h : i.check .visible kind with
  | false => exact hnone i hi
  | true =>
    have ht := Input.takes_peek (((Input.check_iff hk).1 h).symm ▸ hk)
    have hlt := Nat.lt_of_lt_of_le ht.size_lt hi
    simp only [if_true, Input.peek_relabel, Input.advance_relabel]
    exact (hsome _ hlt _ _ (Nat.le_refl _)).mono ht.rest_suffix

theorem Mirrors.peek (v : View) : Mirrors ρ n (Image ρ) (peek v) (peek v) := by
  intro i _
  have h : Parser.peek v (i.relabel ρ) = .ok (ρ (i.peek v)) (i.relabel ρ) :=
    congrArg (EStateM.Result.ok · _) (Input.peek_relabel ρ v i)
  rw [h]
  exact .ok rfl (List.suffix_refl _)

theorem Mirrors.expect {kind : TokenKind} (hk : kind ≠ .eof) (cause : SyntaxCause) :
    Mirrors ρ n (Image ρ) (expect kind cause) (expect kind cause) := by
  refine .accept_bind hk (fun m _ t => .pure rfl) ?_
  refine Mirrors.bind (.peek .visible) ?_
  rintro t _ rfl
  exact .fail cause t

theorem Mirrors.many {step : Parser (Option α)} {step' : Parser (Option α')}
    (h : Mirrors ρ n (Option.Rel A) step step') :
    Mirrors ρ n (List.Forall₂ A) (many step) (many step') := by
  intro i hi
  generalize hm : i.size = m
  induction m using Nat.strongRecOn generalizing i with
  | _ m ih =>
    have hs := h i hi
    rw [Parser.many, Parser.many, Input.size_relabel]
    generalize step i = r at hs ⊢
    generalize step' (i.relabel ρ) = r' at hs ⊢
    cases hs with
    | error hj => exact .error hj
    | @ok a? b? j ha hj =>
      cases ha with
      | none => exact .ok .nil hj
      | some ha =>
        dsimp only
        rw [Input.size_relabel]
        split
        · rename_i hlt
          have hrest := ih j.size (hm ▸ hlt) j (Nat.le_trans (Nat.le_of_lt hlt) hi) rfl
          generalize Parser.many step j = r at hrest ⊢
          generalize Parser.many step' (j.relabel ρ) = r' at hrest ⊢
          cases hrest with
          | error hk => exact .error (hk.trans hj)
          | ok has hk => exact .ok (.cons ha has) (hk.trans hj)
        · exact .ok (.cons ha .nil) hj

end Combinators

end Parser

/-! ## One round of the grammar -/

namespace Grammar

open LazyDecl.Parser

section Round

variable {ρ} {n : Nat} {p q : Parser Expr}

theorem literal?_apply (t : Token) : literal? (ρ t) = literal? t := by
  simp [literal?]

theorem infixNode?_map {level : Level} {kind : TokenKind} {node : Token → Expr → Expr → Expr}
    (h : infixNode? level kind = some node) (t : Token) (l r : Expr) :
    node (ρ t) (l.map ρ) (r.map ρ) = (node t l r).map ρ := by
  unfold infixNode? at h
  split at h <;> cases h <;> rfl

/-- An operator with its right operand, and the same one relabeled. -/
def JoinImage (ρ : Relabeling) (a b : (Expr → Expr → Expr) × Expr) : Prop :=
  ∀ left : Expr, b.1 (left.map ρ) b.2 = (a.1 left a.2).map ρ

theorem joinAll_map {joined joined' : List ((Expr → Expr → Expr) × Expr)}
    (h : List.Forall₂ (JoinImage ρ) joined joined') (first : Expr) :
    joinAll (first.map ρ) joined' = (joinAll first joined).map ρ := by
  induction h generalizing first with
  | nil => rfl
  | @cons a b as bs h _ ih =>
    obtain ⟨node, right⟩ := a
    obtain ⟨node', right'⟩ := b
    exact (congrArg (joinAll · bs) (h first)).trans (ih _)

theorem infixLevel_mirrors (level : Level) (hp : Mirrors ρ n (Image (Expr.map ρ)) p q) :
    Mirrors ρ n (Image (Expr.map ρ)) (infixLevel level p) (infixLevel level q) := by
  refine hp.bind ?_
  rintro first _ rfl
  refine (Mirrors.many (A := JoinImage ρ) ?_).bind ?_
  · refine .take?_bind (infixNode?_eof level) ?_ (.pure .none)
    intro m hm node t hnode
    refine (hp.mono (Nat.le_of_lt hm)).bind ?_
    rintro right _ rfl
    exact .pure (.some fun left => infixNode?_map hnode t left right)
  · intro joined joined' h
    exact .pure (joinAll_map h first)

theorem expressionOver_mirrors (hp : Mirrors ρ n (Image (Expr.map ρ)) p q) :
    Mirrors ρ n (Image (Expr.map ρ)) (expressionOver p) (expressionOver q) :=
  infixLevel_mirrors _ <| infixLevel_mirrors _ <| infixLevel_mirrors _ <|
    infixLevel_mirrors _ <| infixLevel_mirrors _ <| infixLevel_mirrors _ hp

theorem unitEnd_mirrors (inBuilder : Bool) (cause : SyntaxCause) :
    Mirrors ρ n Eq (unitEnd inBuilder cause) (unitEnd inBuilder cause) := by
  refine Mirrors.get.bind ?_
  rintro i _ rfl
  simp only [Input.peek_relabel, Input.isAtEnd_relabel, Input.skipped_relabel,
    Relabeling.kind_apply]
  refine .ite (.pure rfl) (.ite ?_ (.ite (.pure rfl) (.fail _ _)))
  exact (Mirrors.advance .hidden).bind fun _ _ _ => .pure rfl

theorem statementOver_mirrors (inBuilder : Bool) (hp : Mirrors ρ n (Image (Expr.map ρ)) p q) :
    Mirrors ρ n (Image (Statement.map ρ)) (statementOver p inBuilder)
      (statementOver q inBuilder) := by
  refine (Mirrors.expect (by decide) _).bind ?_
  rintro tag _ rfl
  refine (expressionOver_mirrors hp).bind ?_
  rintro value _ rfl
  refine (unitEnd_mirrors inBuilder _).bind ?_
  rintro _ _ rfl
  exact .pure rfl

theorem forall₂_image {α β : Type} {φ : α → β} {as : List α} {bs : List β}
    (h : List.Forall₂ (Image φ) as bs) : bs = as.map φ := by
  induction h with
  | nil => rfl
  | cons h _ ih => rw [List.map_cons, ← h, ← ih]

theorem builderOver_mirrors (kind : Token) (hp : Mirrors ρ n (Image (Expr.map ρ)) p q) :
    Mirrors ρ n (Image (Expr.map ρ)) (builderOver p kind) (builderOver q (ρ kind)) := by
  refine (Mirrors.advance .visible).bind ?_
  rintro _ _ -
  refine (Mirrors.many (A := Image (Statement.map ρ)) ?_).bind ?_
  · refine Mirrors.get.bind ?_
    rintro i _ rfl
    simp only [Input.check_relabel, Input.isAtEnd_relabel]
    refine .ite (.pure .none) ((statementOver_mirrors true hp).bind ?_)
    rintro s _ rfl
    exact .pure (.some rfl)
  · intro body body' h
    rw [forall₂_image h]
    refine (Mirrors.expect (by decide) _).bind fun _ _ _ => .pure ?_
    simp only [Image, Expr.map, mapBody_eq]

theorem separators_mirrors : Mirrors ρ n Eq separators separators := by
  refine Mirrors.get.bind ?_
  rintro i _ rfl
  refine (Mirrors.many (A := Image (Prod.map id ρ)) ?_).bind ?_
  · intro j _
    rw [take?_apply, take?_apply, Input.peek_relabel, ρ.kind_apply, Input.advance_relabel]
    split
    · exact .ok (.some rfl) (Input.rest_advance_suffix _ _)
    · exact .ok .none (List.suffix_refl _)
  · intro run run' h
    rw [forall₂_image h]
    exact .pure (by simp)

theorem elementOver_mirrors (first : Expr) (hp : Mirrors ρ n (Image (Expr.map ρ)) p q) :
    Mirrors ρ n (Image (Expr.map ρ)) (elementOver p first) (elementOver q (first.map ρ)) := by
  refine (expressionOver_mirrors hp).bind ?_
  rintro element _ rfl
  simp only [Expr.isBinding_map, Expr.anchor_map]
  exact .ite (.fail _ _) (.ite (.fail _ _) (.pure rfl))

theorem sequenceOver_mirrors (opening : Token) (hp : Mirrors ρ n (Image (Expr.map ρ)) p q) :
    Mirrors ρ n (Image (Expr.map ρ)) (sequenceOver p opening) (sequenceOver q (ρ opening)) := by
  refine .accept_bind (by decide) (fun m _ t => .pure rfl) ?_
  refine (expressionOver_mirrors hp).bind ?_
  rintro first _ rfl
  refine (Mirrors.many (A := Image (Expr.map ρ)) ?_).bind ?_
  · refine separators_mirrors.bind ?_
    rintro found _ rfl
    refine (Mirrors.check .visible .rightBracket).bind ?_
    rintro closes _ rfl
    refine .ite ((elementOver_mirrors first hp).bind ?_) (.pure .none)
    rintro element _ rfl
    exact .pure (.some rfl)
  · intro others others' h
    rw [forall₂_image h]
    refine (Mirrors.expect (by decide) _).bind fun _ _ _ => .pure ?_
    simp only [Image, Expr.map, mapElements, mapElements_eq]

theorem nameOver_mirrors (t : Token) (hp : Mirrors ρ n (Image (Expr.map ρ)) p q) :
    Mirrors ρ n (Image (Expr.map ρ)) (nameOver p t) (nameOver q (ρ t)) := by
  refine Mirrors.get.bind ?_
  rintro i _ rfl
  simp only [Input.check_relabel, Input.skipped_relabel]
  exact .ite (builderOver_mirrors t hp) (.pure rfl)

/-- Behind its first token a primary is read on shorter input. -/
theorem primaryOver_mirrors (hp : ∀ m < n, Mirrors ρ m (Image (Expr.map ρ)) p q) :
    Mirrors ρ n (Image (Expr.map ρ)) (primaryOver p) (primaryOver q) := by
  intro i hi
  have hlt : ∀ m < i.size, Mirrors ρ m (Image (Expr.map ρ)) p q :=
    fun m hm => hp m (Nat.lt_of_lt_of_le hm hi)
  have ht : (i.relabel ρ).peek .visible = ρ (i.peek .visible) := Input.peek_relabel ρ .visible i
  cases hl : literal? (i.peek .visible) with
  | some read =>
    rw [primaryOver_literal p hl, primaryOver_literal q (by rw [ht, literal?_apply, hl]), ht]
    refine Mirrored.advance_bind (literal?_live hl) fun m hm => ?_
    cases read with
    | ok value => exact .pure rfl
    | error cause => exact .fail cause _
  | none =>
    have hk : ((i.relabel ρ).peek .visible).kind = (i.peek .visible).kind := by simp
    by_cases hi : (i.peek .visible).kind = .identifier
    · rw [primaryOver_identifier p hi, primaryOver_identifier q (hk.trans hi), ht]
      exact Mirrored.advance_bind (by simp [hi]) fun m hm => nameOver_mirrors _ (hlt m hm)
    by_cases hp : (i.peek .visible).kind = .leftParen
    · rw [primaryOver_leftParen p hp, primaryOver_leftParen q (hk.trans hp)]
      refine Mirrored.advance_bind (by simp [hp]) fun m hm =>
        (expressionOver_mirrors (hlt m hm)).bind ?_
      rintro inner _ rfl
      exact (Mirrors.expect (by decide) _).bind fun _ _ _ => .pure rfl
    by_cases hb : (i.peek .visible).kind = .leftBracket
    · rw [primaryOver_leftBracket p hb, primaryOver_leftBracket q (hk.trans hb), ht]
      exact Mirrored.advance_bind (by simp [hb]) fun m hm => sequenceOver_mirrors _ (hlt m hm)
    · rw [primaryOver_unexpected p hl hi hp hb, primaryOver_unexpected q
        (by rw [ht, literal?_apply, hl]) (hk ▸ hi) (hk ▸ hp) (hk ▸ hb), ht]
      exact Mirrors.fail _ _ i (Nat.le_refl _)

theorem bindingOver_mirrors (hp : ∀ m < n, Mirrors ρ m (Image (Expr.map ρ)) p q) :
    Mirrors ρ n (Image (Expr.map ρ)) (bindingOver p) (bindingOver q) := by
  refine (primaryOver_mirrors hp).bind ?_
  rintro left _ rfl
  refine .accept_bind (by decide) (fun m hm colon => ?_) (.pure rfl)
  refine (expressionOver_mirrors (hp m hm)).bind ?_
  rintro right _ rfl
  exact .pure rfl

/-- One round over parsers that go alike on shorter input. -/
theorem operandOver_mirrors (hp : ∀ m < n, Mirrors ρ m (Image (Expr.map ρ)) p q) :
    Mirrors ρ n (Image (Expr.map ρ)) (operandOver p) (operandOver q) := by
  refine .take?_bind prefixOp?_eof (fun m hm op operator _ => ?_) (bindingOver_mirrors hp)
  refine (hp m hm).bind ?_
  rintro e _ rfl
  exact .pure rfl

end Round

/-! ## The whole grammar -/

theorem operand_mirrors (n : Nat) :
    Mirrors ρ n (Image (Expr.map ρ)) operand operand := by
  induction n using Nat.strongRecOn with
  | _ n ih =>
    intro i hi
    rw [operand, operand]
    refine operandOver_mirrors (fun m hm j hj => ?_) i (Nat.le_refl _)
    have hlt : j.size < i.size := Nat.lt_of_le_of_lt hj hm
    simp only [Input.size_relabel, if_pos hlt]
    exact ih m (Nat.lt_of_lt_of_le hm hi) j hj

/-- With the relabeling that changes nothing, mirrored results are one result. -/
theorem eq_of_mirrored {α : Type} {φ : α → α} (hφ : ∀ a, φ a = a) {ts : List Token}
    {r r' : EStateM.Result SyntaxError Input α} (h : Mirrored .none (Image φ) ts r r') : r = r' := by
  cases h with
  | @ok a _ j ha _ => rw [ha, hφ, Input.relabel_none]
  | @error e j _ =>
    rw [Input.relabel_none]
    rfl

/-- The parser of operands is one round over itself. -/
theorem operand_eq (i : Input) : operand i = operandOver operand i := by
  rw [operand]
  have h : Mirrored .none (Image (Expr.map Relabeling.none)) i.rest
      (operandOver (fun j => if j.size < i.size then operand j
        else .error ⟨.expectedExpression, j.peek .visible⟩ j) i)
      (operandOver operand (i.relabel .none)) := by
    refine operandOver_mirrors (fun m hm j hj => ?_) i (Nat.le_refl _)
    simp only [if_pos (Nat.lt_of_le_of_lt hj hm)]
    exact operand_mirrors .none m j hj
  rw [Input.relabel_none] at h
  exact eq_of_mirrored Expr.map_id h

theorem statement_mirrors (n : Nat) :
    Mirrors ρ n (Image (Statement.map ρ)) statement statement :=
  statementOver_mirrors false (operand_mirrors ρ n)

/-- A unit of the prompt over a parser of operands. -/
def itemOver (p : Parser Expr) : Parser Item := do
  if opensStatement (← get) then return .statement (← statementOver p false)
  else
    let e ← expressionOver p
    unitEnd false .expectedExpressionEnd
    return .expression e

theorem itemOver_mirrors {n : Nat} {p q : Parser Expr}
    (hp : Mirrors ρ n (Image (Expr.map ρ)) p q) :
    Mirrors ρ n (Image (Item.map ρ)) (itemOver p) (itemOver q) := by
  refine Mirrors.get.bind ?_
  rintro i _ rfl
  have ho : opensStatement (i.relabel ρ) = opensStatement i := by simp [opensStatement]
  rw [ho]
  refine .ite ((statementOver_mirrors false hp).bind ?_) ((expressionOver_mirrors hp).bind ?_)
  · rintro s _ rfl
    exact .pure rfl
  · rintro e _ rfl
    exact (unitEnd_mirrors false _).bind fun _ _ _ => .pure rfl

theorem item_mirrors (n : Nat) : Mirrors ρ n (Image (Item.map ρ)) item item :=
  itemOver_mirrors ρ (operand_mirrors ρ n)

/-! ## Units -/

theorem pastBoundary_map (ts : List Token) :
    pastBoundary (ts.map ρ) = (pastBoundary ts).map ρ := by
  induction ts with
  | nil => rfl
  | cons t ts ih =>
    simp only [List.map_cons, pastBoundary, Relabeling.kind_apply, ih]
    split
    · rfl
    · split <;> rfl

theorem recover_relabel (start i : Input) :
    recover (start.relabel ρ) (i.relabel ρ) = (recover start i).relabel ρ := by
  simp only [recover, Input.size_relabel, Input.skipped_relabel]
  split
  · rfl
  · simp only [Input.relabel, pastBoundary_map]

theorem unitStart_relabel (mode : Mode) (i : Input) :
    unitStart mode (i.relabel ρ) = (unitStart mode i).relabel ρ := by
  cases mode with
  | batch => rfl
  | interactive => simp [unitStart, Input.relabel, List.dropWhile_map, Function.comp_def]

/-- A unit or its error, with the tokens changed. -/
def relabelUnit {α β : Type} (φ : α → β) : Except SyntaxError α → Except SyntaxError β
  | .ok a => .ok (φ a)
  | .error e => .error (e.relabel ρ)

variable {α β : Type} {φ : α → β} {unit : Parser α} {unit' : Parser β}

theorem turn_relabel (h : ∀ n, Mirrors ρ n (Image φ) unit unit') (i : Input) :
    turn unit' (i.relabel ρ) = (relabelUnit ρ φ (turn unit i).1, (turn unit i).2.relabel ρ) := by
  have hi := h i.size i (Nat.le_refl _)
  unfold turn
  generalize unit i = r at hi ⊢
  generalize unit' (i.relabel ρ) = r' at hi ⊢
  cases hi with
  | ok ha _ => rw [ha]; rfl
  | error _ =>
    dsimp only
    rw [recover_relabel]
    rfl

/-- The units of relabeled input are those of the input, relabeled. -/
theorem units_relabel (h : ∀ n, Mirrors ρ n (Image φ) unit unit') (mode : Mode) (i : Input) :
    units mode unit' (i.relabel ρ) = (units mode unit i).map (relabelUnit ρ φ) := by
  induction i using units_induction mode unit with
  | next i ih =>
    rw [units, units, Input.isAtEnd_relabel, unitStart_relabel, turn_relabel ρ h]
    split
    · rfl
    · dsimp only
      rw [Input.size_relabel, Input.size_relabel]
      split
      · rename_i hlt
        rw [List.map_cons, ih hlt]
      · rfl

end Grammar

end LazyDecl
