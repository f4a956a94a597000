import LazyDecl.Proofs.Eval.Reference
import LazyDecl.Proofs.Grammar.Printing
import LazyDecl.Proofs.LineEndings
import LazyDecl.Proofs.Text.Numeral
import LazyDecl.Proofs.Text.Scans

/-!
Values printed and read back. Booleans, numbers and lists of them are printed as source text
that spells them: a number below zero as the prefix operator in front of its digits.

* `Value.Spells`: the text of a value is cut into the tokens of a tree whose value it is, in
  front of all that does not go on with it;
* `exists_spells`: there is such a tree for every value of these kinds, by induction on it;
* `Session.run_text`: so the text as input of the prompt comes to the value again.
-/

namespace LazyDecl

open Grammar (seen literal?)
open Segment (Scans Stops IsLexeme)

/-- Marks as they are written in a list. -/
def Marks.written : Marks where
  mark kind := seen kind (match kind with
    | .comma => ","
    | .rightBracket => "]"
    | _ => "")
  mark_is _ := ⟨rfl, rfl⟩

/-! ## Trees that spell values -/

/-- The text of the value is the print of the tree, and the tree has the value. -/
structure Value.Spells (v : Value) (e : Expr) : Prop where
  respects : e.Respects
  unbound : e.isBinding = false
  opens : ∀ final, Grammar.nextKind final (e.print .written) ≠ .identifier
  value : ∀ force, Eval.valueOver force e = pure v
  scans : ∀ rest, (∀ d ∈ rest.head?, Stops d) →
    Scans v.text.toList rest (e.print .written)

/-- A literal spells what it denotes. -/
theorem spells_literal {v : Value} {l : Literal} {kind : TokenKind} {c : Char} {cs : List Char}
    (htext : v.text.toList = c :: cs) (hlexeme : IsLexeme kind (c :: cs))
    (hopen : c ≠ '\n' ∧ c ≠ ';') (hkind : kind ≠ .identifier)
    (hread : literal? (seen kind (String.ofList (c :: cs))) = some (.ok l))
    (hvalue : Value.ofLiteral l = v) :
    v.Spells (.literal l (seen kind (String.ofList (c :: cs)))) where
  respects := ⟨rfl, hread⟩
  unbound := rfl
  opens _ := hkind
  value force := by rw [Eval.valueOver, hvalue]
  scans rest hrest := by
    rw [htext]
    exact hlexeme.scans hopen.1 hopen.2 hrest

/-- A literal behind a minus sign spells the number below zero. -/
theorem spells_negated {v : Value} {l : Literal} {kind : TokenKind} {c : Char} {cs : List Char}
    (htext : v.text.toList = '-' :: c :: cs) (hlexeme : IsLexeme kind (c :: cs))
    (hdigit : c.isDigit = true)
    (hread : literal? (seen kind (String.ofList (c :: cs))) = some (.ok l))
    (hvalue : UnaryOp.negate.apply (.ofLiteral l) = .ok v) :
    v.Spells (.unary .negate (seen .minus "-")
      (.literal l (seen kind (String.ofList (c :: cs))))) where
  respects := ⟨⟨rfl, rfl⟩, (by decide : 6 ≤ 8), rfl, hread⟩
  unbound := rfl
  opens _ := (by decide : TokenKind.minus ≠ .identifier)
  value force := by
    rw [Eval.valueOver_unary, if_neg (by decide), Eval.valueOver, pure_bind, hvalue]
    rfl
  scans rest hrest := by
    have hne : ∀ d : Char, d.isDigit = false → c ≠ d := by
      rintro d hd rfl
      exact absurd (hdigit.symm.trans hd) nofun
    have hsign : Scans ['-'] (c :: cs ++ rest) [seen .minus "-"] := by
      refine Segment.scans_mark rfl (by decide) fun d hd => ?_
      cases hd
      exact TokenKind.ofPair?_none ⟨hne _ (by decide), hne _ (by decide), hne _ (by decide),
        hne _ (by decide)⟩ _
    rw [htext]
    exact hsign.append (hlexeme.scans (hne _ (by decide)) (hne _ (by decide)) hrest)

theorem exists_spells_boolean (b : Bool) : ∃ e, (Value.boolean b).Spells e := by
  cases b with
  | true =>
    have htext : (Value.boolean true).text.toList = ['t', 'r', 'u', 'e'] := by
      rw [Value.text, if_pos rfl, String.toList_ofList]
    have hlexeme : IsLexeme (.boolean true) ['t', 'r', 'u', 'e'] := .spelled rfl
    exact ⟨_, spells_literal htext hlexeme (by decide) (by decide) rfl rfl⟩
  | false =>
    have htext : (Value.boolean false).text.toList = ['f', 'a', 'l', 's', 'e'] := by
      rw [Value.text, if_neg nofun, String.toList_ofList]
    have hlexeme : IsLexeme (.boolean false) ['f', 'a', 'l', 's', 'e'] := .spelled rfl
    exact ⟨_, spells_literal htext hlexeme (by decide) (by decide) rfl rfl⟩

/-! ## Numbers -/

theorem isLexeme_integer {cs : List Char} (h : Numeral.Digits cs) (hne : cs ≠ []) :
    IsLexeme .integer cs := by
  obtain ⟨c, cs, rfl⟩ := List.exists_cons_of_ne_nil hne
  obtain ⟨hc, hcs⟩ := List.forall_mem_cons.1 h
  exact Segment.recognized_iff.1 (.integer hc hcs)

theorem isLexeme_decimal {whole fraction : List Char} (h : Decimal.Pointed whole fraction) :
    IsLexeme .decimal (whole ++ '.' :: fraction) := by
  obtain ⟨c, cs, rfl⟩ := List.exists_cons_of_ne_nil h.whole_ne
  obtain ⟨hc, hcs⟩ := List.forall_mem_cons.1 h.whole_digits
  exact Segment.recognized_iff.1 (.decimal hc hcs h.fraction_digits h.fraction_ne)

/-- A number is spelled by the literal of its digits, behind a minus sign if it is below zero. -/
theorem exists_spells_number {v : Value} {l : Literal} {kind : TokenKind} {cs : List Char}
    {negative : Prop} [Decidable negative]
    (htext : v.text.toList = (if negative then ['-'] else []) ++ cs)
    (hlexeme : IsLexeme kind cs) (hdigit : ∀ c ∈ cs.head?, c.isDigit = true)
    (hkind : kind ≠ .identifier) (hread : literal? (seen kind (String.ofList cs)) = some (.ok l))
    (hbelow : negative → UnaryOp.negate.apply (.ofLiteral l) = .ok v)
    (habove : ¬negative → Value.ofLiteral l = v) : ∃ e, v.Spells e := by
  cases cs with
  | nil => exact absurd rfl hlexeme.ne_nil
  | cons c cs =>
    have hc : c.isDigit = true := hdigit c rfl
    by_cases hn : negative
    · rw [if_pos hn] at htext
      exact ⟨_, spells_negated htext hlexeme hc hread (hbelow hn)⟩
    · rw [if_neg hn] at htext
      obtain ⟨-, hnewline, hsemicolon, -⟩ := Segment.not_special (.inl hc)
      exact ⟨_, spells_literal htext hlexeme ⟨hnewline, hsemicolon⟩ hkind hread (habove hn)⟩

theorem toList_toString_int (n : Int) :
    (toString n).toList = (if n < 0 then ['-'] else []) ++ Numeral.digits n.natAbs := by
  rw [Int.toString_eq_repr, Int.repr_eq_if, Nat.repr_eq_ofList_toDigits,
    Nat.repr_eq_ofList_toDigits]
  by_cases hn : n < 0
  · have habs : (-n).toNat = n.natAbs := by omega
    rw [if_neg (by omega), if_pos hn, habs, String.toList_append, String.toList_ofList,
      String.toList_ofList]
    rfl
  · have habs : n.toNat = n.natAbs := by omega
    rw [if_pos (by omega), if_neg hn, habs, String.toList_ofList]
    rfl

theorem exists_spells_integer (n : Int) : ∃ e, (Value.integer n).Spells e := by
  have hdigits := Numeral.digits_digits n.natAbs
  have hne := Numeral.digits_ne_nil n.natAbs
  have hread : literal? (seen .integer (String.ofList (Numeral.digits n.natAbs))) =
      some (.ok (.integer n.natAbs)) := by
    simp only [literal?, seen, String.toList_ofList, Numeral.integer?_digits hdigits hne,
      Numeral.value_digits]
  refine exists_spells_number (toList_toString_int n) (isLexeme_integer hdigits hne)
    (fun c hc => hdigits c (List.mem_of_head? hc)) (by decide) hread (fun hn => ?_) fun hn => ?_
  · have habs : -(n.natAbs : Int) = n := by omega
    rw [Value.ofLiteral, UnaryOp.apply, habs]
  · have habs : (n.natAbs : Int) = n := by omega
    rw [Value.ofLiteral, habs]

theorem exists_spells_decimal {d : Decimal} (hd : d.WrittenWithPoint) :
    ∃ e, (Value.decimal d).Spells e := by
  obtain ⟨whole, fraction, hpointed, htext, hof⟩ := Decimal.text_pointed hd
  have hread : literal? (seen .decimal (String.ofList (whole ++ '.' :: fraction))) =
      some (.ok (.decimal ⟨d.digits.natAbs, d.scale⟩)) := by
    simp only [literal?, seen, hof]
  have hdigit : ∀ c ∈ (whole ++ '.' :: fraction).head?, c.isDigit = true := by
    obtain ⟨c, cs, rfl⟩ := List.exists_cons_of_ne_nil hpointed.whole_ne
    rintro d ⟨⟩
    exact hpointed.whole_digits c List.mem_cons_self
  refine exists_spells_number htext (isLexeme_decimal hpointed) hdigit (by decide) hread
    (fun hn => ?_) fun hn => ?_
  · have habs : -(d.digits.natAbs : Int) = d.digits := by omega
    rw [Value.ofLiteral, UnaryOp.apply, Decimal.neg, habs]
  · have habs : (d.digits.natAbs : Int) = d.digits := by omega
    rw [Value.ofLiteral, habs]

/-! ## Lists -/

/-- The items of a list behind the first one, as they are printed, and the closing bracket. -/
def othersText (vs : List Value) : List Char :=
  (vs.flatMap fun v => ',' :: ' ' :: v.text.toList) ++ [']']

theorem othersText_cons (v : Value) (vs : List Value) :
    othersText (v :: vs) = ',' :: ' ' :: (v.text.toList ++ othersText vs) := by
  simp only [othersText, List.flatMap_cons, List.cons_append, List.append_assoc]

theorem toList_commaJoined (t : String) (ts : List String) :
    (Value.commaJoined (t :: ts)).toList =
      t.toList ++ ts.flatMap fun u => ',' :: ' ' :: u.toList := by
  rw [Value.commaJoined, String.toList_intercalate]
  induction ts generalizing t with
  | nil => simp
  | cons u ts ih =>
    rw [List.map_cons, List.map_cons, List.intercalate_cons_cons, ← List.map_cons, ih,
      List.flatMap_cons, String.toList_ofList, List.append_assoc]
    rfl

theorem itemTexts_eq (vs : List Value) : Value.itemTexts vs = vs.map Value.text := by
  induction vs with
  | nil => rfl
  | cons v vs ih => rw [Value.itemTexts, ih, List.map_cons]

theorem toList_text_list (v : Value) (vs : List Value) :
    (Value.list (v :: vs)).text.toList = '[' :: (v.text.toList ++ othersText vs) := by
  rw [Value.text, Value.itemTexts, itemTexts_eq, String.toList_append, String.toList_append,
    toList_commaJoined, List.flatMap_map, String.toList_ofList, String.toList_ofList,
    List.append_assoc, List.append_assoc]
  rfl

theorem stops_othersText (vs : List Value) (rest : List Char) :
    ∀ d ∈ (othersText vs ++ rest).head?, Stops d := by
  cases vs with
  | nil =>
    rintro d ⟨⟩
    exact ⟨by decide, by decide, by decide, by decide⟩
  | cons v vs =>
    rw [othersText_cons]
    rintro d ⟨⟩
    exact ⟨by decide, by decide, by decide, by decide⟩

/-- The items of a list and trees that spell them. -/
structure ItemsSpell (vs : List Value) (es : List Expr) : Prop where
  respects : elementsRespect es
  unbound : ∀ e ∈ es, e.isBinding = false
  value : ∀ force, Eval.itemsOver force es = pure vs
  scans : ∀ rest, (∀ d ∈ rest.head?, Stops d) →
    Scans (othersText vs) rest (printOthers .written es)

theorem ItemsSpell.nil : ItemsSpell [] [] where
  respects := trivial
  unbound := List.forall_mem_nil _
  value force := by rw [Eval.itemsOver]
  scans rest hrest := Segment.scans_mark rfl (by decide) fun d hd =>
    TokenKind.ofPair?_none (hrest d hd).no_pair _

theorem ItemsSpell.cons {v : Value} {vs : List Value} {e : Expr} {es : List Expr}
    (hs : ItemsSpell vs es) (h : v.Spells e) : ItemsSpell (v :: vs) (e :: es) where
  respects := ⟨h.respects, hs.respects⟩
  unbound := List.forall_mem_cons.2 ⟨h.unbound, hs.unbound⟩
  value force := by
    rw [Eval.itemsOver_cons, h.unbound, if_neg Bool.false_ne_true, h.value, pure_bind, hs.value,
      pure_bind]
  scans rest hrest := by
    have hcomma : Scans [','] ([' '] ++ (v.text.toList ++ othersText vs) ++ rest)
        [seen .comma ","] := by
      refine Segment.scans_mark rfl (by decide) ?_
      rintro d ⟨⟩
      rfl
    have hblank : Scans [' '] (v.text.toList ++ othersText vs ++ rest) [] :=
      Segment.scans_blank (by decide) _
    have hfirst : Scans v.text.toList (othersText vs ++ rest) (e.print .written) :=
      h.scans _ (stops_othersText vs rest)
    rw [othersText_cons]
    exact hcomma.append (hblank.append (hfirst.append (hs.scans rest hrest)))

theorem spells_empty : (Value.list []).Spells (.sequence (seen .leftBracket "[") []) where
  respects := ⟨⟨rfl, rfl⟩, .inl (List.forall_mem_nil _), trivial⟩
  unbound := rfl
  opens _ := (by decide : TokenKind.leftBracket ≠ .identifier)
  value force := by
    rw [Eval.valueOver_sequence, List.head?_nil, Option.any_none, if_neg Bool.false_ne_true,
      Eval.itemsOver, pure_bind]
  scans rest hrest := by
    have hopen : Scans ['['] ([']'] ++ rest) [seen .leftBracket "["] := by
      refine Segment.scans_mark rfl (by decide) ?_
      rintro d ⟨⟩
      rfl
    have htext : (Value.list []).text.toList = ['['] ++ [']'] := by decide
    rw [htext]
    exact hopen.append (ItemsSpell.nil.scans rest hrest)

theorem spells_sequence {v : Value} {vs : List Value} {e : Expr} {es : List Expr}
    (h : v.Spells e) (hs : ItemsSpell vs es) :
    (Value.list (v :: vs)).Spells (.sequence (seen .leftBracket "[") (e :: es)) where
  respects := ⟨⟨rfl, rfl⟩, .inr (List.forall_mem_cons.2 ⟨h.unbound, hs.unbound⟩), h.respects,
    hs.respects⟩
  unbound := rfl
  opens _ := (by decide : TokenKind.leftBracket ≠ .identifier)
  value force := by
    rw [Eval.valueOver_sequence, List.head?_cons, Option.any_some, h.unbound,
      if_neg Bool.false_ne_true, (hs.cons h).value, pure_bind]
  scans rest hrest := by
    have hfirst := h.scans _ (stops_othersText vs rest)
    have hopen : Scans ['['] (v.text.toList ++ othersText vs ++ rest) [seen .leftBracket "["] :=
      Segment.scans_mark rfl (by decide) fun d _ => by simp [TokenKind.ofPair?]
    rw [toList_text_list]
    exact hopen.append (hfirst.append (hs.scans rest hrest))

/-! ## Values that can be read back -/

mutual

/-- The value is made of booleans, integers, decimals that are written with a point, and lists. -/
def Value.Literate : Value → Prop
  | .boolean _ | .integer _ => True
  | .decimal d => d.WrittenWithPoint
  | .list items => itemsLiterate items
  | .string _ | .table _ | .pair _ _ | .reference _ | .builder _ => False

def itemsLiterate : List Value → Prop
  | [] => True
  | v :: vs => v.Literate ∧ itemsLiterate vs

end

mutual

/-- **Each such value is spelled by a tree.** -/
theorem exists_spells (v : Value) (hv : v.Literate) : ∃ e, v.Spells e := by
  match v with
  | .boolean b => exact exists_spells_boolean b
  | .integer n => exact exists_spells_integer n
  | .decimal d => exact exists_spells_decimal hv
  | .list [] => exact ⟨_, spells_empty⟩
  | .list (v :: vs) =>
    obtain ⟨e, he⟩ := exists_spells v hv.1
    obtain ⟨es, hes⟩ := exists_itemsSpell vs hv.2
    exact ⟨_, spells_sequence he hes⟩

theorem exists_itemsSpell (vs : List Value) (hvs : itemsLiterate vs) :
    ∃ es, ItemsSpell vs es := by
  match vs with
  | [] => exact ⟨[], .nil⟩
  | v :: vs =>
    obtain ⟨e, he⟩ := exists_spells v hvs.1
    obtain ⟨es, hes⟩ := exists_itemsSpell vs hvs.2
    exact ⟨e :: es, hes.cons he⟩

end

/-! ## At the prompt -/

theorem Value.Literate.not_reference {v : Value} (h : v.Literate) :
    Reference.isReference v = false := by
  cases v with
  | reference name => exact h.elim
  | _ => rfl

section Prompt

variable {v : Value} {e : Expr}

/-- The evaluation of a tree that spells a value comes to the value, and to nothing else. -/
theorem Value.Spells.evaluate (h : v.Spells e) (hv : Reference.isReference v = false) :
    ((Program.interactive [.expression e]).evaluate ∅).1 = ⟨[.ok (some v)], []⟩ := by
  have hitem : Eval.item (.expression e) = pure (some v) := by
    have hvalue : Eval.value e = pure v := h.value _
    rw [Eval.item_expression, hvalue, pure_bind, pure_bind, Eval.shown,
      Reference.dereference_of_not_reference _ hv, pure_bind]
  simp only [Program.evaluate, Program.units, List.map_cons, List.map_nil, hitem]
  rfl

/-- The text of the value is read as the tree, but for places, and without an error. -/
theorem Value.Spells.program (h : v.Spells e) :
    (Grammar.program .interactive (tokens v.text)).1.map Token.unplaced =
        .interactive [.expression e] ∧
      (Grammar.program .interactive (tokens v.text)).2 = [] := by
  obtain ⟨htokens, -, -⟩ := (h.scans [] nofun).text
  have hmapped := congrArg (Grammar.program .interactive) htokens
  have hrelabel : Grammar.program .interactive ((tokens v.text).map Token.unplaced) =
      ((Grammar.program .interactive (tokens v.text)).1.map Token.unplaced,
        (Grammar.program .interactive (tokens v.text)).2.map (SyntaxError.relabel unplaced)) :=
    Grammar.program_relabel unplaced .interactive rfl
  rw [hrelabel, Grammar.prompt_print .written rfl h.respects (h.opens _)] at hmapped
  obtain ⟨hprogram, herrors⟩ := Prod.mk.inj hmapped
  exact ⟨hprogram, List.map_eq_nil_iff.1 herrors⟩

/-- What is read from the text comes to the value, and to nothing else. -/
theorem Value.Spells.evaluation (h : v.Spells e) (hv : Reference.isReference v = false) :
    ((Grammar.program .interactive (tokens v.text)).1.evaluate ∅).1 = ⟨[.ok (some v)], []⟩ := by
  have hevaluation := Program.evaluate_map (f := Token.unplaced) (fun _ => rfl)
    (Grammar.program .interactive (tokens v.text)).1
  rw [h.program.1, h.evaluate hv] at hevaluation
  generalize ((Grammar.program .interactive (tokens v.text)).1.evaluate ∅).1 = evaluated
    at hevaluation
  obtain ⟨results, warnings⟩ := evaluated
  obtain ⟨hresults, hwarnings⟩ := Evaluation.mk.inj hevaluation
  obtain rfl := List.map_eq_nil_iff.1 hwarnings.symm
  obtain ⟨r, rfl, hr⟩ := List.map_eq_singleton_iff.1 hresults.symm
  cases r with
  | error _ => cases hr
  | ok _ =>
    cases hr
    rfl

end Prompt

namespace Session

/-- **Printed values read back.** The text of a value that is made of booleans, integers, decimals
that are written with a point, and lists of these, nested at will, comes at the prompt of a fresh
session to that very value and to no other, without an error and without a warning. -/
theorem run_text (v : Value) (hv : v.Literate) :
    (run {} .interactive v.text).1.values = [v] ∧
      (run {} .interactive v.text).1.errors = [] ∧
      (run {} .interactive v.text).1.warnings = [] ∧ (eval {} v.text).1 = .ok [v] := by
  obtain ⟨e, he⟩ := exists_spells v hv
  obtain ⟨-, hscanned, hnoted⟩ := (he.scans [] nofun).text
  have hrun : (run {} .interactive v.text).1 =
      { values := [v], lexical := scanDiagnostics v.text, syntactic := Grammar.diagnostics []
        evaluation := { phase := .evaluation } } := by
    simp only [run, he.evaluation hv.not_reference, he.program.2]
    rfl
  have hno : (run {} .interactive v.text).1.errors = [] := by
    rw [hrun]
    simp [Outcome.errors, Outcome.phases, hscanned, Grammar.diagnostics]
  refine ⟨by rw [hrun], hno, ?_, ?_⟩
  · rw [hrun]
    simp [Outcome.warnings, Outcome.phases, hnoted, Grammar.diagnostics]
  · have hresult : (eval {} v.text).1 = (run {} .interactive v.text).1.result := rfl
    rw [hresult, Outcome.result, hno, hrun]

/-- A list with a negative number, small decimals and a list without items. -/
def mixture : Value :=
  .list [.integer (-12), .list [.boolean true, .list []], .decimal ⟨-5, 6⟩, .decimal ⟨1230, 2⟩]

theorem run_text_mixture : mixture.text = "[-12, [true, []], -0.000005, 12.30]" ∧
    mixture.Literate ∧ (run {} .interactive mixture.text).1.values = [mixture] ∧
      (run {} .interactive mixture.text).1.errors = [] ∧
      (run {} .interactive mixture.text).1.warnings = [] ∧
      (eval {} mixture.text).1 = .ok [mixture] := by
  have hsmall : (⟨-5, 6⟩ : Decimal).WrittenWithPoint := by decide
  have hplain : (⟨1230, 2⟩ : Decimal).WrittenWithPoint := by decide
  have hliterate : mixture.Literate :=
    ⟨trivial, ⟨trivial, trivial, trivial⟩, hsmall, hplain, trivial⟩
  exact ⟨by decide +kernel, hliterate, run_text mixture hliterate⟩

end Session

end LazyDecl
