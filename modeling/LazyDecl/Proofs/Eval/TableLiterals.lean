import LazyDecl.Proofs.Eval.Confinement
import LazyDecl.Proofs.Eval.Moments
import LazyDecl.Proofs.Value.Equality

/-!
Table literals. The evaluator goes through the elements once, and puts each key with its value
into a table that is there already; an equal key keeps its place and its form.

* `sound_keyed`: no two keys of a table are equal, at whatever depth it is;
* `Collects.insert`: what the table has to do with the elements in front of the next one;
* `table_literal`: so in the end each key stands where it came up first, with the last of its
  values, and there is one warning for each element whose key was there already.
-/

namespace LazyDecl

/-! ## Insertion -/

namespace Table

variable {t : Table} {key v : Value}

theorem contains_iff : t.contains key = true ↔ ∃ e ∈ t, (key == e.1) = true := by
  rw [contains, List.any_eq_true]

/-- A key is put at the end, unless an equal one is there. -/
theorem map_fst_insert (t : Table) (key v : Value) : (t.insert key v).map Prod.fst =
    t.map Prod.fst ++ if t.contains key then [] else [key] := by
  induction t with
  | nil => rfl
  | cons e t ih =>
    obtain ⟨k, u⟩ := e
    have hcontains : contains ((k, u) :: t) key = (key == k || contains t key) := rfl
    rw [insert, hcontains]
    cases key == k with
    | true => simp
    | false => simp [ih]

theorem mem_keys_insert {k : Value} : k ∈ (t.insert key v).map Prod.fst ↔
    k ∈ t.map Prod.fst ∨ (t.contains key = false ∧ k = key) := by
  rw [map_fst_insert, List.mem_append]
  cases t.contains key <;> simp

/-- No key is ever taken out. -/
theorem exists_key_insert (key v : Value) {e : Value × Value} (he : e ∈ t) :
    ∃ e' ∈ t.insert key v, e'.1 = e.1 :=
  List.mem_map.1 (mem_keys_insert.2 (.inl (List.mem_map_of_mem he)))

theorem exists_insert_key (hkey : key.Keyed) (v : Value) :
    ∃ e ∈ t.insert key v, (key == e.1) = true := by
  cases hc : t.contains key with
  | true =>
    obtain ⟨e, he, heq⟩ := contains_iff.1 hc
    obtain ⟨e', he', hee'⟩ := exists_key_insert key v he
    exact ⟨e', he', hee' ▸ heq⟩
  | false =>
    obtain ⟨e, he, hek⟩ := List.mem_map.1 (mem_keys_insert.2 (.inr ⟨hc, rfl⟩))
    refine ⟨e, he, ?_⟩
    rw [hek]
    exact Value.equivOn_keyed.refl hkey

/-- The new value stands under the key that is equal to its own, and elsewhere nothing has
changed. -/
theorem mem_insert (ht : (Value.table t).Keyed) (hkey : key.Keyed) {e : Value × Value}
    (h : e ∈ t.insert key v) :
    ((key == e.1) = true ∧ e.2 = v) ∨ ((key == e.1) = false ∧ e ∈ t) := by
  induction t with
  | nil =>
    obtain rfl := List.mem_singleton.1 h
    exact .inl ⟨Value.equivOn_keyed.refl hkey, rfl⟩
  | cons f t ih =>
    obtain ⟨k, u⟩ := f
    obtain ⟨hdistinct, hparts⟩ := Value.keyed_table.1 ht
    obtain ⟨hk, hdistinct⟩ := List.pairwise_cons.1 hdistinct
    obtain ⟨⟨hkkeyed, -⟩, hparts⟩ := List.forall_mem_cons.1 hparts
    rw [insert] at h
    cases hhead : key == k with
    | true =>
      rw [hhead] at h
      rcases List.mem_cons.1 h with rfl | h
      · exact .inl ⟨hhead, rfl⟩
      · -- a second equal key would be equal to the first one
        refine .inr ⟨Bool.eq_false_iff.2 fun heq => ?_, List.mem_cons_of_mem _ h⟩
        have hsame : (k == e.1) = true :=
          Value.equivOn_keyed.of_left hkey hkkeyed (hparts e h).1 hhead heq
        exact absurd hsame (Bool.eq_false_iff.1 (hk e h))
    | false =>
      rw [hhead] at h
      rcases List.mem_cons.1 h with rfl | h
      · exact .inr ⟨hhead, List.mem_cons_self ..⟩
      · rcases ih (Value.keyed_table.2 ⟨hdistinct, hparts⟩) h with hnew | ⟨hne, hold⟩
        · exact .inl hnew
        · exact .inr ⟨hne, List.mem_cons_of_mem _ hold⟩

end Table

/-! ## Keys are pairwise unequal -/

namespace Value

theorem keyed_ofLiteral (l : Literal) : (ofLiteral l).Keyed := by
  cases l <;> simp only [ofLiteral, Keyed]

theorem distinct_insert {t : Table} {key : Value} (ht : (table t).Keyed) (hkey : key.Keyed)
    (v : Value) : (t.insert key v).Distinct := by
  obtain ⟨hdistinct, hparts⟩ := keyed_table.1 ht
  have hkeys : (t.map Prod.fst).Pairwise fun k l => (k == l) = false :=
    List.pairwise_map.2 hdistinct
  have hall : ((t.insert key v).map Prod.fst).Pairwise fun k l => (k == l) = false := by
    rw [Table.map_fst_insert]
    cases hc : t.contains key with
    | true => simpa using hkeys
    | false =>
      refine List.pairwise_append.2 ⟨hkeys, List.pairwise_singleton .., fun k hk l hl => ?_⟩
      obtain rfl := List.mem_singleton.1 hl
      obtain ⟨e, he, rfl⟩ := List.mem_map.1 hk
      refine Bool.eq_false_iff.2 fun heq => ?_
      have hback := equivOn_keyed.symm (hparts e he).1 hkey heq
      exact absurd (Table.contains_iff.2 ⟨e, he, hback⟩) (Bool.eq_false_iff.1 hc)
  exact List.pairwise_map.1 hall

theorem keyed_insert {t : Table} {key v : Value} (ht : (table t).Keyed) (hkey : key.Keyed)
    (hv : v.Keyed) : (table (t.insert key v)).Keyed := by
  obtain ⟨-, hparts⟩ := keyed_table.1 ht
  refine keyed_table.2 ⟨distinct_insert ht hkey v, fun e he => ?_⟩
  rcases Table.mem_insert ht hkey he with ⟨-, hev⟩ | ⟨-, hold⟩
  · refine ⟨?_, hev ▸ hv⟩
    rcases Table.mem_keys_insert.1 (List.mem_map_of_mem he) with hin | ⟨-, hek⟩
    · obtain ⟨f, hf, hfe⟩ := List.mem_map.1 hin
      exact hfe ▸ (hparts f hf).1
    · exact hek ▸ hkey
  · exact hparts e hold

end Value

theorem Operates.keyed {v : Value} (h : Operates (.ok v)) : v.Keyed := by
  cases h <;> simp only [Value.Keyed]

namespace Discipline

/-- No two keys of a table are equal. Nothing is asked of trees or of causes. -/
def keyed : Discipline where
  tree _ := True
  value := Value.Keyed
  error _ := True
  body _ := trivial
  expected _ _ := trivial

section Keyed

variable {force : Token → Eval Value}

theorem keyed_fail {α : Type} {Q : α → Prop} (cause : EvalCause) (t : Token) :
    keyed.Keeps Q (Eval.fail cause t) := .fail trivial t

theorem keyed_lift (t : Token) {r : Except EvalCause Value} (h : Operates r) :
    keyed.Keeps Value.Keyed (Eval.lift t r) :=
  .lift (fun _ hv => (hv ▸ h).keyed) (fun _ _ => trivial) t

theorem keyed_decideBy (op : LogicalOp) (operator : Token) (l : Value) {right : Eval Value}
    (h : keyed.Keeps Value.Keyed right) :
    keyed.Keeps Value.Keyed (Eval.decideBy op operator l right) := by
  unfold Eval.decideBy
  cases l.boolean? with
  | none => exact keyed_fail _ operator
  | some b =>
    refine .ite (fun _ => .pure (by simp only [Value.Keyed])) fun _ => h.bind fun r hr => ?_
    exact .ite (fun _ => keyed_fail _ operator) fun _ => .pure hr

theorem keyed_nameOr {wrap : String → Value} (hwrap : ∀ s, (wrap s).Keyed) (name? : Option Token)
    {key : Eval Value} (h : keyed.Keeps Value.Keyed key) :
    keyed.Keeps Value.Keyed (Eval.nameOr wrap name? key) := by
  cases name? with
  | none => exact h
  | some t => exact .pure (hwrap t.lexeme)

mutual

theorem keyed_valueOver (hf : ∀ t, keyed.Keeps Value.Keyed (force t)) (e : Expr) :
    keyed.Keeps Value.Keyed (Eval.valueOver force e) := by
  match e with
  | .literal value token => exact .pure (Value.keyed_ofLiteral value)
  | .name token => exact hf token
  | .grouping inner => exact keyed_valueOver hf inner
  | .unary op operator operand =>
    rw [Eval.valueOver_unary]
    refine .ite (fun _ => keyed_fail _ operator) fun _ => ?_
    exact (keyed_valueOver hf operand).bind fun v _ => keyed_lift operator (op.operates v)
  | .binary op operator left right =>
    rw [Eval.valueOver_binary]
    refine (keyed_valueOver hf left).bind fun l _ => (keyed_valueOver hf right).bind fun r _ => ?_
    exact keyed_lift operator (BinaryOp.operates operator.lexeme l r op)
  | .logical op operator left right =>
    rw [Eval.valueOver_logical]
    exact (keyed_valueOver hf left).bind fun l _ =>
      keyed_decideBy op operator l (keyed_valueOver hf right)
  | .binding left colon right =>
    rw [Eval.valueOver_binding]
    refine (keyed_nameOr (fun _ => ?_) left.name? (keyed_valueOver hf left)).bind fun key hkey =>
      (keyed_valueOver hf right).bind fun v hv => .pure ?_
    · simp only [Value.Keyed]
    · exact ⟨hkey, hv⟩
  | .sequence opening elements =>
    rw [Eval.valueOver_sequence]
    refine .ite (fun _ => ?_) fun _ => ?_
    · have hempty : (Value.table []).Keyed := ⟨.nil, trivial⟩
      exact (keyed_entriesOver hf [] elements hempty).bind fun t ht => .pure ht
    · exact (keyed_itemsOver hf elements).bind fun vs hvs => .pure hvs
  | .builder kind body => exact .pure (by simp only [Value.Keyed])

theorem keyed_itemsOver (hf : ∀ t, keyed.Keeps Value.Keyed (force t)) (es : List Expr) :
    keyed.Keeps itemsKeyed (Eval.itemsOver force es) := by
  match es with
  | [] => exact .pure trivial
  | e :: es =>
    rw [Eval.itemsOver_cons]
    refine .ite (fun _ => keyed_fail _ _) fun _ => ?_
    exact (keyed_valueOver hf e).bind fun v hv =>
      (keyed_itemsOver hf es).bind fun vs hvs => .pure ⟨hv, hvs⟩

theorem keyed_entriesOver (hf : ∀ t, keyed.Keeps Value.Keyed (force t)) (t : Table)
    (es : List Expr) (ht : (Value.table t).Keyed) :
    keyed.Keeps (fun t => (Value.table t).Keyed) (Eval.entriesOver force t es) := by
  match es with
  | [] => exact .pure ht
  | .binding left colon right :: es =>
    rw [Eval.entriesOver_binding]
    refine (keyed_nameOr (fun _ => ?_) left.name? (keyed_valueOver hf left)).bind fun key hkey =>
      (keyed_valueOver hf right).bind fun v hv => ?_
    · simp only [Value.Keyed]
    have hwarn : keyed.Keeps (fun _ => True)
        (Eval.warnIf (t.contains key) (.duplicateKey key) colon) :=
      .ite (fun _ => .warn _ colon) fun _ => .pure trivial
    exact hwarn.bind fun _ _ =>
      keyed_entriesOver hf (t.insert key v) es (Value.keyed_insert ht hkey hv)
  | .literal .. :: es | .name .. :: es | .grouping .. :: es | .unary .. :: es
  | .binary .. :: es | .logical .. :: es | .sequence .. :: es | .builder .. :: es =>
    rw [Eval.entriesOver_other _ _ rfl]
    exact keyed_fail _ _

end

/-- **No two keys of a table are equal,** in any value that an expression comes to. -/
theorem sound_keyed : keyed.Sound := fun _ hf e _ => keyed_valueOver hf e

end Keyed

end Discipline

/-! ## What a literal comes to -/

/-- An element of a table literal, once it is evaluated. -/
structure Entry where
  key : Value
  colon : Token
  value : Value
  /-- What is warned of while the key and the value are evaluated. -/
  inner : List EvalWarning

namespace Entry

/-- Whether the key equals that of one of the elements in front. -/
def repeats (front : List Entry) (x : Entry) : Bool := front.any (x.key == ·.key)

/-- The elements behind `front`, each with whether its key equals an earlier one. -/
def marked (front : List Entry) : List Entry → List (Entry × Bool)
  | [] => []
  | x :: xs => (x, x.repeats front) :: marked (front ++ [x]) xs

/-- The keys that equal no earlier one. -/
def firstKeys (xs : List Entry) : List Value :=
  ((marked [] xs).filter (!·.2)).map (·.1.key)

/-- The last element whose key equals the given one. -/
def last? (xs : List Entry) (key : Value) : Option Entry := xs.reverse.find? (·.key == key)

/-- What an element is warned of: within its key and its value, and then at its colon, if its
key equals an earlier one. -/
def warnings : Entry × Bool → List EvalWarning
  | (x, again) => x.inner ++ if again then [⟨.duplicateKey x.key, x.colon⟩] else []

end Entry

/-- From a table of declarations, the key in front of a colon comes to a value and to a table.
A bare name is taken as it stands, and not looked up. -/
inductive KeyComesTo (d : Declarations Expr Value) :
    Expr → Value → Declarations Expr Value → List EvalWarning → Prop
  | name (t : Token) : KeyComesTo d (.name t) (.string t.lexeme) d []
  | other {left : Expr} {key : Value} {d' : Declarations Expr Value} {ws : List EvalWarning} :
      left.name? = none → Eval.value left ⟨d, []⟩ = .ok key ⟨d', ws⟩ → KeyComesTo d left key d' ws

/-- The elements are bindings, and their keys and values all evaluate, one after the other. -/
inductive Evaluated : Declarations Expr Value → List Expr → List Entry →
    Declarations Expr Value → Prop
  | nil (d : Declarations Expr Value) : Evaluated d [] [] d
  | cons {d d₁ d₂ d₃ : Declarations Expr Value} {left right : Expr} {colon : Token}
      {key v : Value} {ws ws' : List EvalWarning} {es : List Expr} {xs : List Entry} :
      KeyComesTo d left key d₁ ws → Eval.value right ⟨d₁, []⟩ = .ok v ⟨d₂, ws'⟩ →
      Evaluated d₂ es xs d₃ →
      Evaluated d (.binding left colon right :: es) (⟨key, colon, v, ws ++ ws'⟩ :: xs) d₃

/-- The table holds the elements so far. -/
structure Collects (front : List Entry) (t : Table) : Prop where
  table : (Value.table t).Keyed
  elements : ∀ x ∈ front, x.key.Keyed
  keys : t.map Prod.fst = Entry.firstKeys front
  covers : ∀ x ∈ front, ∃ e ∈ t, (x.key == e.1) = true
  last : ∀ e ∈ t, (Entry.last? front e.1).map (·.value) = some e.2

namespace Entry

theorem marked_concat (front xs : List Entry) (x : Entry) :
    marked front (xs ++ [x]) = marked front xs ++ [(x, x.repeats (front ++ xs))] := by
  induction xs generalizing front with
  | nil => simp [marked]
  | cons y ys ih => simp [marked, ih]

theorem map_fst_marked (front xs : List Entry) : (marked front xs).map Prod.fst = xs := by
  induction xs generalizing front with
  | nil => rfl
  | cons y ys ih => simp [marked, ih]

theorem firstKeys_concat (xs : List Entry) (x : Entry) :
    firstKeys (xs ++ [x]) = firstKeys xs ++ if x.repeats xs then [] else [x.key] := by
  rw [firstKeys, marked_concat, List.filter_append, List.map_append, firstKeys]
  cases h : x.repeats xs <;> simp [h]

theorem exists_of_mem_firstKeys {xs : List Entry} {key : Value} (h : key ∈ firstKeys xs) :
    ∃ x ∈ xs, x.key = key := by
  obtain ⟨⟨x, again⟩, hx, rfl⟩ := List.mem_map.1 h
  have hmarked : x ∈ (marked [] xs).map Prod.fst := List.mem_map_of_mem (List.mem_filter.1 hx).1
  rw [map_fst_marked] at hmarked
  exact ⟨x, hmarked, rfl⟩

theorem last?_concat (xs : List Entry) (x : Entry) (key : Value) :
    last? (xs ++ [x]) key = if x.key == key then some x else last? xs key := by
  simp only [last?, List.reverse_append, List.reverse_singleton, List.singleton_append,
    List.find?_cons]
  cases x.key == key <;> rfl

end Entry

namespace Collects

variable {front : List Entry} {t : Table}

theorem empty : Collects [] [] := ⟨⟨.nil, trivial⟩, nofun, rfl, nofun, nofun⟩

/-- A key is in the table just if an earlier element has an equal one. -/
theorem contains_eq (h : Collects front t) {x : Entry} (hx : x.key.Keyed) :
    t.contains x.key = x.repeats front := by
  obtain ⟨-, hparts⟩ := Value.keyed_table.1 h.table
  refine Bool.eq_iff_iff.2 ⟨fun hc => ?_, fun hr => ?_⟩
  · obtain ⟨e, he, heq⟩ := Table.contains_iff.1 hc
    have hin : e.1 ∈ Entry.firstKeys front := h.keys ▸ List.mem_map_of_mem he
    obtain ⟨y, hy, hykey⟩ := Entry.exists_of_mem_firstKeys hin
    exact List.any_eq_true.2 ⟨y, hy, hykey ▸ heq⟩
  · obtain ⟨y, hy, heq⟩ := List.any_eq_true.1 hr
    obtain ⟨e, he, hye⟩ := h.covers y hy
    exact Table.contains_iff.2
      ⟨e, he, Value.equivOn_keyed.trans hx (h.elements y hy) (hparts e he).1 heq hye⟩

/-- **The next element is put in.** -/
theorem insert (h : Collects front t) {x : Entry} (hkey : x.key.Keyed) (hvalue : x.value.Keyed) :
    Collects (front ++ [x]) (t.insert x.key x.value) := by
  refine ⟨Value.keyed_insert h.table hkey hvalue, ?_, ?_, fun y hy => ?_, fun e he => ?_⟩
  · exact List.forall_mem_append.2 ⟨h.elements, List.forall_mem_singleton.2 hkey⟩
  · rw [Table.map_fst_insert, h.keys, h.contains_eq hkey, Entry.firstKeys_concat]
  · rcases List.mem_append.1 hy with hy | hy
    · obtain ⟨e, he, heq⟩ := h.covers y hy
      obtain ⟨e', he', hee'⟩ := Table.exists_key_insert x.key x.value he
      exact ⟨e', he', hee' ▸ heq⟩
    · obtain rfl := List.mem_singleton.1 hy
      exact Table.exists_insert_key hkey y.value
  · rw [Entry.last?_concat]
    rcases Table.mem_insert h.table hkey he with ⟨heq, hev⟩ | ⟨hne, hold⟩
    · rw [heq, hev]
      rfl
    · rw [hne]
      exact h.last e hold

end Collects

/-! ## The loop -/

namespace Eval

/-- Puts the elements of a table literal into a table. -/
def entries (t : Table) (es : List Expr) : Eval Table := entriesOver force t es

theorem entries_binding (t : Table) (left : Expr) (colon : Token) (right : Expr)
    (es : List Expr) : entries t (.binding left colon right :: es) =
      nameOr .string left.name? (value left) >>= fun key => value right >>= fun v =>
        warnIf (t.contains key) (.duplicateKey key) colon >>= fun _ =>
          entries (t.insert key v) es :=
  entriesOver_binding force t left colon right es

theorem value_sequence (opening : Token) {elements : List Expr}
    (h : elements.head?.any Expr.isBinding = true) :
    value (.sequence opening elements) = entries [] elements >>= fun t => pure (.table t) :=
  (valueOver_sequence force opening elements).trans (if_pos h)

end Eval

theorem KeyComesTo.framed {d d' : Declarations Expr Value} {left : Expr} {key : Value}
    {ws : List EvalWarning} (h : KeyComesTo d left key d' ws) (front : List EvalWarning) :
    Eval.nameOr .string left.name? (Eval.value left) ⟨d, front⟩ = .ok key ⟨d', front ++ ws⟩ := by
  cases h with
  | name t =>
    rw [List.append_nil]
    rfl
  | other hname hvalue =>
    rw [hname]
    exact Eval.value_framed hvalue front

section Loop

variable {d d' : Declarations Expr Value}

theorem keyed_of_value {e : Expr} {v : Value} {ws : List EvalWarning}
    (h : Eval.value e ⟨d, []⟩ = .ok v ⟨d', ws⟩) (hd : Discipline.keyed.InTable d) :
    v.Keyed ∧ Discipline.keyed.InTable d' := by
  have hallows := Discipline.sound_keyed.value (e := e) trivial ⟨d, []⟩ hd
  rw [h] at hallows
  cases hallows with
  | ok hv hd' => exact ⟨hv, hd'⟩

theorem KeyComesTo.keyed {left : Expr} {key : Value} {ws : List EvalWarning}
    (h : KeyComesTo d left key d' ws) (hd : Discipline.keyed.InTable d) :
    key.Keyed ∧ Discipline.keyed.InTable d' := by
  cases h with
  | name t => exact ⟨by simp only [Value.Keyed], hd⟩
  | other _ hvalue => exact keyed_of_value hvalue hd

/-- **The loop over the elements,** from a table that holds those in front. -/
theorem Evaluated.entries {es : List Expr} {xs : List Entry} (h : Evaluated d es xs d')
    (hd : Discipline.keyed.InTable d) {front : List Entry} {t : Table} (ht : Collects front t)
    (ws : List EvalWarning) :
    ∃ t', Eval.entries t es ⟨d, ws⟩ =
        .ok t' ⟨d', ws ++ (Entry.marked front xs).flatMap Entry.warnings⟩ ∧
      Collects (front ++ xs) t' := by
  induction h generalizing front t ws with
  | nil d =>
    refine ⟨t, ?_, by simpa using ht⟩
    rw [Entry.marked, List.flatMap_nil, List.append_nil]
    rfl
  | @cons d d₁ d₂ d₃ left right colon key v wsKey wsValue es xs hkey hvalue hrest ih =>
    obtain ⟨hkeyed, hd₁⟩ := hkey.keyed hd
    obtain ⟨hvkeyed, hd₂⟩ := keyed_of_value hvalue hd₁
    let x : Entry := ⟨key, colon, v, wsKey ++ wsValue⟩
    have hcontains : t.contains key = x.repeats front := ht.contains_eq (x := x) hkeyed
    obtain ⟨t', hloop, hcollects⟩ := ih hd₂ (ht.insert (x := x) hkeyed hvkeyed)
      (ws ++ wsKey ++ wsValue ++ if x.repeats front then [⟨.duplicateKey key, colon⟩] else [])
    refine ⟨t', ?_, by simpa using hcollects⟩
    rw [Eval.entries_binding, Eval.bind_ok (hkey.framed ws),
      Eval.bind_ok (Eval.value_framed hvalue _), hcontains, Eval.bind_ok (Eval.warnIf_eq ..)]
    simpa [Entry.marked, Entry.warnings] using hloop

end Loop

/-- **Table literals.** Wherever a session may stand, a table literal whose keys and values all
evaluate comes to a table. No two of its keys are equal; they are the keys of the elements that
equal no earlier one, in their order and as they are there. Each has the value of the last
element with an equal key. The warnings are those that the keys and values give rise to, and
among them one at the colon of each element whose key equals an earlier one, behind its value. -/
theorem table_literal {s : EvalState} (hs : Reachable s) (opening : Token)
    {elements : List Expr} (hne : elements ≠ []) {xs : List Entry}
    {d' : Declarations Expr Value} (h : Evaluated s.declarations elements xs d') :
    ∃ t : Table,
      Eval.value (.sequence opening elements) s =
        .ok (.table t) ⟨d', s.warnings ++ (Entry.marked [] xs).flatMap Entry.warnings⟩ ∧
      t.Distinct ∧ t.map Prod.fst = Entry.firstKeys xs ∧
      (∀ x ∈ xs, ∃ e ∈ t, (x.key == e.1) = true) ∧
      ∀ e ∈ t, (Entry.last? xs e.1).map (·.value) = some e.2 := by
  have hd := hs.inTable Discipline.sound_keyed fun _ => trivial
  obtain ⟨t, hloop, hcollects⟩ := h.entries hd .empty s.warnings
  rw [List.nil_append] at hcollects
  refine ⟨t, ?_, hcollects.table.1, hcollects.keys, hcollects.covers, hcollects.last⟩
  have hfirst : elements.head?.any Expr.isBinding = true := by
    cases h with
    | nil => exact absurd rfl hne
    | cons => rfl
  rw [Eval.value_sequence opening hfirst, Eval.bind_ok hloop]
  rfl

namespace TableLiteral

/-- A colon of the first line. -/
def colonAt (column : Nat) : Token := ⟨.colon, ":", ⟨1, column⟩, false⟩

def word (lexeme : String) : Token := ⟨.identifier, lexeme, .start, false⟩

def number (n : Int) : Expr := .literal (.integer n) (word (toString n))

def quoted (s : String) : Expr := .literal (.string s) (word s)

/-- The elements of `[a: 1, "b": [c: 1, c: 2], "a": 3]`. -/
def overwritten : List Expr :=
  [.binding (.name (word "a")) (colonAt 3) (number 1),
    .binding (quoted "b") (colonAt 11)
      (.sequence (word "[") [.binding (.name (word "c")) (colonAt 15) (number 1),
        .binding (.name (word "c")) (colonAt 21) (number 2)]),
    .binding (quoted "a") (colonAt 30) (number 3)]

theorem table_literal_overwritten :
    Reachable ⟨∅, []⟩ ∧ overwritten ≠ [] ∧ ∃ xs t,
      Evaluated ∅ overwritten xs ∅ ∧
      Eval.value (.sequence (word "[") overwritten) ⟨∅, []⟩ = .ok (.table t) ⟨∅,
        [⟨.duplicateKey (.string "c"), colonAt 21⟩, ⟨.duplicateKey (.string "a"), colonAt 30⟩]⟩ ∧
      t.map Prod.fst = [.string "a", .string "b"] := by
  have hreachable : Reachable ⟨∅, []⟩ := reachable_stateBefore []
    (.interactive [.expression (.sequence (word "[") overwritten)]) ⟨0, by decide⟩ rfl
  have hne : overwritten ≠ [] := nofun
  have hevaluated : Evaluated ∅ overwritten
      [⟨.string "a", colonAt 3, .integer 1, []⟩,
        ⟨.string "b", colonAt 11, .table [(.string "c", .integer 2)],
          [⟨.duplicateKey (.string "c"), colonAt 21⟩]⟩,
        ⟨.string "a", colonAt 30, .integer 3, []⟩] ∅ := by
    have hfirst : KeyComesTo ∅ (.name (word "a")) (.string "a") ∅ [] := .name _
    have hsecond : KeyComesTo ∅ (quoted "b") (.string "b") ∅ [] := .other rfl rfl
    have hthird : KeyComesTo ∅ (quoted "a") (.string "a") ∅ [] := .other rfl rfl
    have hone : Eval.value (number 1) ⟨∅, []⟩ = .ok (.integer 1) ⟨∅, []⟩ := rfl
    have hthree : Eval.value (number 3) ⟨∅, []⟩ = .ok (.integer 3) ⟨∅, []⟩ := rfl
    exact .cons hfirst hone (.cons hsecond rfl (.cons hthird hthree (.nil ∅)))
  obtain ⟨t, hvalue, -, hkeys, -⟩ := table_literal hreachable (word "[") hne hevaluated
  exact ⟨hreachable, hne, _, t, hevaluated, hvalue, hkeys⟩

end TableLiteral

end LazyDecl
