import Mathlib.Data.List.Forall2
import LazyDecl.Eval.Operator
import LazyDecl.Proofs.Decimal.Worth

/-!
Equality of values. Tables are compared by looking every key of the one up in the other, which
is an equivalence only as long as no two keys of a table are equal: then the entries of equal
tables can be put side by side (`table_beq_iff_perm`), and nothing is left over on either side.

* `Value.Same`: what equality asks of the outermost parts of two values;
* `equivOn_within`: it is an equivalence on all values of a size, by induction on the size, as
  what holds of tables rests on all three laws for their keys;
* `value_equality`: so it is one at any depth, and containers respect it.
-/

namespace LazyDecl

/-! ## Keys that differ -/

/-- No key equals a later one. -/
def Table.Distinct (t : Table) : Prop := t.Pairwise fun e f => (e.1 == f.1) = false

mutual

/-- The keys of each table in the value are pairwise unequal. -/
def Value.Keyed : Value → Prop
  | .list items => itemsKeyed items
  | .table entries => Table.Distinct entries ∧ entriesKeyed entries
  | .pair key value => key.Keyed ∧ value.Keyed
  | .boolean _ | .integer _ | .decimal _ | .string _ | .reference _ | .builder _ => True

def itemsKeyed : List Value → Prop
  | [] => True
  | v :: vs => v.Keyed ∧ itemsKeyed vs

def entriesKeyed : List (Value × Value) → Prop
  | [] => True
  | (key, value) :: rest => key.Keyed ∧ value.Keyed ∧ entriesKeyed rest

end

theorem itemsKeyed_iff {vs : List Value} : itemsKeyed vs ↔ ∀ v ∈ vs, v.Keyed := by
  induction vs with
  | nil => simp [itemsKeyed]
  | cons v vs ih => simp [itemsKeyed, ih]

theorem entriesKeyed_iff {es : List (Value × Value)} :
    entriesKeyed es ↔ ∀ e ∈ es, e.1.Keyed ∧ e.2.Keyed := by
  induction es with
  | nil => simp [entriesKeyed]
  | cons e es ih =>
    obtain ⟨key, value⟩ := e
    simp [entriesKeyed, ih, and_assoc]

/-! ## One level of equality -/

/-- Entries with equal keys and equal values. -/
def Value.Alike (e f : Value × Value) : Prop := (e.1 == f.1) = true ∧ (e.2 == f.2) = true

/-- Values of one kind with equal parts. -/
inductive Value.Same : Value → Value → Prop
  | boolean (b : Bool) : Same (.boolean b) (.boolean b)
  | integer (n : Int) : Same (.integer n) (.integer n)
  | decimal {a b : Decimal} : a.worth = b.worth → Same (.decimal a) (.decimal b)
  | string (s : String) : Same (.string s) (.string s)
  | list {vs ws : List Value} : List.Forall₂ (fun v w => (v == w) = true) vs ws →
      Same (.list vs) (.list ws)
  | table {es fs : List (Value × Value)} : es.length = fs.length →
      (∀ e ∈ es, ∃ f, fs.find? (e.1 == ·.1) = some f ∧ (e.2 == f.2) = true) →
      Same (.table es) (.table fs)
  | pair {k l v w : Value} : (k == l) = true → (v == w) = true → Same (.pair k v) (.pair l w)
  | reference (name : String) : Same (.reference name) (.reference name)
  | builder (kind : String) : Same (.builder kind) (.builder kind)

namespace Value

theorem beqItems_iff {vs ws : List Value} :
    beqItems vs ws = true ↔ List.Forall₂ (fun v w => (v == w) = true) vs ws := by
  induction vs generalizing ws with
  | nil => cases ws <;> simp [beqItems]
  | cons v vs ih =>
    cases ws with
    | nil => simp [beqItems]
    | cons w ws =>
      rw [beqItems, Bool.and_eq_true, List.forall₂_cons, ih]
      rfl

theorem beqEntries_iff {es fs : List (Value × Value)} :
    beqEntries es fs = true ↔
      ∀ e ∈ es, ∃ f, fs.find? (e.1 == ·.1) = some f ∧ (e.2 == f.2) = true := by
  induction es with
  | nil => simp [beqEntries]
  | cons e es ih =>
    obtain ⟨key, value⟩ := e
    rw [beqEntries, Bool.and_eq_true, List.forall_mem_cons, ih]
    refine and_congr_left' ?_
    have hfind : (fs.find? fun f => beq key f.1) = fs.find? (key == ·.1) := rfl
    rw [hfind]
    cases fs.find? (key == ·.1) with
    | none => simp
    | some f =>
      simp only [Option.some.injEq, exists_eq_left']
      rfl

theorem Same.of_beq {v w : Value} (h : beq v w = true) : Same v w := by
  cases v <;> cases w <;> simp only [beq, Bool.and_eq_true, beq_iff_eq, Bool.false_eq_true] at h
  case boolean.boolean a b =>
    subst h
    exact .boolean a
  case integer.integer a b =>
    subst h
    exact .integer a
  case decimal.decimal a b => exact .decimal ((Decimal.beq_iff a b).1 h)
  case string.string a b =>
    subst h
    exact .string a
  case list.list vs ws => exact .list (beqItems_iff.1 h)
  case table.table es fs => exact .table h.1 (beqEntries_iff.1 h.2)
  case pair.pair k v l w => exact .pair h.1 h.2
  case reference.reference a b =>
    subst h
    exact .reference a
  case builder.builder a b =>
    subst h
    exact .builder a

theorem Same.beq {v w : Value} (h : Same v w) : Value.beq v w = true := by
  cases h with
  | boolean | integer | string | reference | builder => simp [Value.beq]
  | decimal h => exact (Decimal.beq_iff _ _).2 h
  | list h => exact beqItems_iff.2 h
  | table hlength h =>
    rw [Value.beq, Bool.and_eq_true, beq_iff_eq]
    exact ⟨hlength, beqEntries_iff.2 h⟩
  | pair hkey hvalue =>
    rw [Value.beq, Bool.and_eq_true]
    exact ⟨hkey, hvalue⟩

/-- Equality, one level at a time. -/
theorem same_iff {v w : Value} : (v == w) = true ↔ Same v w := ⟨Same.of_beq, Same.beq⟩

/-! ## Tables -/

/-- Equality is an equivalence among the values with `P`. -/
structure EquivOn (P : Value → Prop) : Prop where
  refl : ∀ {v}, P v → (v == v) = true
  symm : ∀ {v w}, P v → P w → (v == w) = true → (w == v) = true
  trans : ∀ {u v w}, P u → P v → P w → (u == v) = true → (v == w) = true → (u == w) = true

section Tables

variable {P : Value → Prop} {es fs gs : Table}

theorem EquivOn.of_left (hP : EquivOn P) {k v w : Value} (hk : P k) (hv : P v) (hw : P w)
    (h : (k == v) = true) (h' : (k == w) = true) : (v == w) = true :=
  hP.trans hv hk hw (hP.symm hk hv h) h'

theorem EquivOn.of_right (hP : EquivOn P) {k v w : Value} (hv : P v) (hw : P w) (hk : P k)
    (h : (v == k) = true) (h' : (w == k) = true) : (v == w) = true :=
  hP.trans hv hk hw h (hP.symm hw hk h')

/-- The entry of a key is found, if it is the only one. -/
theorem EquivOn.find?_eq_some (hP : EquivOn P) (hfs : fs.Distinct) (hkeys : ∀ f ∈ fs, P f.1)
    {k : Value} (hk : P k) {f : Value × Value} (hf : f ∈ fs) (h : (k == f.1) = true) :
    fs.find? (k == ·.1) = some f := by
  induction fs with
  | nil => cases hf
  | cons g fs ih =>
    obtain ⟨hg, hfs⟩ := List.pairwise_cons.1 hfs
    obtain ⟨hgkey, hkeys⟩ := List.forall_mem_cons.1 hkeys
    cases hhead : k == g.1 with
    | true =>
      rw [List.find?_cons, hhead]
      rcases List.mem_cons.1 hf with rfl | hf
      · rfl
      · have hsame : (g.1 == f.1) = true := hP.of_left hk hgkey (hkeys f hf) hhead h
        exact absurd hsame (Bool.eq_false_iff.1 (hg f hf))
    | false =>
      rw [List.find?_cons, hhead]
      rcases List.mem_cons.1 hf with rfl | hf
      · exact absurd h (Bool.eq_false_iff.1 hhead)
      · exact ih hfs hkeys hf

/-- So in equal tables each entry of the one has an entry of the other that is like it. -/
theorem EquivOn.table_beq_iff (hP : EquivOn P) (hfs : fs.Distinct) (hes' : ∀ e ∈ es, P e.1)
    (hfs' : ∀ f ∈ fs, P f.1) :
    (Value.table es == .table fs) = true ↔
      es.length = fs.length ∧ ∀ e ∈ es, ∃ f ∈ fs, Alike e f := by
  rw [same_iff]
  constructor
  · intro h
    cases h with
    | table hlength h =>
      refine ⟨hlength, fun e he => ?_⟩
      obtain ⟨f, hfind, hvalue⟩ := h e he
      have hkey : (e.1 == f.1) = true := by simpa using List.find?_some hfind
      exact ⟨f, List.mem_of_find?_eq_some hfind, hkey, hvalue⟩
  · rintro ⟨hlength, h⟩
    refine .table hlength fun e he => ?_
    obtain ⟨f, hf, hkey, hvalue⟩ := h e he
    exact ⟨f, hP.find?_eq_some hfs hfs' (hes' e he) hf hkey, hvalue⟩

/-- If each entry has one that is like it among equally many, the entries can be put side by
side: no two of them are like the same one. -/
theorem EquivOn.exists_perm (hP : EquivOn P) (hes : es.Distinct) (hes' : ∀ e ∈ es, P e.1)
    (hfs' : ∀ f ∈ fs, P f.1) (hlength : es.length = fs.length)
    (h : ∀ e ∈ es, ∃ f ∈ fs, Alike e f) : ∃ gs, gs.Perm fs ∧ List.Forall₂ Alike es gs := by
  induction es generalizing fs with
  | nil =>
    obtain rfl := List.length_eq_zero_iff.1 hlength.symm
    exact ⟨[], .refl _, .nil⟩
  | cons e es ih =>
    obtain ⟨he, hes⟩ := List.pairwise_cons.1 hes
    obtain ⟨hekey, hes'⟩ := List.forall_mem_cons.1 hes'
    obtain ⟨⟨f, hf, halike⟩, h⟩ := List.forall_mem_cons.1 h
    obtain ⟨before, behind, rfl⟩ := List.append_of_mem hf
    have hmiddle : (before ++ f :: behind).Perm (f :: (before ++ behind)) := List.perm_middle
    have hothers : ∀ e' ∈ es, ∃ f' ∈ before ++ behind, Alike e' f' := by
      intro e' he'
      obtain ⟨f', hf', halike'⟩ := h e' he'
      rcases List.mem_cons.1 (hmiddle.mem_iff.1 hf') with rfl | hf'
      · have hsame : (e.1 == e'.1) = true :=
          hP.of_right hekey (hes' e' he') (hfs' f' hf) halike.1 halike'.1
        exact absurd hsame (Bool.eq_false_iff.1 (he e' he'))
      · exact ⟨f', hf', halike'⟩
    have hlength' : es.length = (before ++ behind).length := by
      simp only [List.length_append, List.length_cons] at hlength ⊢
      omega
    have hrest : ∀ f' ∈ before ++ behind, P f'.1 := fun f' hf' =>
      hfs' f' (hmiddle.mem_iff.2 (List.mem_cons_of_mem _ hf'))
    obtain ⟨gs, hperm, hall⟩ := ih hes hes' hrest hlength' hothers
    exact ⟨f :: gs, (hperm.cons f).trans hmiddle.symm, .cons halike hall⟩

theorem exists_alike (hperm : gs.Perm fs) (hall : List.Forall₂ Alike es gs) :
    es.length = fs.length ∧ ∀ e ∈ es, ∃ f ∈ fs, Alike e f := by
  refine ⟨hall.length_eq.trans hperm.length_eq, fun e he => ?_⟩
  obtain ⟨i, hi, rfl⟩ := List.getElem_of_mem he
  have hi' : i < gs.length := hall.length_eq ▸ hi
  exact ⟨gs[i], hperm.mem_iff.1 (List.getElem_mem hi'), hall.get hi hi'⟩

/-- **Equal tables are the same but for the order and for equal parts.** -/
theorem EquivOn.table_beq_iff_perm (hP : EquivOn P) (hes : es.Distinct) (hfs : fs.Distinct)
    (hes' : ∀ e ∈ es, P e.1) (hfs' : ∀ f ∈ fs, P f.1) :
    (Value.table es == .table fs) = true ↔ ∃ gs, gs.Perm fs ∧ List.Forall₂ Alike es gs := by
  rw [hP.table_beq_iff hfs hes' hfs']
  constructor
  · rintro ⟨hlength, h⟩
    exact hP.exists_perm hes hes' hfs' hlength h
  · rintro ⟨gs, hperm, hall⟩
    exact exists_alike hperm hall

end Tables

/-! ## All depths -/

/-- Its outermost parts have `P`, and if it is a table, then no two of its keys are equal. -/
def PartsHave (P : Value → Prop) : Value → Prop
  | list items => ∀ v ∈ items, P v
  | table entries => Table.Distinct entries ∧ ∀ e ∈ entries, P e.1 ∧ P e.2
  | pair key value => P key ∧ P value
  | boolean _ | integer _ | decimal _ | string _ | reference _ | builder _ => True

section Sides

variable {α : Type} {P : α → Prop} {R : α → α → Prop} {as bs cs : List α}

theorem forall₂_symm (hR : ∀ {a b}, P a → P b → R a b → R b a) (has : ∀ a ∈ as, P a)
    (hbs : ∀ b ∈ bs, P b) (h : List.Forall₂ R as bs) : List.Forall₂ R bs as :=
  List.forall₂_iff_get.2 ⟨h.length_eq.symm, fun i hi hi' =>
    hR (has _ (List.get_mem as ⟨i, hi'⟩)) (hbs _ (List.get_mem bs ⟨i, hi⟩)) (h.get hi' hi)⟩

theorem forall₂_trans (hR : ∀ {a b c}, P a → P b → P c → R a b → R b c → R a c)
    (has : ∀ a ∈ as, P a) (hbs : ∀ b ∈ bs, P b) (hcs : ∀ c ∈ cs, P c)
    (h : List.Forall₂ R as bs) (h' : List.Forall₂ R bs cs) : List.Forall₂ R as cs := by
  refine List.forall₂_iff_get.2 ⟨h.length_eq.trans h'.length_eq, fun i hi hi'' => ?_⟩
  have hi' : i < bs.length := h.length_eq ▸ hi
  exact hR (has _ (List.get_mem as ⟨i, hi⟩)) (hbs _ (List.get_mem bs ⟨i, hi'⟩))
    (hcs _ (List.get_mem cs ⟨i, hi''⟩)) (h.get hi hi') (h'.get hi' hi'')

end Sides

namespace EquivOn

variable {P Q : Value → Prop}

theorem mono (hP : EquivOn P) (h : ∀ {v}, Q v → P v) : EquivOn Q :=
  ⟨fun hv => hP.refl (h hv), fun hv hw => hP.symm (h hv) (h hw),
    fun hu hv hw => hP.trans (h hu) (h hv) (h hw)⟩

theorem alike_refl (hP : EquivOn P) {e : Value × Value} (he : P e.1 ∧ P e.2) : Alike e e :=
  ⟨hP.refl he.1, hP.refl he.2⟩

theorem alike_symm (hP : EquivOn P) {e f : Value × Value} (he : P e.1 ∧ P e.2)
    (hf : P f.1 ∧ P f.2) (h : Alike e f) : Alike f e :=
  ⟨hP.symm he.1 hf.1 h.1, hP.symm he.2 hf.2 h.2⟩

theorem alike_trans (hP : EquivOn P) {e f g : Value × Value} (he : P e.1 ∧ P e.2)
    (hf : P f.1 ∧ P f.2) (hg : P g.1 ∧ P g.2) (h : Alike e f) (h' : Alike f g) : Alike e g :=
  ⟨hP.trans he.1 hf.1 hg.1 h.1 h'.1, hP.trans he.2 hf.2 hg.2 h.2 h'.2⟩

theorem parts_refl (hP : EquivOn P) {v : Value} (hv : v.PartsHave P) : (v == v) = true := by
  rw [same_iff]
  cases v with
  | boolean b => exact .boolean b
  | integer n => exact .integer n
  | decimal d => exact .decimal rfl
  | string s => exact .string s
  | list items => exact .list (List.forall₂_same.2 fun v hv' => hP.refl (hv v hv'))
  | table es =>
    obtain ⟨hes, hparts⟩ := hv
    have hkeys : ∀ e ∈ es, P e.1 := fun e he => (hparts e he).1
    exact same_iff.1 ((hP.table_beq_iff_perm hes hes hkeys hkeys).2
      ⟨es, .refl es, List.forall₂_same.2 fun e he => hP.alike_refl (hparts e he)⟩)
  | pair key value => exact .pair (hP.refl hv.1) (hP.refl hv.2)
  | reference name => exact .reference name
  | builder kind => exact .builder kind

theorem table_symm (hP : EquivOn P) {es fs : Table} (hes : (table es).PartsHave P)
    (hfs : (table fs).PartsHave P) (h : (table es == table fs) = true) :
    (table fs == table es) = true := by
  obtain ⟨hes, hes'⟩ := hes
  obtain ⟨hfs, hfs'⟩ := hfs
  have heskeys : ∀ e ∈ es, P e.1 := fun e he => (hes' e he).1
  have hfskeys : ∀ f ∈ fs, P f.1 := fun f hf => (hfs' f hf).1
  -- lined up, each entry of `fs` has an entry of `es` that it is like
  obtain ⟨gs, hperm, hall⟩ := (hP.table_beq_iff_perm hes hfs heskeys hfskeys).1 h
  have hgs : ∀ g ∈ gs, P g.1 ∧ P g.2 := fun g hg => hfs' g (hperm.mem_iff.1 hg)
  have hback : List.Forall₂ Alike gs es := forall₂_symm (P := fun e => P e.1 ∧ P e.2)
    (fun he hf => hP.alike_symm he hf) hes' hgs hall
  obtain ⟨hlength, halike⟩ := exists_alike (List.Perm.refl es) hback
  exact (hP.table_beq_iff hes hfskeys heskeys).2
    ⟨hperm.length_eq.symm.trans hlength, fun f hf => halike f (hperm.mem_iff.2 hf)⟩

theorem table_trans (hP : EquivOn P) {es fs gs : Table} (hes : (table es).PartsHave P)
    (hfs : (table fs).PartsHave P) (hgs : (table gs).PartsHave P)
    (h : (table es == table fs) = true) (h' : (table fs == table gs) = true) :
    (table es == table gs) = true := by
  obtain ⟨hes, hes'⟩ := hes
  obtain ⟨hfs, hfs'⟩ := hfs
  obtain ⟨hgs, hgs'⟩ := hgs
  have heskeys : ∀ e ∈ es, P e.1 := fun e he => (hes' e he).1
  have hfskeys : ∀ f ∈ fs, P f.1 := fun f hf => (hfs' f hf).1
  have hgskeys : ∀ g ∈ gs, P g.1 := fun g hg => (hgs' g hg).1
  obtain ⟨hlength, halike⟩ := (hP.table_beq_iff hfs heskeys hfskeys).1 h
  obtain ⟨hlength', halike'⟩ := (hP.table_beq_iff hgs hfskeys hgskeys).1 h'
  refine (hP.table_beq_iff hgs heskeys hgskeys).2 ⟨hlength.trans hlength', fun e he => ?_⟩
  obtain ⟨f, hf, hef⟩ := halike e he
  obtain ⟨g, hg, hfg⟩ := halike' f hf
  exact ⟨g, hg, hP.alike_trans (hes' e he) (hfs' f hf) (hgs' g hg) hef hfg⟩

theorem parts_symm (hP : EquivOn P) {v w : Value} (hv : v.PartsHave P) (hw : w.PartsHave P)
    (h : (v == w) = true) : (w == v) = true := by
  have hsame := same_iff.1 h
  rw [same_iff]
  cases hsame with
  | boolean b => exact .boolean b
  | integer n => exact .integer n
  | decimal hworth => exact .decimal hworth.symm
  | string s => exact .string s
  | list hall =>
    exact .list (forall₂_symm (P := P) (fun hv hw => hP.symm hv hw) hv hw hall)
  | table => exact same_iff.1 (hP.table_symm hv hw h)
  | pair hkey hvalue => exact .pair (hP.symm hv.1 hw.1 hkey) (hP.symm hv.2 hw.2 hvalue)
  | reference name => exact .reference name
  | builder kind => exact .builder kind

theorem parts_trans (hP : EquivOn P) {u v w : Value} (hu : u.PartsHave P) (hv : v.PartsHave P)
    (hw : w.PartsHave P) (h : (u == v) = true) (h' : (v == w) = true) : (u == w) = true := by
  have hsame := same_iff.1 h
  have hsame' := same_iff.1 h'
  rw [same_iff]
  cases hsame with
  | boolean | integer | string | reference | builder => exact hsame'
  | decimal hworth =>
    cases hsame' with
    | decimal hworth' => exact .decimal (hworth.trans hworth')
  | list hall =>
    cases hsame' with
    | list hall' =>
      exact .list
        (forall₂_trans (P := P) (fun hu hv hw => hP.trans hu hv hw) hu hv hw hall hall')
  | table =>
    cases hsame' with
    | table => exact same_iff.1 (hP.table_trans hu hv hw h h')
  | pair hkey hvalue =>
    cases hsame' with
    | pair hkey' hvalue' =>
      exact .pair (hP.trans hu.1 hv.1 hw.1 hkey hkey') (hP.trans hu.2 hv.2 hw.2 hvalue hvalue')

/-- One level further up. -/
theorem parts (hP : EquivOn P) : EquivOn (PartsHave P) :=
  ⟨hP.parts_refl, hP.parts_symm, hP.parts_trans⟩

end EquivOn

/-- Values smaller than `n` whose tables have pairwise unequal keys. -/
def Within (n : Nat) (v : Value) : Prop := v.Keyed ∧ sizeOf v < n

theorem Within.parts {n : Nat} {v : Value} (h : Within (n + 1) v) : v.PartsHave (Within n) := by
  obtain ⟨hkeyed, hsize⟩ := h
  cases v with
  | list items =>
    intro v hv
    have := List.sizeOf_lt_of_mem hv
    simp only [list.sizeOf_spec] at hsize
    exact ⟨itemsKeyed_iff.1 hkeyed v hv, by omega⟩
  | table entries =>
    refine ⟨hkeyed.1, fun e he => ?_⟩
    obtain ⟨hkey, hvalue⟩ := entriesKeyed_iff.1 hkeyed.2 e he
    have := List.sizeOf_lt_of_mem he
    cases e
    simp only [table.sizeOf_spec, Prod.mk.sizeOf_spec] at hsize this
    exact ⟨⟨hkey, by dsimp only; omega⟩, hvalue, by dsimp only; omega⟩
  | pair key value =>
    simp only [pair.sizeOf_spec] at hsize
    exact ⟨⟨hkeyed.1, by omega⟩, hkeyed.2, by omega⟩
  | boolean | integer | decimal | string | reference | builder => trivial

theorem equivOn_within (n : Nat) : EquivOn (Within n) := by
  induction n with
  | zero => exact ⟨fun h => (Nat.not_lt_zero _ h.2).elim, fun h => (Nat.not_lt_zero _ h.2).elim,
      fun h => (Nat.not_lt_zero _ h.2).elim⟩
  | succ n ih => exact ih.parts.mono Within.parts

/-- **Equality is an equivalence among the values whose tables have pairwise unequal keys.** -/
theorem equivOn_keyed : EquivOn Keyed where
  refl {v} hv := (equivOn_within (sizeOf v + 1)).refl ⟨hv, by omega⟩
  symm {v w} hv hw :=
    (equivOn_within (sizeOf v + sizeOf w + 1)).symm ⟨hv, by omega⟩ ⟨hw, by omega⟩
  trans {u v w} hu hv hw :=
    (equivOn_within (sizeOf u + sizeOf v + sizeOf w + 1)).trans ⟨hu, by omega⟩ ⟨hv, by omega⟩
      ⟨hw, by omega⟩

theorem Same.typeName_eq {v w : Value} (h : Same v w) : v.typeName = w.typeName := by
  cases h <;> rfl

/-! ## Tables that are rewritten -/

theorem keyed_table {es : Table} :
    (table es).Keyed ↔ es.Distinct ∧ ∀ e ∈ es, e.1.Keyed ∧ e.2.Keyed :=
  and_congr_right' entriesKeyed_iff

/-- No two keys are equal, wherever they stand. -/
theorem distinct_of_perm {es fs : Table} (hes : es.Distinct) (hkeys : ∀ e ∈ es, e.1.Keyed)
    (h : es.Perm fs) : fs.Distinct := by
  have hboth : es.Pairwise fun e f => (e.1 == f.1) = false ∧ (f.1 == e.1) = false := by
    refine hes.imp_of_mem fun {e f} he hf hne => ⟨hne, ?_⟩
    refine Bool.eq_false_iff.2 fun heq => ?_
    exact absurd (equivOn_keyed.symm (hkeys f hf) (hkeys e he) heq) (Bool.eq_false_iff.1 hne)
  exact ((h.pairwise_iff fun hne => ⟨hne.2, hne.1⟩).1 hboth).imp And.left

/-- Keys that are equal to keys that differ, differ. -/
theorem distinct_of_alike {es fs : Table} (hes : es.Distinct) (hes' : ∀ e ∈ es, e.1.Keyed)
    (hfs' : ∀ f ∈ fs, f.1.Keyed) (h : List.Forall₂ Alike es fs) : fs.Distinct := by
  refine List.pairwise_iff_getElem.2 fun i j hi hj hij => Bool.eq_false_iff.2 fun heq => ?_
  have hi' : i < es.length := h.length_eq ▸ hi
  have hj' : j < es.length := h.length_eq ▸ hj
  have hei := hes' _ (List.getElem_mem hi')
  have hej := hes' _ (List.getElem_mem hj')
  have hfi := hfs' _ (List.getElem_mem hi)
  have hfj := hfs' _ (List.getElem_mem hj)
  have hacross : (es[i].1 == fs[j].1) = true :=
    equivOn_keyed.trans hei hfi hfj (h.get hi' hi).1 heq
  have hsame : (es[i].1 == es[j].1) = true :=
    equivOn_keyed.of_right hei hej hfj hacross (h.get hj' hj).1
  have hne : (es[i].1 == es[j].1) = false := List.pairwise_iff_getElem.1 hes i j hi' hj' hij
  exact absurd hsame (Bool.eq_false_iff.1 hne)

/-- Entries may be replaced by entries that are like them, and moved. -/
theorem table_rewritten {es fs gs : Table} (hes : (table es).Keyed)
    (hfs : ∀ f ∈ fs, f.1.Keyed ∧ f.2.Keyed) (halike : List.Forall₂ Alike es fs)
    (hperm : fs.Perm gs) : (table gs).Keyed ∧ (table es == table gs) = true := by
  obtain ⟨hdistinct, hes⟩ := keyed_table.1 hes
  have heskeys : ∀ e ∈ es, e.1.Keyed := fun e he => (hes e he).1
  have hfskeys : ∀ f ∈ fs, f.1.Keyed := fun f hf => (hfs f hf).1
  have hgs : ∀ g ∈ gs, g.1.Keyed ∧ g.2.Keyed := fun g hg => hfs g (hperm.mem_iff.2 hg)
  have hgskeys : ∀ g ∈ gs, g.1.Keyed := fun g hg => (hgs g hg).1
  have hgsdistinct : gs.Distinct :=
    distinct_of_perm (distinct_of_alike hdistinct heskeys hfskeys halike) hfskeys hperm
  exact ⟨keyed_table.2 ⟨hgsdistinct, hgs⟩,
    (equivOn_keyed.table_beq_iff_perm hdistinct hgsdistinct heskeys hgskeys).2
      ⟨fs, hperm, halike⟩⟩

/-- **Equality is an equivalence among the values, of any depth, whose tables have pairwise
unequal keys.** It relates values of one type only, and containers respect it: the items of a
list, the parts of a pair, and the keys and the values of a table may be replaced by equal ones,
and the entries of a table moved. The two operators say whether it holds. -/
theorem value_equality :
    Equivalence (fun v w : {v : Value // v.Keyed} => (v.1 == w.1) = true) ∧
    (∀ {v w : Value}, (v == w) = true → v.typeName = w.typeName) ∧
    (∀ {vs ws : List Value}, List.Forall₂ (fun v w => (v == w) = true) vs ws →
      (list vs == list ws) = true) ∧
    (∀ {k l v w : Value}, (k == l) = true → (v == w) = true → (pair k v == pair l w) = true) ∧
    (∀ {es fs gs : Table}, (table es).Keyed → (∀ f ∈ fs, f.1.Keyed ∧ f.2.Keyed) →
      List.Forall₂ Alike es fs → fs.Perm gs →
      (table gs).Keyed ∧ (table es == table gs) = true) ∧
    ∀ (operator : String) (v w : Value),
      BinaryOp.equal.apply operator v w = .ok (.boolean (v == w)) ∧
      BinaryOp.notEqual.apply operator v w = .ok (.boolean !(v == w)) := by
  refine ⟨⟨fun v => equivOn_keyed.refl v.2, fun {v w} => equivOn_keyed.symm v.2 w.2,
    fun {u v w} => equivOn_keyed.trans u.2 v.2 w.2⟩, fun h => (same_iff.1 h).typeName_eq,
    fun h => same_iff.2 (.list h), fun hkey hvalue => same_iff.2 (.pair hkey hvalue),
    table_rewritten, fun operator v w => ⟨rfl, rfl⟩⟩

/-- With a table for a key: its decimal is written with another scale, and the entries moved. -/
theorem value_equality_nested :
    (table [(table [(decimal ⟨10, 1⟩, integer 1)], string "one"), (integer 1, list [])] ==
      table [(integer 1, list []), (table [(decimal ⟨1, 0⟩, integer 1)], string "one")]) =
      true := by
  have hes : (table [(table [(decimal ⟨10, 1⟩, integer 1)], string "one"),
      (integer 1, list [])]).Keyed := by
    simp [Keyed, entriesKeyed, itemsKeyed, Table.Distinct]
    rfl
  have hfs : ∀ f ∈ [(table [(decimal ⟨1, 0⟩, integer 1)], string "one"), (integer 1, list [])],
      f.1.Keyed ∧ f.2.Keyed := by
    simp [Keyed, entriesKeyed, itemsKeyed, Table.Distinct]
  have halike : List.Forall₂ Alike
      [(table [(decimal ⟨10, 1⟩, integer 1)], string "one"), (integer 1, list [])]
      [(table [(decimal ⟨1, 0⟩, integer 1)], string "one"), (integer 1, list [])] :=
    .cons ⟨by decide, by decide⟩ (.cons ⟨by decide, by decide⟩ .nil)
  exact (value_equality.2.2.2.2.1 hes hfs halike (.swap _ _ [])).2

end Value

end LazyDecl
