import LazyDecl.Proofs.Eval.TableLiterals
import LazyDecl.Proofs.Value.Digest

/-!
Tables that are searched by hashing. A key is not compared with one key after the other, but
looked for where its digest leads. That finds an equal key only as long as equal keys have one
digest, which they do.

* `Search.Finds.exact`: then the search finds the one entry that going through the table finds;
* `insertBy_eq`, `equalBy_eq`: so tables are filled and compared as if they were gone through;
* `built_iff_keyed`: filled in this way they hold no two equal keys, and those are all the
  tables without equal keys;
* `Eval.entriesBy_eq`: the evaluator comes to the same table with the same warnings.
-/

namespace LazyDecl

namespace Table

/-! ## Searching -/

/-- Where in a table the entry of a key stands. -/
abbrev Search := Table → Value → Option Nat

/-- A search by hashing. An entry that it finds has an equal key. If equal keys have one digest,
then it finds an entry whenever there is one. -/
structure Search.Finds (search : Search) (digest : Value → List Datum) : Prop where
  sound : ∀ {t : Table} {key : Value} {i : Nat}, (Value.table t).Keyed → key.Keyed →
    search t key = some i → ∃ e, t[i]? = some e ∧ (key == e.1) = true
  complete : (∀ {v w : Value}, (v == w) = true → digest v = digest w) →
    ∀ {t : Table} {key : Value}, (Value.table t).Keyed → key.Keyed →
      t.contains key = true → search t key ≠ none

/-- The search does what going through the table does. -/
def Search.Exact (search : Search) : Prop :=
  ∀ {t : Table} {key : Value}, (Value.table t).Keyed → key.Keyed →
    search t key = t.findIdx? (key == ·.1)

/-- Places with equal keys are one place. -/
theorem eq_of_beq_keys {t : Table} (ht : (Value.table t).Keyed) {i j : Nat} (hi : i < t.length)
    (hj : j < t.length) (h : (t[i].1 == t[j].1) = true) : i = j := by
  obtain ⟨hdistinct, hparts⟩ := Value.keyed_table.1 ht
  have hapart : ∀ {i j : Nat} (hi : i < t.length) (hj : j < t.length), i < j →
      ¬(t[i].1 == t[j].1) = true := fun hi hj hij =>
    Bool.eq_false_iff.1 (List.pairwise_iff_getElem.1 hdistinct _ _ hi hj hij)
  have hback : (t[j].1 == t[i].1) = true := Value.equivOn_keyed.symm
    (hparts _ (List.getElem_mem hi)).1 (hparts _ (List.getElem_mem hj)).1 h
  rcases Nat.lt_trichotomy i j with hij | hij | hij
  · exact absurd h (hapart hi hj hij)
  · exact hij
  · exact absurd hback (hapart hj hi hij)

/-- No entry in front of one with an equal key has an equal key. -/
theorem findIdx?_eq_some {t : Table} {key : Value} {i : Nat} {e : Value × Value}
    (ht : (Value.table t).Keyed) (hkey : key.Keyed) (he : t[i]? = some e)
    (h : (key == e.1) = true) : t.findIdx? (key == ·.1) = some i := by
  obtain ⟨-, hparts⟩ := Value.keyed_table.1 ht
  obtain ⟨hi, rfl⟩ := List.getElem?_eq_some_iff.1 he
  refine List.findIdx?_eq_some_iff_getElem.2 ⟨hi, h, fun j hji heq => ?_⟩
  have hj : j < t.length := hji.trans hi
  have hsame : (t[j].1 == t[i].1) = true := Value.equivOn_keyed.of_left hkey
    (hparts _ (List.getElem_mem hj)).1 (hparts _ (List.getElem_mem hi)).1 heq h
  exact absurd (eq_of_beq_keys ht hj hi hsame) hji.ne

theorem findIdx?_eq_none {t : Table} {key : Value} (h : t.contains key = false) :
    t.findIdx? (key == ·.1) = none :=
  List.findIdx?_eq_none_iff.2 fun e he => Bool.eq_false_iff.2 (List.any_eq_false.1 h e he)

/-- **If equal keys have one digest, hashing finds what going through the table finds.** -/
theorem Search.Finds.exact {search : Search} {digest : Value → List Datum}
    (h : search.Finds digest) (hdigest : ∀ {v w : Value}, (v == w) = true → digest v = digest w) :
    search.Exact := by
  intro t key ht hkey
  cases hs : search t key with
  | some i =>
    obtain ⟨e, he, heq⟩ := h.sound ht hkey hs
    exact (findIdx?_eq_some ht hkey he heq).symm
  | none =>
    have habsent : t.contains key = false :=
      Bool.eq_false_iff.2 fun hc => h.complete hdigest ht hkey hc hs
    exact (findIdx?_eq_none habsent).symm

section Hashed

variable {η : Type} [DecidableEq η]

/-- Compares the hashes of keys, and then the keys of one hash. -/
def Search.hashed (hash : List Datum → η) (digest : Value → List Datum) : Search := fun t key =>
  t.findIdx? fun e => hash (digest key) = hash (digest e.1) && key == e.1

theorem finds_hashed (hash : List Datum → η) (digest : Value → List Datum) :
    (Search.hashed hash digest).Finds digest where
  sound {t key i} _ _ hs := by
    obtain ⟨hi, hboth, -⟩ := List.findIdx?_eq_some_iff_getElem.1 hs
    exact ⟨t[i], List.getElem?_eq_getElem hi, (Bool.and_eq_true_iff.1 hboth).2⟩
  complete hdigest {t key} _ _ hc hs := by
    obtain ⟨e, he, heq⟩ := contains_iff.1 hc
    have hboth := List.findIdx?_eq_none_iff.1 hs e he
    rw [hdigest heq, heq] at hboth
    simp at hboth

end Hashed

/-! ## Filling and comparing -/

section Operations

variable (search : Search)

def containsBy (t : Table) (key : Value) : Bool := (search t key).isSome

/-- Puts a value under a key: in place, if the key is found, or else at the end. -/
def insertBy (t : Table) (key value : Value) : Table :=
  match search t key with
  | some i => t.modify i fun e => (e.1, value)
  | none => t ++ [(key, value)]

/-- Puts in the entries one after the other. -/
def insertAllBy (t : Table) (entries : List (Value × Value)) : Table :=
  entries.foldl (fun (t : Table) e => t.insertBy search e.1 e.2) t

def value?By (t : Table) (key : Value) : Option Value :=
  (search t key).bind fun i => t[i]?.map Prod.snd

/-- Whether there are as many entries, and each has an equal value under its key. -/
def equalBy (es fs : Table) : Bool :=
  es.length == fs.length && es.all fun e => (fs.value?By search e.1).any (e.2 == ·)

end Operations

/-- Insertion, by the place of the key. -/
theorem insert_eq (t : Table) (key v : Value) : t.insert key v =
    match t.findIdx? (key == ·.1) with
    | some i => t.modify i fun e => (e.1, v)
    | none => t ++ [(key, v)] := by
  induction t with
  | nil => rfl
  | cons e t ih =>
    obtain ⟨k, u⟩ := e
    rw [insert, List.findIdx?_cons]
    cases hhead : key == k with
    | true => rfl
    | false =>
      simp only [Bool.false_eq_true, if_false]
      rw [ih]
      cases t.findIdx? (key == ·.1) <;> rfl

variable {search : Search} (hsearch : search.Exact)

include hsearch

section Key

variable {t : Table} {key : Value} (ht : (Value.table t).Keyed) (hkey : key.Keyed)

include ht hkey

theorem containsBy_eq : t.containsBy search key = t.contains key := by
  rw [containsBy, hsearch ht hkey, List.findIdx?_isSome]
  rfl

theorem insertBy_eq (v : Value) : t.insertBy search key v = t.insert key v := by
  rw [insertBy, hsearch ht hkey, insert_eq]

theorem value?By_eq : t.value?By search key = (t.find? (key == ·.1)).map Prod.snd := by
  rw [value?By, hsearch ht hkey, List.find?_eq_bind_findIdx?_getElem?, Option.map_bind]
  rfl

end Key

theorem equalBy_eq {es fs : Table} (hes : (Value.table es).Keyed) (hfs : (Value.table fs).Keyed) :
    es.equalBy search fs = (Value.table es == .table fs) := by
  obtain ⟨-, hparts⟩ := Value.keyed_table.1 hes
  have hentry : ∀ e ∈ es, (fs.value?By search e.1).any (e.2 == ·) = true ↔
      ∃ f, fs.find? (e.1 == ·.1) = some f ∧ (e.2 == f.2) = true := by
    intro e he
    rw [value?By_eq hsearch hfs (hparts e he).1]
    cases fs.find? (e.1 == ·.1) <;> simp
  refine Bool.eq_iff_iff.2 ?_
  rw [equalBy, Bool.and_eq_true, beq_iff_eq, List.all_eq_true, forall₂_congr hentry,
    ← Value.beqEntries_iff, ← beq_iff_eq, ← Bool.and_eq_true]
  rfl

/-- **No two keys of a table are equal, however many entries are put in.** -/
theorem keyed_insertAllBy {t : Table} (ht : (Value.table t).Keyed)
    {entries : List (Value × Value)} (h : ∀ e ∈ entries, e.1.Keyed ∧ e.2.Keyed) :
    (Value.table (t.insertAllBy search entries)).Keyed := by
  induction entries generalizing t with
  | nil => exact ht
  | cons e entries ih =>
    obtain ⟨⟨hkey, hvalue⟩, h⟩ := List.forall_mem_cons.1 h
    have hinsert : (Value.table (t.insertBy search e.1 e.2)).Keyed := by
      rw [insertBy_eq hsearch ht hkey]
      exact Value.keyed_insert ht hkey hvalue
    exact ih hinsert h

/-- Entries whose keys are all new are put at the end. -/
theorem insertAllBy_eq_append {t : Table} {entries : List (Value × Value)}
    (h : (Value.table (t ++ entries)).Keyed) : t.insertAllBy search entries = t ++ entries := by
  induction entries generalizing t with
  | nil => exact (List.append_nil t).symm
  | cons e entries ih =>
    obtain ⟨hdistinct, hparts⟩ := Value.keyed_table.1 h
    obtain ⟨hbefore, hbehind⟩ := List.forall_mem_append.1 hparts
    obtain ⟨⟨hkey, -⟩, -⟩ := List.forall_mem_cons.1 hbehind
    obtain ⟨ht, -, hapart⟩ := List.pairwise_append.1 hdistinct
    -- a key that is put in is compared with those in front, `Distinct` the other way round
    have habsent : t.contains e.1 = false := by
      refine List.any_eq_false.2 fun f hf heq => ?_
      have hsame := Value.equivOn_keyed.symm hkey (hbefore f hf).1 heq
      exact absurd hsame (Bool.eq_false_iff.1 (hapart f hf e (List.mem_cons_self ..)))
    have hinsert : t.insertBy search e.1 e.2 = t ++ [e] := by
      rw [insertBy, hsearch (Value.keyed_table.2 ⟨ht, hbefore⟩) hkey, findIdx?_eq_none habsent]
    have hsplit : t ++ e :: entries = (t ++ [e]) ++ entries := List.append_cons ..
    rw [hsplit] at h ⊢
    rw [← ih h, ← hinsert]
    rfl

end Table

/-! ## Values that are built by filling tables -/

namespace Value

/-- Each table in the value, at any depth, has been filled by insertion. -/
inductive Built (search : Table.Search) : Value → Prop
  | boolean (b : Bool) : Built search (boolean b)
  | integer (n : Int) : Built search (integer n)
  | decimal (d : Decimal) : Built search (decimal d)
  | string (s : String) : Built search (string s)
  | list {items : List Value} : (∀ v ∈ items, Built search v) → Built search (list items)
  | table {entries : List (Value × Value)} : (∀ e ∈ entries, Built search e.1) →
      (∀ e ∈ entries, Built search e.2) → Built search (table (Table.insertAllBy search [] entries))
  | pair {key value : Value} : Built search key → Built search value →
      Built search (pair key value)
  | reference (name : String) : Built search (reference name)
  | builder (kind : String) : Built search (builder kind)

variable {search : Table.Search} (hsearch : search.Exact)

include hsearch

theorem Built.keyed {v : Value} (h : v.Built search) : v.Keyed := by
  induction h with
  | boolean | integer | decimal | string | reference | builder => simp only [Keyed]
  | list _ ih => exact itemsKeyed_iff.2 ih
  | table _ _ ihkeys ihvalues =>
    exact Table.keyed_insertAllBy hsearch ⟨.nil, trivial⟩ fun e he => ⟨ihkeys e he, ihvalues e he⟩
  | pair _ _ ihkey ihvalue => exact ⟨ihkey, ihvalue⟩

/-- By induction on a bound of the size. A table is filled with its own entries. -/
theorem built_of_within {n : Nat} {v : Value} (h : v.Within n) : v.Built search := by
  induction n generalizing v with
  | zero => exact absurd h.2 (Nat.not_lt_zero _)
  | succ n ih =>
    have hparts := h.parts
    cases v with
    | boolean b => exact .boolean b
    | integer n => exact .integer n
    | decimal d => exact .decimal d
    | string s => exact .string s
    | list items => exact .list fun v hv => ih (hparts v hv)
    | table entries =>
      have hsame : Table.insertAllBy search [] entries = entries :=
        Table.insertAllBy_eq_append hsearch (t := []) h.1
      rw [← hsame]
      exact .table (fun e he => ih (hparts.2 e he).1) fun e he => ih (hparts.2 e he).2
    | pair key value => exact .pair (ih hparts.1) (ih hparts.2)
    | reference name => exact .reference name
    | builder kind => exact .builder kind

/-- **The values that are built in this way are those without equal keys.** -/
theorem built_iff_keyed {v : Value} : v.Built search ↔ v.Keyed :=
  ⟨Built.keyed hsearch, fun h => built_of_within hsearch (n := sizeOf v + 1) ⟨h, by omega⟩⟩

end Value

/-! ## The evaluator -/

namespace Eval

/-- Puts the elements of a table literal into a table that is searched by hashing. -/
def entriesBy (search : Table.Search) (t : Table) : List Expr → Eval Table
  | [] => pure t
  | .binding left colon right :: es => do
    let key ← nameOr .string left.name? (value left)
    let v ← value right
    warnIf (t.containsBy search key) (.duplicateKey key) colon
    entriesBy search (t.insertBy search key v) es
  | e :: _ => fail .expectedEntry e.anchor

theorem entriesBy_other (search : Table.Search) (t : Table) {e : Expr} (h : e.isBinding = false)
    (es : List Expr) : entriesBy search t (e :: es) = fail .expectedEntry e.anchor := by
  cases e with
  | binding => simp [Expr.isBinding] at h
  | _ => rfl

/-- **The same table comes of the elements, with the same warnings.** -/
theorem entriesBy_eq {search : Table.Search} (hsearch : search.Exact) {t : Table}
    (ht : (Value.table t).Keyed) (es : List Expr) {s : EvalState}
    (hs : Discipline.keyed.InTable s.declarations) :
    entriesBy search t es s = entries t es s := by
  have hvalue : ∀ e, Discipline.keyed.Keeps Value.Keyed (value e) := fun e =>
    Discipline.sound_keyed.value trivial
  have hword : ∀ s, (Value.string s).Keyed := fun s => by simp only [Value.Keyed]
  induction es generalizing t s with
  | nil => rfl
  | cons e es ih =>
    cases hbinding : e.isBinding with
    | false =>
      exact congrFun ((entriesBy_other search t hbinding es).trans
        (entriesOver_other force t hbinding es).symm) s
    | true =>
      cases e with
      | binding left colon right =>
        rw [entriesBy, entries_binding]
        have hkeys := Discipline.keyed_nameOr hword left.name? (hvalue left)
        -- the two searches agree only on keyed values, and those are what keys evaluate to
        refine hkeys.bind_congr (fun key s hkey hs => ?_) hs
        refine (hvalue right).bind_congr (fun v s hv hs => ?_) hs
        rw [Table.containsBy_eq hsearch ht hkey, Table.insertBy_eq hsearch ht hkey,
          bind_ok (warnIf_eq ..), bind_ok (warnIf_eq ..)]
        exact ih (Value.keyed_insert ht hkey hv) hs
      | _ => cases hbinding

end Eval

/-- **Hashing agrees with equality.** Let decimals of one worth have one digest, and let tables be
searched by hashing, which finds an equal key as long as equal keys have one digest. Then equal
values have one digest, at any depth. No two keys of a table that was filled by insertion are
equal, and such tables are filled and compared as if they were gone through. Wherever a session
may stand, the elements of a table literal come to the same table in either way, and whatever
value is come to has been built in this way. -/
theorem hashing_agrees {numbers : NumberDigest} (hnumbers : numbers.Consistent)
    {search : Table.Search} (hsearch : search.Finds (Value.digest numbers)) :
    (∀ {v w : Value}, (v == w) = true → v.digest numbers = w.digest numbers) ∧
    (∀ {t : Table}, (Value.table t).Built search → ∀ {i j : Nat} (hi : i < t.length)
      (hj : j < t.length), (t[i].1 == t[j].1) = true → i = j) ∧
    (∀ {t : Table} {key : Value}, (Value.table t).Built search → key.Built search →
      t.containsBy search key = t.contains key ∧
      ∀ v, t.insertBy search key v = t.insert key v) ∧
    (∀ {es fs : Table}, (Value.table es).Built search → (Value.table fs).Built search →
      es.equalBy search fs = (Value.table es == .table fs)) ∧
    ∀ {s : EvalState}, Reachable s →
      (∀ elements, Eval.entriesBy search [] elements s = Eval.entries [] elements s) ∧
      ∀ {e : Expr} {v : Value} {s' : EvalState}, Eval.value e s = .ok v s' → v.Built search := by
  have hdigest : ∀ {v w : Value}, (v == w) = true → v.digest numbers = w.digest numbers :=
    Value.digest_eq_of_beq hnumbers
  have hexact : search.Exact := hsearch.exact hdigest
  refine ⟨hdigest, fun ht i j hi hj heq => ?_, fun ht hkey => ?_, fun hes hfs => ?_,
    fun {s} hs => ⟨fun elements => ?_, fun {e v s'} h => ?_⟩⟩
  · exact Table.eq_of_beq_keys (ht.keyed hexact) hi hj heq
  · have ht := ht.keyed hexact
    have hkey := hkey.keyed hexact
    exact ⟨Table.containsBy_eq hexact ht hkey, Table.insertBy_eq hexact ht hkey⟩
  · exact Table.equalBy_eq hexact (hes.keyed hexact) (hfs.keyed hexact)
  · have htable := hs.inTable Discipline.sound_keyed fun _ => trivial
    exact Eval.entriesBy_eq hexact ⟨.nil, trivial⟩ elements htable
  · have htable := hs.inTable Discipline.sound_keyed fun _ => trivial
    have hallows := Discipline.sound_keyed.value (e := e) trivial s htable
    rw [h] at hallows
    cases hallows with
    | ok hv _ => exact (Value.built_iff_keyed hexact).2 hv

namespace HashedTable

open Value

/-- Many digests have one hash. -/
def search : Table.Search := .hashed (fun data => data.length % 4) (digest .plain)

/-- The table `[[1.0]: true, "b": "c"]`, and the same with `1.00` in another order. -/
def written : Table := [(list [decimal ⟨10, 1⟩], boolean true), (string "b", string "c")]

def rewritten : Table := [(string "b", string "c"), (list [decimal ⟨100, 2⟩], boolean true)]

/-- As a key of another table, the second is taken for the first. -/
theorem hashing_agrees_reordered :
    NumberDigest.plain.Consistent ∧ search.Finds (digest .plain) ∧
    (table written).digest .plain = (table rewritten).digest .plain ∧
    Table.insertAllBy search [] [(table written, boolean true), (table rewritten, boolean false)] =
      [(table written, boolean false)] := by
  have hfinds : search.Finds (digest .plain) := Table.finds_hashed ..
  obtain ⟨hdigest, -⟩ := hashing_agrees NumberDigest.consistent_plain hfinds
  exact ⟨NumberDigest.consistent_plain, hfinds, hdigest rfl, rfl⟩

end HashedTable

end LazyDecl
