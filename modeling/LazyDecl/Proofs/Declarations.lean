import LazyDecl.Declarations

/-!
Laws of the table of declarations: what a lookup finds after a name has been
given a memo (`find?_set`, `find?_declare`), which names still wait for a value
(`mem_waiting`), how a new memo changes the number of pending ones (`pending_set`),
and what becomes of all that when other bodies are put in (`mapBodies`).
-/

namespace LazyDecl

namespace Memo

variable {β γ α : Type}

/-- The memo with another body, if its computation has still to be run. -/
def mapBody (g : β → γ) : Memo β α → Memo γ α
  | deferred body => deferred (g body)
  | forcing => forcing
  | ready value => ready value

@[simp] theorem isDeferred_mapBody (g : β → γ) (memo : Memo β α) :
    (memo.mapBody g).isDeferred = memo.isDeferred := by
  cases memo <;> rfl

@[simp] theorem isForced_mapBody (g : β → γ) (memo : Memo β α) :
    (memo.mapBody g).isForced = memo.isForced := by
  cases memo <;> rfl

@[simp] theorem value?_mapBody (g : β → γ) (memo : Memo β α) :
    (memo.mapBody g).value? = memo.value? := by
  cases memo <;> rfl

end Memo

namespace Declarations

variable {β α : Type}

theorem ext_entries {d d' : Declarations β α} (h : d.entries = d'.entries) : d = d' := by
  cases d
  cases d'
  cases h
  rfl

theorem contains_iff {d : Declarations β α} {name : String} :
    d.contains name = true ↔ ∃ memo, d.find? name = some memo := by
  simp only [contains, find?, List.any_eq_true, decide_eq_true_eq]
  generalize d.entries = entries
  induction entries with
  | nil => simp
  | cons e entries ih =>
    obtain ⟨n, m⟩ := e
    by_cases h : name = n
    · subst h
      simp
    · have hn : (name == n) = false := by simp [h]
      simp only [List.mem_cons, List.lookup_cons, hn, ← ih]
      constructor
      · rintro ⟨e, rfl | he, hen⟩
        · exact absurd hen.symm h
        · exact ⟨e, he, hen⟩
      · rintro ⟨e, he, hen⟩
        exact ⟨e, Or.inr he, hen⟩

theorem find?_eq_none {d : Declarations β α} {name : String} :
    d.find? name = none ↔ d.contains name = false := by
  rw [← Bool.not_eq_true, contains_iff]
  cases d.find? name <;> simp

/-! ## Setting and declaring -/

theorem lookup_exchange (name other : String) (memo : Memo β α)
    (entries : List (String × Memo β α)) :
    (exchange name memo entries).lookup other =
      (entries.lookup other).map fun m => if other = name then memo else m := by
  induction entries with
  | nil => rfl
  | cons e entries ih =>
    obtain ⟨n, m⟩ := e
    have hc : exchange name memo ((n, m) :: entries) =
        (n, if n = name then memo else m) :: exchange name memo entries := by
      simp only [exchange, List.map_cons]
      split <;> rfl
    by_cases h : other = n
    · subst h
      simp [hc]
    · have hn : (other == n) = false := by simp [h]
      simp [hc, List.lookup_cons, hn, ih]

theorem find?_set (d : Declarations β α) (name other : String) (memo : Memo β α) :
    (d.set name memo).find? other =
      (d.find? other).map fun m => if other = name then memo else m :=
  lookup_exchange name other memo d.entries

theorem find?_set_self {d : Declarations β α} {name : String} {old : Memo β α}
    (h : d.find? name = some old) (memo : Memo β α) :
    (d.set name memo).find? name = some memo := by
  simp [find?_set, h]

theorem find?_set_of_ne (d : Declarations β α) {name other : String} (h : other ≠ name)
    (memo : Memo β α) : (d.set name memo).find? other = d.find? other := by
  rw [find?_set]
  cases d.find? other <;> simp [h]

theorem find?_declare (d : Declarations β α) (name other : String) (memo : Memo β α) :
    (d.declare name memo).find? other =
      if other = name then some memo else d.find? other := by
  unfold declare
  split
  · next hc =>
    obtain ⟨old, ho⟩ := contains_iff.1 hc
    split
    · next hn => rw [hn, find?_set_self ho]
    · next hn => rw [find?_set_of_ne d hn]
  · next hc =>
    have hf : d.find? name = none := find?_eq_none.2 (by simpa using hc)
    simp only [find?] at hf ⊢
    rw [List.lookup_append]
    split
    · next hn => simp [hn, hf]
    · next hn =>
      have hb : (other == name) = false := by simp [hn]
      simp [List.lookup_cons, hb]

/-- The names in the order in which they were first declared. -/
def names (d : Declarations β α) : List String := d.entries.map Prod.fst

theorem mem_names {d : Declarations β α} {name : String} :
    name ∈ d.names ↔ d.contains name = true := by
  simp [names, contains]

@[simp] theorem names_set (d : Declarations β α) (name : String) (memo : Memo β α) :
    (d.set name memo).names = d.names :=
  map_fst_exchange name memo d.entries

theorem names_declare (d : Declarations β α) (name : String) (memo : Memo β α) :
    (d.declare name memo).names = if d.contains name then d.names else d.names ++ [name] := by
  unfold declare
  split
  · exact names_set d name memo
  · simp [names]

theorem set_set (d : Declarations β α) (name : String) (memo memo' : Memo β α) :
    (d.set name memo).set name memo' = d.set name memo' := by
  refine ext_entries ?_
  simp only [set, exchange, List.map_map]
  refine List.map_congr_left fun e _ => ?_
  by_cases h : e.1 = name <;> simp [h]

theorem set_comm (d : Declarations β α) {name other : String} (h : name ≠ other)
    (memo memo' : Memo β α) :
    (d.set name memo).set other memo' = (d.set other memo').set name memo := by
  refine ext_entries ?_
  simp only [set, exchange, List.map_map]
  refine List.map_congr_left fun e _ => ?_
  by_cases hn : e.1 = name
  · simp [hn, h]
  · by_cases ho : e.1 = other
    · simp [ho, h.symm]
    · simp [hn, ho]

/-! ## Names that wait for a value -/

/-- The names whose value is not there yet, whether or not it is being computed. -/
def waiting (d : Declarations β α) : List String :=
  (d.entries.filter fun e => !e.2.isForced).map Prod.fst

theorem lookup_eq_some_of_mem {γ : Type} {entries : List (String × γ)}
    (hd : (entries.map Prod.fst).Nodup) {name : String} {c : γ}
    (h : (name, c) ∈ entries) : entries.lookup name = some c := by
  induction entries with
  | nil => simp at h
  | cons e entries ih =>
    obtain ⟨n, m⟩ := e
    simp only [List.map_cons, List.nodup_cons] at hd
    rcases List.mem_cons.1 h with he | he
    · cases he
      simp
    · have hn : name ≠ n := by
        rintro rfl
        exact hd.1 (List.mem_map.2 ⟨_, he, rfl⟩)
      have hb : (name == n) = false := by simp [hn]
      rw [List.lookup_cons, hb]
      exact ih hd.2 he

theorem mem_entries_iff {d : Declarations β α} {name : String} {memo : Memo β α} :
    (name, memo) ∈ d.entries ↔ d.find? name = some memo := by
  constructor
  · exact lookup_eq_some_of_mem d.distinct
  · intro h
    rw [find?, List.lookup_eq_some_iff] at h
    obtain ⟨before, after, he, -⟩ := h
    simp [he]

/-- A name that is given the memo it has already. -/
theorem set_eq_self {d : Declarations β α} {name : String} {memo : Memo β α}
    (h : d.find? name = some memo) : d.set name memo = d := by
  have hmemo : ∀ e ∈ d.entries, (if e.1 = name then (e.1, memo) else e) = e := by
    rintro ⟨n, m⟩ he
    by_cases hn : n = name
    · subst hn
      rw [mem_entries_iff.1 he, Option.some_inj] at h
      simp [h]
    · simp [hn]
  refine ext_entries ?_
  simpa [set, exchange] using List.map_congr_left hmemo

theorem mem_waiting {d : Declarations β α} {name : String} :
    name ∈ d.waiting ↔ ∃ memo, d.find? name = some memo ∧ memo.isForced = false := by
  simp only [waiting, List.mem_map, List.mem_filter, Bool.not_eq_true']
  constructor
  · rintro ⟨⟨n, m⟩, ⟨hm, hf⟩, rfl⟩
    exact ⟨m, mem_entries_iff.1 hm, hf⟩
  · rintro ⟨m, hm, hf⟩
    exact ⟨(name, m), ⟨mem_entries_iff.2 hm, hf⟩, rfl⟩

theorem notMem_waiting {d : Declarations β α} {name : String} {memo : Memo β α}
    (h : d.find? name = some memo) (hf : memo.isForced = true) : name ∉ d.waiting := by
  intro hw
  obtain ⟨m, hm, hf'⟩ := mem_waiting.1 hw
  rw [h] at hm
  cases hm
  rw [hf] at hf'
  cases hf'

theorem waiting_set_subset {d : Declarations β α} {name : String} (h : name ∈ d.waiting)
    (memo : Memo β α) : (d.set name memo).waiting ⊆ d.waiting := by
  intro n hn
  by_cases he : n = name
  · rw [he]
    exact h
  · obtain ⟨m, hm, hf⟩ := mem_waiting.1 hn
    rw [find?_set_of_ne d he] at hm
    exact mem_waiting.2 ⟨m, hm, hf⟩

theorem waiting_declare_subset (d : Declarations β α) (name : String) (memo : Memo β α) :
    (d.declare name memo).waiting ⊆ name :: d.waiting := by
  intro n hn
  obtain ⟨m, hm, hf⟩ := mem_waiting.1 hn
  rw [find?_declare] at hm
  by_cases he : n = name
  · rw [he]
    exact List.mem_cons_self ..
  · rw [if_neg he] at hm
    exact List.mem_cons_of_mem _ (mem_waiting.2 ⟨m, hm, hf⟩)

/-! ## Pending declarations -/

theorem exchange_of_notMem {name : String} {memo : Memo β α} {entries : List (String × Memo β α)}
    (h : name ∉ entries.map Prod.fst) : exchange name memo entries = entries := by
  induction entries with
  | nil => rfl
  | cons e entries ih =>
    simp only [List.map_cons, List.mem_cons, not_or] at h
    have hr : exchange name memo entries = entries := ih h.2
    simp only [exchange] at hr
    simp only [exchange, List.map_cons, Ne.symm h.1, if_false, hr]

theorem countP_exchange {name : String} {old : Memo β α} {entries : List (String × Memo β α)}
    (h : entries.lookup name = some old) (hd : (entries.map Prod.fst).Nodup) (memo : Memo β α) :
    (exchange name memo entries).countP (·.2.isDeferred) + old.isDeferred.toNat =
      entries.countP (·.2.isDeferred) + memo.isDeferred.toNat := by
  induction entries with
  | nil => simp at h
  | cons e entries ih =>
    obtain ⟨n, m⟩ := e
    simp only [List.map_cons, List.nodup_cons] at hd
    have hc : exchange name memo ((n, m) :: entries) =
        (n, if n = name then memo else m) :: exchange name memo entries := by
      simp only [exchange, List.map_cons]
      split <;> rfl
    by_cases hn : name = n
    · subst hn
      simp only [List.lookup_cons, beq_self_eq_true, Option.some.injEq] at h
      subst h
      rw [hc, exchange_of_notMem hd.1, if_pos rfl]
      cases memo <;> cases m <;> simp [Memo.isDeferred]
    · have hb : (name == n) = false := by simp [hn]
      rw [List.lookup_cons, hb] at h
      have := ih h hd.2
      rw [hc, if_neg (Ne.symm hn), List.countP_cons, List.countP_cons]
      omega

/-- Setting a memo exchanges what the old one adds to the count for what the new one does. -/
theorem pending_set {d : Declarations β α} {name : String} {old : Memo β α}
    (h : d.find? name = some old) (memo : Memo β α) :
    (d.set name memo).pending + old.isDeferred.toNat = d.pending + memo.isDeferred.toNat :=
  countP_exchange h d.distinct memo

theorem pending_set_le (d : Declarations β α) (name : String) (memo : Memo β α) :
    (d.set name memo).pending ≤ d.pending + memo.isDeferred.toNat := by
  cases h : d.find? name with
  | some old =>
    have := pending_set h memo
    omega
  | none =>
    have hn : name ∉ d.entries.map Prod.fst := by
      intro hm
      obtain ⟨⟨n, m⟩, he, rfl⟩ := List.mem_map.1 hm
      rw [mem_entries_iff.1 he] at h
      cases h
    simp only [pending, set, exchange_of_notMem hn]
    omega

/-! ## Other bodies -/

section MapBodies

variable {γ : Type} (g : β → γ)

/-- The table with other bodies for the declarations that wait for their first use. -/
def mapBodies (d : Declarations β α) : Declarations γ α where
  entries := d.entries.map fun e => (e.1, e.2.mapBody g)
  distinct := by simpa [Function.comp_def] using d.distinct

/-- The names in order, with the values that are there. -/
def listing (d : Declarations β α) : List (String × Bool × Option α) :=
  d.entries.map fun e => (e.1, e.2.isForced, e.2.value?)

theorem listing_mapBodies (d : Declarations β α) : (d.mapBodies g).listing = d.listing := by
  simp [listing, mapBodies, Function.comp_def]

@[simp] theorem find?_mapBodies (d : Declarations β α) (name : String) :
    (d.mapBodies g).find? name = (d.find? name).map (Memo.mapBody g) := by
  simp only [find?, mapBodies]
  induction d.entries with
  | nil => rfl
  | cons e entries ih =>
    rw [List.map_cons, List.lookup_cons, List.lookup_cons, ih]
    cases name == e.1 <;> rfl

@[simp] theorem contains_mapBodies (d : Declarations β α) (name : String) :
    (d.mapBodies g).contains name = d.contains name := by
  simp [contains, mapBodies, Function.comp_def]

@[simp] theorem pending_mapBodies (d : Declarations β α) :
    (d.mapBodies g).pending = d.pending := by
  simp [pending, mapBodies, List.countP_map, Function.comp_def]

theorem set_mapBodies (d : Declarations β α) (name : String) (memo : Memo β α) :
    (d.set name memo).mapBodies g = (d.mapBodies g).set name (memo.mapBody g) := by
  refine ext_entries ?_
  simp only [set, mapBodies, exchange, List.map_map]
  refine List.map_congr_left fun e _ => ?_
  simp only [Function.comp]
  split <;> rfl

theorem declare_mapBodies (d : Declarations β α) (name : String) (memo : Memo β α) :
    (d.declare name memo).mapBodies g = (d.mapBodies g).declare name (memo.mapBody g) := by
  unfold declare
  by_cases h : d.contains name
  · rw [dif_pos h, dif_pos (by simpa using h), set_mapBodies]
  · rw [dif_neg h, dif_neg (by simpa using h)]
    refine ext_entries ?_
    simp [mapBodies]

/-- Bodies that are left as they are leave the table as it is. -/
theorem mapBodies_eq_self {g : β → β} {d : Declarations β α}
    (h : ∀ name body, (name, .deferred body) ∈ d.entries → g body = body) :
    d.mapBodies g = d := by
  refine ext_entries ?_
  have hmemo : ∀ e ∈ d.entries, (e.1, e.2.mapBody g) = e := by
    rintro ⟨name, memo⟩ he
    cases memo with
    | deferred body => simp only [Memo.mapBody, h name body he]
    | forcing => rfl
    | ready value => rfl
  simpa [mapBodies] using List.map_congr_left hmemo

end MapBodies

end Declarations

end LazyDecl
