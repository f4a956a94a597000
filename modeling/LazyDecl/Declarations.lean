import LazyDecl.Memo.Basic

/-! The table of declarations: names with their memos, in the order in which the
names were first declared. A name that is declared again keeps its place. -/

namespace LazyDecl

structure Declarations (β α : Type) where
  entries : List (String × Memo β α)
  distinct : (entries.map Prod.fst).Nodup

namespace Declarations

variable {β α : Type}

instance : EmptyCollection (Declarations β α) := ⟨⟨[], .nil⟩⟩

def size (d : Declarations β α) : Nat := d.entries.length

def find? (d : Declarations β α) (name : String) : Option (Memo β α) := d.entries.lookup name

def contains (d : Declarations β α) (name : String) : Bool := d.entries.any (·.1 = name)

/-- Whether a declaration has been computed, if there is one of this name. -/
def isForced? (d : Declarations β α) (name : String) : Option Bool :=
  (d.find? name).map Memo.isForced

/-- How many declarations wait for their first use. -/
def pending (d : Declarations β α) : Nat := d.entries.countP (·.2.isDeferred)

/-- Exchanges the memo of one name in its place. -/
def exchange (name : String) (memo : Memo β α) (entries : List (String × Memo β α)) :
    List (String × Memo β α) :=
  entries.map fun e => if e.1 = name then (e.1, memo) else e

theorem map_fst_exchange (name : String) (memo : Memo β α) (entries : List (String × Memo β α)) :
    (exchange name memo entries).map Prod.fst = entries.map Prod.fst := by
  simp only [exchange, List.map_map]
  refine List.map_congr_left fun e _ => ?_
  simp only [Function.comp]
  split <;> rfl

/-- Gives a declared name a new memo; other names are left alone. -/
def set (d : Declarations β α) (name : String) (memo : Memo β α) : Declarations β α where
  entries := exchange name memo d.entries
  distinct := by rw [map_fst_exchange]; exact d.distinct

theorem nodup_concat {d : Declarations β α} {name : String} (h : ¬d.contains name)
    (memo : Memo β α) : ((d.entries ++ [(name, memo)]).map Prod.fst).Nodup := by
  have hn : ∀ m, (name, m) ∉ d.entries := by
    intro m hm
    exact h (List.any_eq_true.2 ⟨(name, m), hm, by simp⟩)
  simp only [List.map_append, List.map_cons, List.map_nil, List.nodup_append]
  refine ⟨d.distinct, by simp, ?_⟩
  rintro a ha b hb rfl
  obtain ⟨e, he, rfl⟩ := List.mem_map.1 ha
  simp only [List.mem_singleton] at hb
  exact hn e.2 (hb ▸ he)

/-- Declares a name, in place of its earlier declaration if it has one. -/
def declare (d : Declarations β α) (name : String) (memo : Memo β α) : Declarations β α :=
  if h : d.contains name then d.set name memo
  else { entries := d.entries ++ [(name, memo)], distinct := nodup_concat h memo }

/-- The whole table in words. -/
def describe (quote : String → String) (text : α → String) (d : Declarations β α) : String :=
  let shown := d.entries.map fun (name, memo) => quote name ++ ": " ++ memo.describe text
  "Environment \x7b declarations: \x7b" ++ ", ".intercalate shown ++ "\x7d \x7d"

end Declarations

end LazyDecl
