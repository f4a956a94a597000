import Mathlib.Data.List.Forall2
import LazyDecl.Proofs.Eval.Memoization

/-!
The order of declarations. A session that declares all its names before anything else gives
each further unit at least the value that it has where declarations and units are mixed, and
the order of the declarations themselves does not show at all.

* `Reference.item_congr`: what a unit comes to depends on which body stands under which name;
* `Reference.others_below`: a unit keeps its value when more is declared in front of it;
* `yields_hoisted`: both laws for sessions with memos.
-/

namespace LazyDecl

/-- The unit has the tag of declarations, whether or not it is a binding of a name. -/
def Item.isDeclaration : Item → Bool
  | .statement s => s.tag.lexeme = Eval.declarationTag
  | .expression _ => false

namespace Reference

variable {bodies bodies' : Bodies} {u : Item}

theorem declared?_eq_none (h : u.isDeclaration = false) : declared? u = none := by
  cases u with
  | expression e => rfl
  | statement s => exact if_neg (of_decide_eq_false h)

/-- What a unit comes to that declares nothing: the value of its expression. -/
theorem exists_item_eq (h : u.isDeclaration = false) :
    ∃ e, ∀ bodies, item bodies u = (value bodies [] e).map some := by
  cases u with
  | expression e => exact ⟨e, fun _ => rfl⟩
  | statement s => exact ⟨s.value, fun _ => if_neg (of_decide_eq_false h)⟩

/-! ## Bodies under names -/

theorem force_congr (h : ∀ n, bodies.lookup n = bodies'.lookup n) (progress : List String)
    (t : Token) : force bodies progress t = force bodies' progress t := by
  cases hl : bodies.lookup t.lexeme with
  | none => rw [force_none hl, force_none (h _ ▸ hl)]
  | some body =>
    by_cases hp : t.lexeme ∈ progress
    · rw [force_cyclic hl hp, force_cyclic (h _ ▸ hl) hp]
    · rw [force_some hl hp, force_some (h _ ▸ hl) hp, value, value]
      have hforce : force bodies (t.lexeme :: progress) = force bodies' (t.lexeme :: progress) :=
        funext fun u => force_congr h _ u
      rw [hforce]
termination_by idle bodies progress
decreasing_by exact idle_cons_lt hl hp

/-- Where the same names stand for the same bodies, a unit that declares nothing comes to the
same. -/
theorem item_congr (h : ∀ n, bodies.lookup n = bodies'.lookup n) (hu : u.isDeclaration = false) :
    item bodies u = item bodies' u := by
  obtain ⟨e, he⟩ := exists_item_eq hu
  have hforce : force bodies [] = force bodies' [] := funext (force_congr h [])
  rw [he, he, value, value, hforce]

/-- A unit keeps its value where more is declared. -/
theorem item_below (h : ∀ n body, bodies.lookup n = some body → bodies'.lookup n = some body)
    (hu : u.isDeclaration = false) : Below (item bodies u) (item bodies' u) := by
  obtain ⟨e, he⟩ := exists_item_eq hu
  rw [he, he]
  exact (valueOver_below (force_below h fun _ hn => .inl hn) e).map some

theorem mem_of_lookup {name : String} {body : Expr} (h : bodies.lookup name = some body) :
    (name, body) ∈ bodies := by
  obtain ⟨before, after, rfl, -⟩ := List.lookup_eq_some_iff.1 h
  simp

/-- The order of bodies does not matter if no name has two. -/
theorem lookup_perm (h : bodies.Perm bodies') (hd : (bodies.map Prod.fst).Nodup) (n : String) :
    bodies.lookup n = bodies'.lookup n := by
  have hd' : (bodies'.map Prod.fst).Nodup := (h.map Prod.fst).nodup_iff.1 hd
  refine Option.ext fun body => ⟨fun hb => ?_, fun hb => ?_⟩
  · exact Declarations.lookup_eq_some_of_mem hd' (h.mem_iff.1 (mem_of_lookup hb))
  · exact Declarations.lookup_eq_some_of_mem hd (h.mem_iff.2 (mem_of_lookup hb))

/-! ## Units in a row -/

theorem length_items (bodies : Bodies) (us : List Item) :
    (items bodies us).length = us.length := by
  induction us generalizing bodies with
  | nil => rfl
  | cons u us ih => simp [items, ih]

theorem items_append (bodies : Bodies) (us vs : List Item) :
    items bodies (us ++ vs) = items bodies us ++ items (bodies ++ us.filterMap declared?) vs := by
  induction us generalizing bodies with
  | nil => simp [items]
  | cons u us ih => rw [append_declared, List.cons_append, items, items, ih, List.cons_append]

theorem flatten_programs (bodies : Bodies) (ps : List Program) :
    (programs bodies ps).flatten = items bodies (ps.flatMap Program.items) := by
  induction ps generalizing bodies with
  | nil => rfl
  | cons p ps ih => rw [programs, List.flatten_cons, ih, List.flatMap_cons, items_append]

/-- The units that declare nothing, each with what it comes to. -/
def others (bodies : Bodies) (us : List Item) : List (Item × Except EvalError (Option Value)) :=
  (us.zip (items bodies us)).filter fun r => !r.1.isDeclaration

theorem others_cons (bodies : Bodies) (u : Item) (us : List Item) :
    others bodies (u :: us) =
      (if u.isDeclaration then [] else [(u, item bodies u)]) ++
        others (bodies ++ (declared? u).toList) us := by
  rw [others, items, List.zip_cons_cons, List.filter_cons]
  cases u.isDeclaration <;> rfl

/-- Behind the last declaration all units find the same bodies. -/
theorem others_eq_map {us : List Item} (h : ∀ u ∈ us, u.isDeclaration = false) :
    others bodies us = us.map fun u => (u, item bodies u) := by
  induction us with
  | nil => rfl
  | cons u us ih =>
    obtain ⟨hu, hus⟩ := List.forall_mem_cons.1 h
    rw [others_cons, hu, declared?_eq_none hu, Option.toList_none, List.append_nil, ih hus]
    rfl

theorem others_of_declarations {us : List Item} (h : ∀ u ∈ us, u.isDeclaration = true) :
    others bodies us = [] := by
  induction us generalizing bodies with
  | nil => rfl
  | cons u us ih =>
    obtain ⟨hu, hus⟩ := List.forall_mem_cons.1 h
    rw [others_cons, hu, ih hus]
    rfl

theorem others_append (bodies : Bodies) (us vs : List Item) :
    others bodies (us ++ vs) =
      others bodies us ++ others (bodies ++ us.filterMap declared?) vs := by
  rw [others, items_append, List.zip_append (length_items bodies us).symm, List.filter_append]
  rfl

/-- With the declarations in front, all other units find them. -/
theorem others_hoisted {declarations us : List Item}
    (hdecl : ∀ u ∈ declarations, u.isDeclaration = true)
    (hother : ∀ u ∈ us, u.isDeclaration = false) :
    others [] (declarations ++ us) =
      us.map fun u => (u, item (declarations.filterMap declared?) u) := by
  rw [others_append, others_of_declarations hdecl, others_eq_map hother]
  rfl

theorem others_fst (bodies : Bodies) (us : List Item) :
    (others bodies us).map Prod.fst = us.filter fun u => !u.isDeclaration := by
  induction us generalizing bodies with
  | nil => rfl
  | cons u us ih =>
    rw [others_cons, List.map_append, ih, List.filter_cons]
    cases u.isDeclaration <;> rfl

/-- **Declaring early loses no value.** If all that the units declare is there from the start,
each unit in between has the value that it has when it is its turn, if it has one then. -/
theorem others_below {us : List Item}
    (h : ∀ n body, (bodies ++ us.filterMap declared?).lookup n = some body →
      bodies'.lookup n = some body) :
    List.Forall₂ (fun x y => x.1 = y.1 ∧ Below x.2 y.2) (others bodies us)
      ((us.filter fun u => !u.isDeclaration).map fun u => (u, item bodies' u)) := by
  induction us generalizing bodies with
  | nil => exact .nil
  | cons u us ih =>
    have hrest := ih (append_declared bodies u us ▸ h)
    rw [others_cons, List.filter_cons]
    cases hu : u.isDeclaration with
    | true => exact hrest
    | false =>
      refine .cons ⟨rfl, item_below (fun n body hb => h n body ?_) hu⟩ hrest
      rw [List.lookup_append, hb, Option.some_or]

end Reference

/-! ## Sessions -/

/-- The units of a fresh session that declare nothing, each with what it comes to. -/
def yields (ps : List Program) : List (Item × Except EvalError (Option Value)) :=
  ((ps.flatMap Program.items).zip ((evaluateAll ps ∅).1.flatMap Evaluation.results)).filter
    fun r => !r.1.isDeclaration

theorem yields_eq_others {ps : List Program}
    (h : (((ps.flatMap Program.items).filterMap Reference.declared?).map Prod.fst).Nodup) :
    yields ps = Reference.others [] (ps.flatMap Program.items) := by
  have hresults : (evaluateAll ps ∅).1.flatMap Evaluation.results =
      Reference.items [] (ps.flatMap Program.items) := by
    rw [← Reference.flatten_programs, List.flatMap_def,
      Memoization.evaluateAll_agrees ps ∅ Memoization.tracks_empty h]
  rw [yields, hresults, Reference.others]

/-- What is declared when all declarations have been put in front is what was declared before,
in another order. -/
theorem declared_perm {us declarations : List Item}
    (h : declarations.Perm (us.filter Item.isDeclaration)) :
    (us.filterMap Reference.declared?).Perm (declarations.filterMap Reference.declared?) := by
  have hnone : ∀ u ∈ us, (if u.isDeclaration = true then Reference.declared? u else none) =
      Reference.declared? u := by
    intro u _
    cases hu : u.isDeclaration with
    | true => rfl
    | false => simp [Reference.declared?_eq_none hu]
  have hus : (us.filter Item.isDeclaration).filterMap Reference.declared? =
      us.filterMap Reference.declared? := by
    rw [List.filterMap_filter]
    exact List.filterMap_congr hnone
  exact hus ▸ (h.filterMap _).symm

/-- **Declaration order only matters for failures.** Take all declarations of a session out and
put them in front of everything else, in any order: if no name is declared twice, each unit that
had a value has the same one. If the declarations came first already, each of the other units
comes to the same, be it a value or an error. Which programs the units stand in makes no
difference. -/
theorem yields_hoisted {ps qs : List Program} {declarations : List Item}
    (hdistinct : (((ps.flatMap Program.items).filterMap Reference.declared?).map Prod.fst).Nodup)
    (hperm : declarations.Perm ((ps.flatMap Program.items).filter Item.isDeclaration))
    (hunits : qs.flatMap Program.items =
      declarations ++ (ps.flatMap Program.items).filter fun u => !u.isDeclaration) :
    (yields ps).map Prod.fst = (ps.flatMap Program.items).filter (fun u => !u.isDeclaration) ∧
      List.Forall₂ (fun x y => x.1 = y.1 ∧ ∀ v, x.2 = .ok (some v) → y.2 = .ok (some v))
        (yields ps) (yields qs) ∧
      (ps.flatMap Program.items = (ps.flatMap Program.items).filter Item.isDeclaration ++
          (ps.flatMap Program.items).filter (fun u => !u.isDeclaration) →
        yields ps = yields qs) := by
  rw [yields_eq_others hdistinct]
  generalize ps.flatMap Program.items = us at *
  have hdeclared := declared_perm hperm
  have hother : ∀ u ∈ us.filter (fun u => !u.isDeclaration), u.isDeclaration = false := by
    intro u hu
    simpa using (List.mem_filter.1 hu).2
  have hdecl : ∀ u ∈ declarations, u.isDeclaration = true := by
    intro u hu
    exact (List.mem_filter.1 (hperm.mem_iff.1 hu)).2
  have hlookup := Reference.lookup_perm hdeclared hdistinct
  have hqs : yields qs = (us.filter fun u => !u.isDeclaration).map fun u =>
      (u, Reference.item (declarations.filterMap Reference.declared?) u) := by
    have hnone : (us.filter fun u => !u.isDeclaration).filterMap Reference.declared? = [] := by
      rw [List.filterMap_eq_nil_iff]
      exact fun u hu => Reference.declared?_eq_none (hother u hu)
    have hdistinct' : (((qs.flatMap Program.items).filterMap Reference.declared?).map
        Prod.fst).Nodup := by
      rw [hunits, List.filterMap_append, hnone, List.append_nil]
      exact (hdeclared.map Prod.fst).nodup_iff.1 hdistinct
    rw [yields_eq_others hdistinct', hunits, Reference.others_hoisted hdecl hother]
  refine ⟨Reference.others_fst [] us, ?_, fun hfirst => ?_⟩
  · have hbelow : List.Forall₂ _ (Reference.others [] us) _ :=
      Reference.others_below fun n body hb => hlookup n ▸ hb
    rw [hqs]
    exact hbelow.imp fun _ _ h => ⟨h.1, fun v hv => h.2 (some v) hv⟩
  · have hdecl' : ∀ u ∈ us.filter Item.isDeclaration, u.isDeclaration = true :=
      fun u hu => (List.mem_filter.1 hu).2
    have hothers := Reference.others_hoisted hdecl' hother
    rw [← hfirst] at hothers
    have hlookup' := Reference.lookup_perm (declared_perm (.refl _)) hdistinct
    rw [hqs, hothers]
    refine List.map_congr_left fun u hu => congrArg (Prod.mk u) ?_
    exact Reference.item_congr (fun n => (hlookup' n).symm.trans (hlookup n)) (hother u hu)

open Memoization (word retried)

/-- The two declarations of `retried`, as they stand there. -/
def retriedDeclarations : List Statement :=
  [⟨word "decl", .binding (.name (word "a")) (word ":") (.name (word "b"))⟩,
    ⟨word "decl", .binding (.name (word "b")) (word ":") (.literal (.integer 1) (word "1"))⟩]

/-- The other units of `retried` behind some declarations. -/
def retriedBehind (declarations : List Statement) : List Program :=
  [.batch declarations, .interactive [.statement ⟨word "show", .name (word "a")⟩,
    .expression (.name (word "a")), .expression (.name (word "a"))]]

/-- The unit that fails where it stands has a value behind all declarations, and the others keep
theirs. Once the declarations are in front, their order does not matter. -/
theorem yields_hoisted_retried :
    (yields retried).map Prod.snd =
        [.error ⟨.unknownName "b", word "b"⟩, .ok (some (.integer 1)),
          .ok (some (.integer 1))] ∧
      (yields (retriedBehind retriedDeclarations.reverse)).map Prod.snd =
        [.ok (some (.integer 1)), .ok (some (.integer 1)), .ok (some (.integer 1))] ∧
      List.Forall₂ (fun x y => x.1 = y.1 ∧ ∀ v, x.2 = .ok (some v) → y.2 = .ok (some v))
        (yields retried) (yields (retriedBehind retriedDeclarations.reverse)) ∧
      yields (retriedBehind retriedDeclarations) =
        yields (retriedBehind retriedDeclarations.reverse) := by
  have hdistinct : (((retried.flatMap Program.items).filterMap
      Reference.declared?).map Prod.fst).Nodup := by decide
  have hfirst : (((retriedBehind retriedDeclarations).flatMap Program.items).filterMap
      Reference.declared?).map Prod.fst |>.Nodup := by decide
  have hreversed : (((retriedBehind retriedDeclarations.reverse).flatMap Program.items).filterMap
      Reference.declared?).map Prod.fst |>.Nodup := by decide
  have hperm : (retriedDeclarations.reverse.map Item.statement).Perm
      (retriedDeclarations.map Item.statement) := .swap _ _ _
  have hunits : (retriedBehind retriedDeclarations.reverse).flatMap Program.items =
      retriedDeclarations.reverse.map Item.statement ++
        (retried.flatMap Program.items).filter fun u => !u.isDeclaration := rfl
  have hlate := yields_hoisted hdistinct hperm hunits
  have hearly := yields_hoisted hfirst hperm hunits
  have hitems : Reference.items [] (retried.flatMap Program.items) =
      [.ok none, .error ⟨.unknownName "b", word "b"⟩, .ok none, .ok (some (.integer 1)),
        .ok (some (.integer 1))] := by
    cbv
  have hitems' : Reference.items [] ((retriedBehind retriedDeclarations.reverse).flatMap
      Program.items) =
        [.ok none, .ok none, .ok (some (.integer 1)), .ok (some (.integer 1)),
          .ok (some (.integer 1))] := by
    cbv
  refine ⟨?_, ?_, hlate.2.1, hearly.2.2 rfl⟩
  · rw [yields_eq_others hdistinct, Reference.others, hitems]
    rfl
  · rw [yields_eq_others hreversed, Reference.others, hitems']
    rfl

end LazyDecl
