import LazyDecl.Program

/-!
The tokens that a tree stores, in source order (`Expr.tokens`), and trees with
other tokens in the places of their own (`Expr.map`).
-/

namespace LazyDecl

mutual

def Expr.tokens : Expr → List Token
  | .literal _ token => [token]
  | .name token => [token]
  | .grouping inner => inner.tokens
  | .unary _ operator operand => operator :: operand.tokens
  | .binary _ operator left right => left.tokens ++ operator :: right.tokens
  | .logical _ operator left right => left.tokens ++ operator :: right.tokens
  | .binding left colon right => left.tokens ++ colon :: right.tokens
  | .sequence opening elements => opening :: elementTokens elements
  | .builder kind body => kind :: bodyTokens body

def elementTokens : List Expr → List Token
  | [] => []
  | e :: es => e.tokens ++ elementTokens es

def Statement.tokens : Statement → List Token
  | ⟨tag, value⟩ => tag :: value.tokens

def bodyTokens : List Statement → List Token
  | [] => []
  | s :: ss => s.tokens ++ bodyTokens ss

end

mutual

def Expr.map (f : Token → Token) : Expr → Expr
  | .literal value token => .literal value (f token)
  | .name token => .name (f token)
  | .grouping inner => .grouping (inner.map f)
  | .unary op operator operand => .unary op (f operator) (operand.map f)
  | .binary op operator left right => .binary op (f operator) (left.map f) (right.map f)
  | .logical op operator left right => .logical op (f operator) (left.map f) (right.map f)
  | .binding left colon right => .binding (left.map f) (f colon) (right.map f)
  | .sequence opening elements => .sequence (f opening) (mapElements f elements)
  | .builder kind body => .builder (f kind) (mapBody f body)

def mapElements (f : Token → Token) : List Expr → List Expr
  | [] => []
  | e :: es => e.map f :: mapElements f es

def Statement.map (f : Token → Token) : Statement → Statement
  | ⟨tag, value⟩ => ⟨f tag, value.map f⟩

def mapBody (f : Token → Token) : List Statement → List Statement
  | [] => []
  | s :: ss => s.map f :: mapBody f ss

end

theorem mapElements_eq (f : Token → Token) (es : List Expr) :
    mapElements f es = es.map (Expr.map f) := by
  induction es with
  | nil => rfl
  | cons e es ih => rw [mapElements, ih, List.map_cons]

theorem mapBody_eq (f : Token → Token) (ss : List Statement) :
    mapBody f ss = ss.map (Statement.map f) := by
  induction ss with
  | nil => rfl
  | cons s ss ih => rw [mapBody, ih, List.map_cons]

@[simp] theorem Statement.tag_map (f : Token → Token) (s : Statement) :
    (s.map f).tag = f s.tag := by
  cases s; rfl

@[simp] theorem Statement.value_map (f : Token → Token) (s : Statement) :
    (s.map f).value = s.value.map f := by
  cases s; rfl

namespace Expr

@[simp] theorem isBinding_map (f : Token → Token) (e : Expr) :
    (e.map f).isBinding = e.isBinding := by
  cases e <;> simp [map, isBinding]

@[simp] theorem name?_map (f : Token → Token) (e : Expr) : (e.map f).name? = e.name?.map f := by
  cases e <;> simp [map, name?]

@[simp] theorem anchor_map (f : Token → Token) (e : Expr) : (e.map f).anchor = f e.anchor := by
  match e with
  | grouping inner => simpa [map, anchor] using anchor_map f inner
  | literal .. | name .. | unary .. | binary .. | logical .. | binding .. | sequence ..
  | builder .. => simp [map, anchor]

theorem anchor_mem (e : Expr) : e.anchor ∈ e.tokens := by
  match e with
  | grouping inner => simpa [anchor, tokens] using anchor_mem inner
  | literal .. | name .. | unary .. | binary .. | logical .. | binding .. | sequence ..
  | builder .. => simp [anchor, tokens]

theorem name?_mem {e : Expr} {t : Token} (h : e.name? = some t) : t ∈ e.tokens := by
  cases e with
  | name token =>
    cases h
    exact List.mem_singleton_self t
  | _ => cases h

end Expr

section Map

variable {f : Token → Token}

mutual

/-- A change that leaves the tokens of a tree alone leaves the tree alone. -/
theorem Expr.map_eq_self (e : Expr) (h : ∀ t ∈ e.tokens, f t = t) : e.map f = e := by
  match e with
  | .literal value token =>
    rw [Expr.map, h token (by simp [Expr.tokens])]
  | .name token =>
    rw [Expr.map, h token (by simp [Expr.tokens])]
  | .grouping inner =>
    rw [Expr.map, Expr.map_eq_self inner h]
  | .unary op operator operand =>
    simp only [Expr.tokens, List.mem_cons, forall_eq_or_imp] at h
    rw [Expr.map, h.1, Expr.map_eq_self operand h.2]
  | .binary op operator left right =>
    simp only [Expr.tokens, List.mem_append, List.mem_cons, or_imp, forall_and, forall_eq] at h
    rw [Expr.map, h.2.1, Expr.map_eq_self left h.1, Expr.map_eq_self right h.2.2]
  | .logical op operator left right =>
    simp only [Expr.tokens, List.mem_append, List.mem_cons, or_imp, forall_and, forall_eq] at h
    rw [Expr.map, h.2.1, Expr.map_eq_self left h.1, Expr.map_eq_self right h.2.2]
  | .binding left colon right =>
    simp only [Expr.tokens, List.mem_append, List.mem_cons, or_imp, forall_and, forall_eq] at h
    rw [Expr.map, h.2.1, Expr.map_eq_self left h.1, Expr.map_eq_self right h.2.2]
  | .sequence opening elements =>
    simp only [Expr.tokens, List.mem_cons, forall_eq_or_imp] at h
    rw [Expr.map, h.1, mapElements_eq_self elements h.2]
  | .builder kind body =>
    simp only [Expr.tokens, List.mem_cons, forall_eq_or_imp] at h
    rw [Expr.map, h.1, mapBody_eq_self body h.2]

theorem mapElements_eq_self (es : List Expr) (h : ∀ t ∈ elementTokens es, f t = t) :
    mapElements f es = es := by
  match es with
  | [] => rfl
  | e :: es =>
    simp only [elementTokens, List.mem_append, or_imp, forall_and] at h
    rw [mapElements, e.map_eq_self h.1, mapElements_eq_self es h.2]

theorem mapBody_eq_self (ss : List Statement) (h : ∀ t ∈ bodyTokens ss, f t = t) :
    mapBody f ss = ss := by
  match ss with
  | [] => rfl
  | ⟨tag, value⟩ :: ss =>
    simp only [bodyTokens, Statement.tokens, List.cons_append, List.mem_cons, List.mem_append,
      or_imp, forall_and, forall_eq] at h
    rw [mapBody, Statement.map, h.1, value.map_eq_self h.2.1, mapBody_eq_self ss h.2.2]

end

theorem Expr.map_id (e : Expr) : e.map id = e := e.map_eq_self fun _ _ => rfl

mutual

theorem Expr.map_map (f g : Token → Token) (e : Expr) :
    (e.map f).map g = e.map fun t => g (f t) := by
  match e with
  | .literal .. | .name .. => rfl
  | .grouping inner => simp only [Expr.map, Expr.map_map f g inner]
  | .unary _ _ operand => simp only [Expr.map, Expr.map_map f g operand]
  | .binary _ _ left right | .logical _ _ left right | .binding left _ right =>
    simp only [Expr.map, Expr.map_map f g left, Expr.map_map f g right]
  | .sequence _ elements => simp only [Expr.map, mapElements_map f g elements]
  | .builder _ body => simp only [Expr.map, mapBody_map f g body]

theorem mapElements_map (f g : Token → Token) (es : List Expr) :
    mapElements g (mapElements f es) = mapElements (fun t => g (f t)) es := by
  match es with
  | [] => rfl
  | e :: es => simp only [mapElements, e.map_map f g, mapElements_map f g es]

theorem mapBody_map (f g : Token → Token) (ss : List Statement) :
    mapBody g (mapBody f ss) = mapBody (fun t => g (f t)) ss := by
  match ss with
  | [] => rfl
  | ⟨tag, value⟩ :: ss => simp only [mapBody, Statement.map, value.map_map f g, mapBody_map f g ss]

end

mutual

/-- The tokens of a tree with other tokens. -/
theorem Expr.tokens_map (f : Token → Token) (e : Expr) : (e.map f).tokens = e.tokens.map f := by
  match e with
  | .literal .. | .name .. => rfl
  | .grouping inner => simp only [Expr.map, Expr.tokens, Expr.tokens_map f inner]
  | .unary _ _ operand =>
    simp only [Expr.map, Expr.tokens, Expr.tokens_map f operand, List.map_cons]
  | .binary _ _ left right | .logical _ _ left right | .binding left _ right =>
    simp only [Expr.map, Expr.tokens, Expr.tokens_map f left, Expr.tokens_map f right,
      List.map_append, List.map_cons]
  | .sequence _ elements =>
    simp only [Expr.map, Expr.tokens, elementTokens_map f elements, List.map_cons]
  | .builder _ body => simp only [Expr.map, Expr.tokens, bodyTokens_map f body, List.map_cons]

theorem elementTokens_map (f : Token → Token) (es : List Expr) :
    elementTokens (mapElements f es) = (elementTokens es).map f := by
  match es with
  | [] => rfl
  | e :: es =>
    simp only [mapElements, elementTokens, e.tokens_map f, elementTokens_map f es, List.map_append]

theorem bodyTokens_map (f : Token → Token) (ss : List Statement) :
    bodyTokens (mapBody f ss) = (bodyTokens ss).map f := by
  match ss with
  | [] => rfl
  | ⟨tag, value⟩ :: ss =>
    simp only [mapBody, Statement.map, bodyTokens, Statement.tokens, value.tokens_map f,
      bodyTokens_map f ss, List.cons_append, List.map_append, List.map_cons]

end

theorem Statement.map_id (s : Statement) : s.map id = s := by
  obtain ⟨tag, value⟩ := s
  rw [Statement.map, value.map_id]
  rfl

theorem Statement.map_map (f g : Token → Token) (s : Statement) :
    (s.map f).map g = s.map fun t => g (f t) := by
  obtain ⟨tag, value⟩ := s
  simp only [Statement.map, value.map_map f g]

end Map

namespace Item

def tokens : Item → List Token
  | statement s => s.tokens
  | expression e => e.tokens

def map (f : Token → Token) : Item → Item
  | statement s => statement (s.map f)
  | expression e => expression (e.map f)

theorem tokens_map (f : Token → Token) (u : Item) : (u.map f).tokens = u.tokens.map f := by
  cases u with
  | statement s =>
    obtain ⟨tag, value⟩ := s
    simp only [map, tokens, Statement.map, Statement.tokens, value.tokens_map f, List.map_cons]
  | expression e => exact e.tokens_map f

theorem map_id (u : Item) : u.map id = u := by
  cases u with
  | statement s => rw [map, s.map_id]
  | expression e => rw [map, e.map_id]

theorem map_map (f g : Token → Token) (u : Item) : (u.map f).map g = u.map fun t => g (f t) := by
  cases u with
  | statement s => simp only [map, s.map_map f g]
  | expression e => simp only [map, e.map_map f g]

end Item

namespace Program

/-- The units of a program, each as one that the prompt takes. -/
def items : Program → List Item
  | batch statements => statements.map .statement
  | interactive items => items

/-- The tokens of all units in order. -/
def tokens (p : Program) : List Token := p.items.flatMap Item.tokens

/-- The program with other tokens. -/
def map (f : Token → Token) : Program → Program
  | batch statements => batch (statements.map (Statement.map f))
  | interactive items => interactive (items.map (Item.map f))

theorem items_map (f : Token → Token) (p : Program) :
    (p.map f).items = p.items.map (Item.map f) := by
  cases p with
  | batch statements =>
    simp only [map, items, List.map_map]
    rfl
  | interactive items => rfl

theorem tokens_map (f : Token → Token) (p : Program) : (p.map f).tokens = p.tokens.map f := by
  simp only [tokens, items_map, List.flatMap_map, List.map_flatMap, Item.tokens_map]

theorem map_id (p : Program) : p.map id = p := by
  cases p with
  | batch statements =>
    exact congrArg batch (List.map_id'' Statement.map_id statements)
  | interactive items =>
    exact congrArg interactive (List.map_id'' Item.map_id items)

theorem map_map (f g : Token → Token) (p : Program) :
    (p.map f).map g = p.map fun t => g (f t) := by
  cases p with
  | batch statements =>
    simp only [map, List.map_map]
    exact congrArg batch (List.map_congr_left fun s _ => s.map_map f g)
  | interactive items =>
    simp only [map, List.map_map]
    exact congrArg interactive (List.map_congr_left fun u _ => u.map_map f g)

end Program

end LazyDecl
