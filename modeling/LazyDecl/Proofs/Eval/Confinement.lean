import LazyDecl.Proofs.Eval.Discipline
import LazyDecl.Proofs.Eval.Machine

/-!
What a computation keeps to. The plan of an expression asks for names that the expression
mentions and for no others, warns of keys that are taken and of nothing else, complains of no
cycle by itself, and goes on with proper values only.

* `Plan.ofExpr_confined`: so it does, by induction on the expression;
* `Config.Confined.step`: the machine stays within these bounds, in which every computation on
  the stack was asked for by the one below it;
* `Run.confined`: so does a run from a table of proper values, up to its result.
-/

namespace LazyDecl

/-! ## Proper values -/

mutual

/-- A reference stands in the value only as the key of a pair. -/
def Value.Proper : Value → Prop
  | .reference _ => False
  | .list items => itemsProper items
  | .table entries => entriesProper entries
  | .pair key value => (Reference.isReference key = true ∨ key.Proper) ∧ value.Proper
  | .boolean _ | .integer _ | .decimal _ | .string _ | .builder _ => True

def itemsProper : List Value → Prop
  | [] => True
  | v :: vs => v.Proper ∧ itemsProper vs

def entriesProper : List (Value × Value) → Prop
  | [] => True
  | (key, value) :: rest => key.Proper ∧ value.Proper ∧ entriesProper rest

end

theorem Value.Proper.not_reference {v : Value} (h : v.Proper) :
    Reference.isReference v = false := by
  cases v with
  | reference name => exact (Value.Proper.eq_1 name ▸ h).elim
  | _ => rfl

theorem Value.proper_ofLiteral (l : Literal) : (Value.ofLiteral l).Proper := by
  cases l <;> simp only [Value.ofLiteral, Value.Proper]

theorem Table.proper_insert {t : Table} {key v : Value} (ht : entriesProper t) (hkey : key.Proper)
    (hv : v.Proper) : entriesProper (t.insert key v) := by
  induction t with
  | nil => exact ⟨hkey, hv, trivial⟩
  | cons entry rest ih =>
    obtain ⟨k, u⟩ := entry
    obtain ⟨hk, hu, hrest⟩ := ht
    rw [Table.insert]
    split
    · exact ⟨hk, hv, hrest⟩
    · exact ⟨hk, hu, ih hrest⟩

/-- Values are proper. Nothing is asked of trees or of causes. -/
def Discipline.proper : Discipline where
  tree _ := True
  value := Value.Proper
  error _ := True
  body _ := trivial
  expected _ _ := trivial

/-! ## Operators -/

/-- The name that a cause complains of, if it is a cycle. -/
def EvalCause.cycle? : EvalCause → Option String
  | cyclicDeclaration name => some name
  | _ => none

/-- What an operator may come to: a value without parts, or a cause that is no cycle. -/
inductive Operates : Except EvalCause Value → Prop
  | boolean (b : Bool) : Operates (.ok (.boolean b))
  | integer (n : Int) : Operates (.ok (.integer n))
  | decimal (d : Decimal) : Operates (.ok (.decimal d))
  | string (s : String) : Operates (.ok (.string s))
  | error {cause : EvalCause} : cause.cycle? = none → Operates (.error cause)

theorem UnaryOp.operates (op : UnaryOp) (v : Value) : Operates (op.apply v) := by
  cases op <;> cases v <;> constructor <;> rfl

theorem Operands.operates {os : Operands} {op : BinaryOp} {v : Value} (h : os.apply op = .ok v) :
    Operates (.ok v) := by
  cases os <;> cases op <;> simp only [apply, Except.ok.injEq, reduceCtorEq] at h <;>
    (try split at h) <;> cases h <;> constructor

namespace BinaryOp

variable (operator : String) (l r : Value)

theorem operands_cases : (∃ os, operands operator l r = .ok os) ∨
    ∃ cause, operands operator l r = .error cause ∧ cause.cycle? = none := by
  unfold operands
  split
  · exact .inl ⟨_, rfl⟩
  · exact .inr ⟨_, rfl, rfl⟩

theorem operates_arithmetic (op : BinaryOp) : Operates (arithmetic op operator l r) := by
  unfold arithmetic
  rcases operands_cases operator l r with ⟨os, h⟩ | ⟨cause, h, hcause⟩
  · rw [h]
    dsimp only [bind, Except.bind]
    cases happly : os.apply op with
    | ok v => exact Operands.operates happly
    | error e => cases e <;> exact .error rfl
  · rw [h]
    exact .error hcause

theorem operates_ordered (holds : Ordering → Bool) : Operates (ordered holds operator l r) := by
  unfold ordered
  rcases operands_cases operator l r with ⟨os, h⟩ | ⟨cause, h, hcause⟩
  · rw [h]
    exact .boolean _
  · rw [h]
    exact .error hcause

theorem operates (op : BinaryOp) : Operates (op.apply operator l r) := by
  cases op with
  | equal | notEqual => exact .boolean _
  | less | lessEqual | greater | greaterEqual => exact operates_ordered operator l r _
  | sub | mul | div => exact operates_arithmetic operator l r _
  | add =>
    rw [apply]
    split
    · exact .string _
    · exact operates_arithmetic operator l r _

end BinaryOp

/-! ## Names that are mentioned -/

mutual

/-- The names that may be looked up for the value of an expression. A bare name in front of a
colon is taken as it stands, and the inside of a builder is left alone. -/
def Expr.mentions : Expr → List String
  | .literal .. => []
  | .name t => [t.lexeme]
  | .grouping inner => inner.mentions
  | .unary _ _ operand => operand.mentions
  | .binary _ _ left right => left.mentions ++ right.mentions
  | .logical _ _ left right => left.mentions ++ right.mentions
  | .binding left _ right =>
    (if left.name?.isSome then [] else left.mentions) ++ right.mentions
  | .sequence _ elements => elementMentions elements
  | .builder .. => []

def elementMentions : List Expr → List String
  | [] => []
  | e :: es => e.mentions ++ elementMentions es

end

/-- The names that a unit mentions. A declaration looks nothing up. -/
def Item.mentions : Item → List String
  | .statement s => if s.tag.lexeme = Eval.declarationTag then [] else s.value.mentions
  | .expression e => e.mentions

/-! ## Plans -/

namespace Plan

variable {α : Type}

/-- The plan keeps to the names of a scope, comes to a result with `Q`, and complains of cycles
only about names that are to blame. -/
def Confined (blamed : String → Prop) (scope : List String) (Q : α → Prop) : Plan α → Prop
  | .done a => Q a
  | .fail e => ∀ n ∈ e.cause.cycle?, blamed n
  | .warn w next => (∃ key, w.cause = .duplicateKey key) ∧ next.Confined blamed scope Q
  | .ask q next => (∃ t, q = .ofToken t ∧ t.lexeme ∈ scope) ∧
    ∀ v, v.Proper → (next v).Confined blamed scope Q

variable {blamed : String → Prop} {scope : List String} {Q : α → Prop}

theorem confined_fail {cause : EvalCause} (h : cause.cycle? = none) (t : Token) :
    (fail ⟨cause, t⟩ : Plan α).Confined blamed scope Q := by
  intro n hn
  rw [h] at hn
  cases hn

theorem confined_lift (t : Token) {r : Except EvalCause Value} (hr : Operates r)
    {k : Value → Plan α} (hk : ∀ v, v.Proper → (k v).Confined blamed scope Q) :
    (lift t r k).Confined blamed scope Q := by
  cases hr with
  | boolean | integer | decimal | string => exact hk _ (by simp only [Value.Proper])
  | error hcause => exact confined_fail hcause t

theorem confined_decideBy (op : LogicalOp) (operator : Token) (l : Value)
    {right : (Value → Plan α) → Plan α} {k : Value → Plan α}
    (hright : ∀ k, (∀ v, v.Proper → (k v).Confined blamed scope Q) →
      (right k).Confined blamed scope Q)
    (hk : ∀ v, v.Proper → (k v).Confined blamed scope Q) :
    (decideBy op operator l right k).Confined blamed scope Q := by
  unfold decideBy
  cases l.boolean? with
  | none => exact confined_fail rfl operator
  | some b =>
    dsimp only
    split
    · exact hk _ (by simp only [Value.Proper])
    · refine hright _ fun r hr => ?_
      unfold settle
      split
      · exact confined_fail rfl operator
      · exact hk r hr

mutual

/-- **The plan of an expression keeps to the names that the expression mentions,** whatever is
done with its value. -/
theorem ofExpr_confined (e : Expr) (he : e.mentions ⊆ scope) {k : Value → Plan α}
    (hk : ∀ v, v.Proper → (k v).Confined blamed scope Q) :
    (ofExpr e k).Confined blamed scope Q := by
  match e with
  | .literal value token => exact hk _ (Value.proper_ofLiteral value)
  | .name t => exact ⟨⟨t, rfl, he (by simp [Expr.mentions])⟩, hk⟩
  | .grouping inner => exact ofExpr_confined inner he hk
  | .unary op operator operand =>
    rw [ofExpr]
    split
    · exact confined_fail rfl operator
    · exact ofExpr_confined operand he fun v _ => confined_lift operator (op.operates v) hk
  | .binary op operator left right =>
    obtain ⟨hl, hr⟩ := List.append_subset.1 he
    exact ofExpr_confined left hl fun l _ => ofExpr_confined right hr fun r _ =>
      confined_lift operator (BinaryOp.operates operator.lexeme l r op) hk
  | .logical op operator left right =>
    obtain ⟨hl, hr⟩ := List.append_subset.1 he
    exact ofExpr_confined left hl fun l _ =>
      confined_decideBy op operator l (fun k hk => ofExpr_confined right hr hk) hk
  | .binding left colon right =>
    obtain ⟨hl, hr⟩ := List.append_subset.1 he
    rw [ofExpr]
    cases hn : left.name? with
    | some t =>
      exact ofExpr_confined right hr fun v hv => hk _ ⟨.inl rfl, hv⟩
    | none =>
      rw [hn] at hl
      exact ofExpr_confined left hl fun key hkey =>
        ofExpr_confined right hr fun v hv => hk _ ⟨.inr hkey, hv⟩
  | .sequence opening elements =>
    rw [ofExpr]
    split
    · exact ofEntries_confined [] elements he trivial fun t ht => hk _ ht
    · exact ofItems_confined elements he fun vs hvs => hk _ hvs
  | .builder kind body => exact hk _ (by simp only [Value.Proper])

theorem ofItems_confined (es : List Expr) (hes : elementMentions es ⊆ scope)
    {k : List Value → Plan α} (hk : ∀ vs, itemsProper vs → (k vs).Confined blamed scope Q) :
    (ofItems es k).Confined blamed scope Q := by
  match es with
  | [] => exact hk [] trivial
  | e :: es =>
    obtain ⟨he, hes⟩ := List.append_subset.1 hes
    rw [ofItems]
    split
    · exact confined_fail rfl _
    · exact ofExpr_confined e he fun v hv =>
        ofItems_confined es hes fun vs hvs => hk _ ⟨hv, hvs⟩

theorem ofEntries_confined (t : Table) (es : List Expr) (hes : elementMentions es ⊆ scope)
    (ht : entriesProper t) {k : Table → Plan α}
    (hk : ∀ t, entriesProper t → (k t).Confined blamed scope Q) :
    (ofEntries t es k).Confined blamed scope Q := by
  match es with
  | [] => exact hk t ht
  | .binding left colon right :: es =>
    obtain ⟨he, hes⟩ := List.append_subset.1 hes
    obtain ⟨hl, hr⟩ := List.append_subset.1 he
    -- What is done once the key is there.
    have hkey : ∀ key, key.Proper → (ofExpr right fun v => warnIf (t.contains key)
        (.duplicateKey key) colon (ofEntries (t.insert key v) es k)).Confined blamed scope Q := by
      intro key hkey
      refine ofExpr_confined right hr fun v hv => ?_
      have hrest := ofEntries_confined (t.insert key v) es hes (Table.proper_insert ht hkey hv) hk
      unfold warnIf
      split
      · exact ⟨⟨key, rfl⟩, hrest⟩
      · exact hrest
    rw [ofEntries]
    cases hn : left.name? with
    | some name => exact hkey _ (by simp only [Value.Proper])
    | none =>
      rw [hn] at hl
      exact ofExpr_confined left hl hkey
  | .literal .. :: es | .name .. :: es | .grouping .. :: es | .unary .. :: es
  | .binary .. :: es | .logical .. :: es | .sequence .. :: es | .builder .. :: es =>
    exact confined_fail rfl _

end

end Plan

/-! ## Runs -/

namespace Stack

variable {α β : Type}

/-- The names that the innermost computation keeps to: those of its body, or at the bottom
those of the unit. -/
def scope (root : List String) : {β : Type} → Stack α β → List String
  | _, .empty => root
  | _, .running _ body _ _ => body.mentions

/-- What the innermost computation may come to: a proper value, or at the bottom what the unit
may come to. -/
def Accepts (Q : α → Prop) : {β : Type} → Stack α β → β → Prop
  | _, .empty => Q
  | _, .running .. => Value.Proper

/-- Each computation was asked for by the one below it, which keeps to its scope from then on. -/
def Confined (blamed : String → Prop) (root : List String) (Q : α → Prop) :
    {β : Type} → Stack α β → Prop
  | _, .empty => True
  | _, .running name _ next outer => name ∈ outer.scope root ∧
    (∀ v, v.Proper → (next v).Confined blamed (outer.scope root) (outer.Accepts Q)) ∧
    outer.Confined blamed root Q

end Stack

namespace Config

variable {α : Type}

/-- The name that the next step complains of, because its computation is running. -/
def blames? (c : Config α) : Option String :=
  match c.plan with
  | .ask q _ =>
    match c.state.declarations.find? q.name with
    | some .forcing => some q.name
    | _ => none
  | _ => none

structure Confined (blamed : String → Prop) (root : List String) (Q : α → Prop)
    (c : Config α) : Prop where
  plan : c.plan.Confined blamed (c.stack.scope root) (c.stack.Accepts Q)
  stack : c.stack.Confined blamed root Q
  table : Discipline.proper.InTable c.state.declarations

variable {blamed : String → Prop} {root : List String} {Q : α → Prop}

/-- **A step stays within bounds,** if it complains of a name that is to blame. -/
theorem Confined.step {c d : Config α} (hc : c.Confined blamed root Q) (h : Step c d)
    (hblamed : ∀ n ∈ c.blames?, blamed n) : d.Confined blamed root Q := by
  obtain ⟨hplan, hstack, htable⟩ := hc
  cases h with
  | warn w next stack s => exact ⟨hplan.2, hstack, htable⟩
  | absent h next stack =>
    obtain ⟨⟨t, rfl, -⟩, -⟩ := hplan
    exact ⟨Plan.confined_fail rfl t, hstack, htable⟩
  | stored h next stack => exact ⟨hplan.2 _ (htable _ _ h), hstack, htable⟩
  | @cyclic β q s h next stack =>
    obtain ⟨⟨t, rfl, -⟩, -⟩ := hplan
    refine ⟨fun n hn => hblamed n ?_, hstack, htable⟩
    simp only [blames?, h]
    exact hn
  | start h next stack =>
    obtain ⟨⟨t, rfl, ht⟩, hnext⟩ := hplan
    exact ⟨Plan.ofExpr_confined _ (List.Subset.refl _) fun v hv => hv, ⟨ht, hnext, hstack⟩,
      htable.set _ trivial⟩
  | finish v name body next outer s =>
    obtain ⟨-, hnext, houter⟩ := hstack
    exact ⟨hnext v hplan, houter, htable.set name hplan⟩
  | abandon e name body next outer s => exact ⟨hplan, hstack.2.2, htable.set name trivial⟩

end Config

section Runs

variable {α : Type} {blamed : String → Prop} {root : List String} {Q : α → Prop} {c : Config α}
  {trace : List (Config α)} {r : EStateM.Result EvalError EvalState α}

theorem Run.confined (h : Run c trace r) (hc : c.Confined blamed root Q)
    (hblamed : ∀ d ∈ trace, ∀ n ∈ d.blames?, blamed n) :
    ∀ d ∈ trace, d.Confined blamed root Q :=
  h.invariant hc fun d hd _ hconfined hs => hconfined.step hs (hblamed d hd)

/-- Within bounds a run comes to what `Q` says of it, or fails and blames no name without
reason. -/
theorem Config.Confined.result (h : (Config.ended r).Confined blamed root Q) :
    Discipline.proper.Allows Q r ∧
      ∀ e, Eval.outcome r = .error e → ∀ n ∈ e.cause.cycle?, blamed n := by
  cases r with
  | ok a s =>
    refine ⟨.ok h.plan h.table, fun e he => ?_⟩
    cases he
  | error e s =>
    refine ⟨.error trivial h.table, fun e' he => ?_⟩
    cases he
    exact h.plan

end Runs

/-! ## Units -/

/-- What a unit may come to: a proper value, or nothing at all if it declares a name. -/
def Item.Yields (u : Item) : Option Value → Prop
  | some v => v.Proper
  | none => (Reference.declared? u).isSome

section Units

variable {blamed : String → Prop} {s : EvalState}

/-- The prompt does not follow a proper value. -/
theorem Plan.yield_proper (mode : Mode) (anchor : Token) {v : Value} (hv : v.Proper) :
    yield mode anchor v = .done (some v) := by
  cases mode with
  | batch => rfl
  | interactive =>
    cases v with
    | reference name => exact (Value.Proper.eq_1 name ▸ hv).elim
    | _ => rfl

theorem Config.confined_ofExpr (mode : Mode) (u : Item) {e : Expr} (he : e.mentions = u.mentions)
    (anchor : Token) (hs : Discipline.proper.InTable s.declarations) :
    (ofExpr mode e anchor s).Confined blamed u.mentions u.Yields :=
  ⟨Plan.ofExpr_confined e (he ▸ List.Subset.refl _) fun v hv => by
    rw [Plan.yield_proper mode anchor hv]
    exact hv, trivial, hs⟩

theorem Config.confined_ofUnit (mode : Mode) (u : Item)
    (hs : Discipline.proper.InTable s.declarations) :
    (ofUnit mode u s).Confined blamed u.mentions u.Yields := by
  cases u with
  | expression e => exact confined_ofExpr mode (.expression e) rfl e.anchor hs
  | statement st =>
    obtain ⟨tag, e⟩ := st
    by_cases ht : tag.lexeme = Eval.declarationTag
    · rw [ofUnit, if_pos ht]
      obtain ⟨name, body, hd, hv, -⟩ | ⟨-, t, hv, -⟩ := declaration_cases e ht s
      · rw [hv]
        have hyields : (Item.statement ⟨tag, e⟩).Yields none := Option.isSome_of_eq_some hd
        exact ⟨hyields, trivial, hs.declare _ trivial⟩
      · rw [hv]
        exact ⟨Plan.confined_fail rfl t, trivial, hs⟩
    · rw [ofUnit, if_neg ht]
      exact confined_ofExpr mode _ (if_neg ht).symm tag hs

end Units

end LazyDecl
