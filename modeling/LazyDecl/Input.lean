import LazyDecl.Token

/-! What is left of a run of tokens. Every question about it is asked in a view:
the visible one steps over hidden tokens, the hidden one takes each token as it
comes. An end mark is never passed, wherever in the run it stands. -/

namespace LazyDecl

inductive View where
  | visible
  | hidden
  deriving DecidableEq

namespace View

/-- A run of tokens from the first one on that the view shows. -/
def ahead (v : View) (ts : List Token) : List Token :=
  match v with
  | visible => ts.dropWhile (·.hidden)
  | hidden => ts

/-- Whether the view steps over the first token of a run. -/
def skips (v : View) (ts : List Token) : Bool :=
  v = visible && ts.head?.any (·.hidden)

end View

structure Input where
  /-- The tokens ahead, without the final end mark. -/
  rest : List Token
  final : Token
  /-- Whether the last step passed over hidden tokens behind the token it took. -/
  skipped : Bool := false
  final_eof : final.kind = .eof

namespace Input

/-- A run of tokens as input. A run that lacks an end mark gets one just behind
its last token. -/
def ofTokens (ts : List Token) : Input :=
  match ts.getLast? with
  | none => { rest := [], final := .eof .start, final_eof := rfl }
  | some t =>
    if h : t.kind = .eof then { rest := ts.dropLast, final := t, final_eof := h }
    else
      { rest := ts
        final := .eof { t.start with column := t.start.column + t.lexeme.length }
        final_eof := rfl }

/-- How many tokens are ahead. -/
def size (i : Input) : Nat := i.rest.length

def peek (i : Input) (v : View) : Token := (v.ahead i.rest).headD i.final

/-- The token behind the one that `peek` shows; an end mark has none behind it. -/
def peekNext (i : Input) (v : View) : Token :=
  match v.ahead i.rest with
  | [] => i.final
  | t :: ts => if t.kind = .eof then t else (v.ahead ts).headD i.final

/-- Takes the token that `peek` shows. An end mark is shown and stays. -/
def advance (i : Input) (v : View) : Token × Input :=
  match v.ahead i.rest with
  | [] => (i.final, { i with rest := [], skipped := false })
  | t :: ts =>
    if t.kind = .eof then (t, { i with rest := t :: ts, skipped := false })
    else (t, { i with rest := v.ahead ts, skipped := v.skips ts })

def isAtEnd (i : Input) (v : View) : Bool := (i.peek v).kind = .eof

/-- Whether a token of this kind comes next. The end of the input is of no kind. -/
def check (i : Input) (v : View) (kind : TokenKind) : Bool :=
  !i.isAtEnd v && (i.peek v).kind = kind

end Input

end LazyDecl
