import LazyDecl.Text.ClusterClass

/-! Grapheme clusters: the parts of a text that are each seen as one character. They
are the extended clusters of the Unicode rules. -/

namespace LazyDecl.Cluster

/-- Whether a consonant joins the characters before it, last first: they end in a
consonant and marks, and one of the marks links. `linked` says whether one behind them
did. -/
def endsInLink (linked : Bool) : List Char → Bool
  | [] => false
  | c :: before =>
    match ClusterClass.ofChar c with
    | .linker => endsInLink true before
    | .mark | .joiner => endsInLink linked before
    | .consonant => linked
    | _ => false

/-- Whether characters, last first, end in a pictograph and marks. -/
def endsInPictograph : List Char → Bool
  | [] => false
  | c :: before =>
    match ClusterClass.ofChar c with
    | .mark | .linker | .nonJoiner => endsInPictograph before
    | .pictograph => true
    | _ => false

/-- Whether characters, last first, end in a regional indicator that has no partner. -/
def endsInHalfFlag : List Char → Bool
  | [] => false
  | c :: before => ClusterClass.ofChar c = .regional && !endsInHalfFlag before

/-- Whether `next` belongs to the cluster that ends in `last`, with `before` in front of it,
last first. -/
def joins (last : Char) (before : List Char) (next : Char) : Bool :=
  let l := ClusterClass.ofChar last
  let n := ClusterClass.ofChar next
  if l.isBreak || n.isBreak then l = .carriageReturn && n = .lineFeed
  else if n.isAttached || l = .prepend then true
  else
    match n with
    | .consonant => endsInLink false (last :: before)
    | .pictograph => l = .joiner && endsInPictograph before
    | .regional => endsInHalfFlag (last :: before)
    | _ => ClusterClass.inSyllable l n

/-- The clusters of a text whose first one starts with `before` and `last`. -/
def splitFrom (last : Char) (before : List Char) : List Char → List (List Char)
  | [] => [(last :: before).reverse]
  | c :: cs =>
    if joins last before c then splitFrom c (last :: before) cs
    else (last :: before).reverse :: splitFrom c [] cs

def split : List Char → List (List Char)
  | [] => []
  | c :: cs => splitFrom c [] cs

end LazyDecl.Cluster
