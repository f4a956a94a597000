import LazyDecl.Diagnostic
import LazyDecl.Text.Comment
import LazyDecl.Text.Quoted

/-! Segments: a source text is cut, from left to right and without a gap, into
tokens, blanks, comments, line ends and semicolons that separate nothing, and
malformed pieces. Tokens and lexical diagnostics are read off the segments. -/

namespace LazyDecl

/-- Why a piece of source is malformed. -/
inductive ScanError where
  | unexpectedCharacter (c : Char)
  | unexpectedEscape (c : Char)
  | unterminatedString
  | unterminatedComment
  deriving DecidableEq

def ScanError.message : ScanError → String
  | unexpectedCharacter c => "unexpected character '" ++ c.toString ++ "'"
  | unexpectedEscape c => "unexpected escape sequence '\\" ++ c.toString ++ "'"
  | unterminatedString => "unterminated string"
  | unterminatedComment => "unterminated comment"

inductive SegmentKind where
  | token (kind : TokenKind)
  | blank
  | comment
  /-- A newline where a line has just ended. -/
  | repeatedEol
  /-- A semicolon that separates nothing. -/
  | redundantSemicolon
  /-- A malformed piece, and the part of it that an error shows. -/
  | malformed (error : ScanError) (shown : List Char)
  deriving DecidableEq

structure Segment where
  kind : SegmentKind
  start : Position
  text : List Char
  deriving DecidableEq

namespace Segment

def isBlank (c : Char) : Bool := c = ' ' || c = '\t' || c = '\r'

def startsWord (c : Char) : Bool := c.isAlpha || c = '_'

def continuesWord (c : Char) : Bool := c.isAlphanum || c = '_'

/-- Whether a semicolon in front of this text has nothing to separate. -/
def endsUnit : List Char → Bool
  | [] => true
  | c :: _ => c = '\n' || c = ';'

def wordKind (word : List Char) : TokenKind :=
  if word = ['t', 'r', 'u', 'e'] then .boolean true
  else if word = ['f', 'a', 'l', 's', 'e'] then .boolean false
  else .identifier

def readWord (c : Char) (cs : List Char) : SegmentKind × Nat :=
  let word := cs.takeWhile continuesWord
  (.token (wordKind (c :: word)), word.length)

/-- Digits, and a point with further digits if a digit follows the point. -/
def readNumber (cs : List Char) : SegmentKind × Nat :=
  let whole := (cs.takeWhile Char.isDigit).length
  match cs.drop whole with
  | '.' :: ds =>
    let places := (ds.takeWhile Char.isDigit).length
    if places = 0 then (.token .integer, whole) else (.token .decimal, whole + 1 + places)
  | _ => (.token .integer, whole)

/-- How much is skipped of a literal that is given up, behind the backslash of the pair without a
meaning: all up to the closing quote. -/
def abandonString (cs : List Char) : Nat := (Quoted.closing? cs).getD cs.length

def readString (cs : List Char) : SegmentKind × Nat :=
  match Quoted.badEscape? cs, Quoted.closing? cs with
  | some (n, c), _ =>
    (.malformed (.unexpectedEscape c) ('"' :: cs.take n), n + abandonString (cs.drop n))
  | none, some n => (.token .string, n)
  | none, none => (.malformed .unterminatedString ('"' :: cs), cs.length)

/-- The text behind the opening mark of a block comment. -/
def readBlockComment (cs : List Char) : SegmentKind × Nat :=
  match Comment.closing? 0 (cs.drop 1) with
  | some n => (.comment, n + 1)
  | none => (.malformed .unterminatedComment ['/', '*'], cs.length)

/-- The longer of the two operators that may start here. -/
def readSymbol (c : Char) (cs : List Char) : SegmentKind × Nat :=
  match cs.head?.bind (TokenKind.ofPair? c), TokenKind.ofChar? c with
  | some kind, _ => (.token kind, 1)
  | none, some kind => (.token kind, 0)
  | none, none => (.malformed (.unexpectedCharacter c) [c], 0)

/-- What starts with the character `c`, and how many characters of the text
behind it belong to it. `afterEol` tells that the last token ended a line. -/
def read (afterEol : Bool) (c : Char) (cs : List Char) : SegmentKind × Nat :=
  if isBlank c then (.blank, 0)
  else if c = '\n' then (if afterEol then .repeatedEol else .token .eol, 0)
  else if c = ';' then
    (if afterEol || endsUnit cs then .redundantSemicolon else .token .semicolon, 0)
  else if c = '"' then readString cs
  else if c.isDigit then readNumber cs
  else if startsWord c then readWord c cs
  else if c = '/' ∧ cs.head? = some '/' then (.comment, Comment.lineLength cs)
  else if c = '/' ∧ cs.head? = some '*' then readBlockComment cs
  else readSymbol c cs

/-- Whether the last token ends a line, once a segment of this kind is read. -/
def afterEol (before : Bool) : SegmentKind → Bool
  | .token kind => kind = .eol
  | _ => before

/-- Cuts a text that stands at position `p`. -/
def cut (eol : Bool) (p : Position) : List Char → List Segment
  | [] => []
  | c :: cs =>
    let (kind, n) := read eol c cs
    let text := c :: cs.take n
    ⟨kind, p, text⟩ :: cut (afterEol eol kind) (p.advance text) (cs.drop n)
termination_by cs => cs.length
decreasing_by simp only [List.length_drop, List.length_cons]; omega

def ofSource (source : String) : List Segment := cut false .start source.toList

/-- The token that a segment is, if it is one. Line ends are hidden. -/
def token? (s : Segment) : Option Token :=
  match s.kind with
  | .token kind => some ⟨kind, String.ofList s.text, s.start, kind = .eol⟩
  | _ => none

/-- What a segment gives rise to besides tokens. -/
def diagnostic? (s : Segment) : Option Diagnostic :=
  match s.kind with
  | .malformed error shown => some
      { phase := .scanning, severity := .error, message := error.message
        token := ⟨.unknown, String.ofList shown, s.start, false⟩ }
  | .redundantSemicolon => some
      { phase := .scanning, severity := .warning, message := "redundant ';'"
        token := ⟨.unknown, String.ofList s.text, s.start, false⟩ }
  | _ => none

/-- Files what the segments report, in source order. -/
def diagnostics (segments : List Segment) : Diagnostics :=
  let found := segments.filterMap diagnostic?
  { phase := .scanning
    errors := found.filter (·.severity ≠ .warning)
    warnings := found.filter (·.severity = .warning) }

end Segment

/-- The tokens of a source text, the mark at its end included. -/
def tokens (source : String) : List Token :=
  (Segment.ofSource source).filterMap Segment.token? ++
    [Token.eof (Position.start.advance source.toList)]

/-- What the scan of a source text reports. -/
def scanDiagnostics (source : String) : Diagnostics :=
  Segment.diagnostics (Segment.ofSource source)

end LazyDecl
