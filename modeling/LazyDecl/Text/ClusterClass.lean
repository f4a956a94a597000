import LazyDecl.Text.ClusterRanges
import LazyDecl.Text.Ranges

/-! What a character does inside a grapheme cluster. -/

namespace LazyDecl

inductive ClusterClass where
  | carriageReturn
  | lineFeed
  | control
  | mark
  | spacingMark
  /-- A virama, which joins the consonants on its two sides. -/
  | linker
  | nonJoiner
  | joiner
  | prepend
  | regional
  | pictograph
  | consonant
  | hangulLeading
  | hangulVowel
  | hangulTrailing
  /-- A syllable without a trailing consonant. -/
  | hangulOpen
  | hangulClosed
  | other
  deriving DecidableEq

namespace ClusterClass

def linkers : List Nat :=
  [0x94d, 0x9cd, 0xacd, 0xb4d, 0xc4d, 0xd4d, 0x1039, 0x17d2, 0x1a60, 0x1b44, 0x1bab, 0xa9c0,
   0xaaf6, 0x10a3f, 0x11133, 0x113d0, 0x1193e, 0x11a47, 0x11a99, 0x11f42]

/-- The class of a Hangul letter or syllable; every 28th syllable is open. The vowels of
Kirat Rai join like those of Hangul. -/
def ofHangul? (code : Nat) : Option ClusterClass :=
  if inRanges code [(0x1100, 0x115f), (0xa960, 0xa97c)] then some hangulLeading
  else if inRanges code [(0x1160, 0x11a7), (0xd7b0, 0xd7c6), (0x16d63, 0x16d63),
    (0x16d67, 0x16d6a)] then some hangulVowel
  else if inRanges code [(0x11a8, 0x11ff), (0xd7cb, 0xd7fb)] then some hangulTrailing
  else if 0xac00 ≤ code && code ≤ 0xd7a3 then
    some (if (code - 0xac00) % 28 = 0 then hangulOpen else hangulClosed)
  else none

def ofCode (code : Nat) : ClusterClass :=
  if 0x20 ≤ code && code ≤ 0x7e then other
  else if code = 0xd then carriageReturn
  else if code = 0xa then lineFeed
  else if code = 0x200c then nonJoiner
  else if code = 0x200d then joiner
  else if 0x1f1e6 ≤ code && code ≤ 0x1f1ff then regional
  else if linkers.contains code then linker
  else if inRanges code controlRanges then control
  else if inRanges code markRangesLow || inRanges code markRangesHigh then mark
  else if inRanges code spacingMarkRanges then spacingMark
  else if inRanges code prependRanges then prepend
  else if inRanges code pictographRanges then pictograph
  else if inRanges code consonantRanges then consonant
  else (ofHangul? code).getD other

def ofChar (c : Char) : ClusterClass := ofCode c.toNat

/-- Whether a character stands alone, whatever is beside it. -/
def isBreak : ClusterClass → Bool
  | carriageReturn | lineFeed | control => true
  | _ => false

/-- Whether a character belongs to whatever is in front of it. -/
def isAttached : ClusterClass → Bool
  | mark | spacingMark | linker | nonJoiner | joiner => true
  | _ => false

/-- Whether two Hangul letters or syllables beside each other are one syllable. -/
def inSyllable : ClusterClass → ClusterClass → Bool
  | hangulLeading, hangulLeading | hangulLeading, hangulVowel | hangulLeading, hangulOpen
  | hangulLeading, hangulClosed => true
  | hangulOpen, hangulVowel | hangulOpen, hangulTrailing | hangulVowel, hangulVowel
  | hangulVowel, hangulTrailing => true
  | hangulClosed, hangulTrailing | hangulTrailing, hangulTrailing => true
  | _, _ => false

end ClusterClass

end LazyDecl
