import LazyDecl.Text.Cluster

/-! Typed text. A backspace takes back the last cluster that still stands. -/

namespace LazyDecl

def backspace : Char := '\x08'

/-- What still stands of a typed text. -/
structure Typed where
  /-- The characters, last first. -/
  chars : List Char
  /-- How many bytes each cluster has, last first. A size is one byte, so of a
  cluster of 256 bytes or more only a part is taken back. -/
  sizes : List UInt8

namespace Typed

def empty : Typed := ⟨[], []⟩

def clusterSize (cluster : List Char) : UInt8 :=
  UInt8.ofNat (cluster.foldl (fun size c => size + c.utf8Size) 0)

/-- Drops characters until `size` bytes are gone. -/
def dropBytes (size : Nat) : List Char → List Char
  | [] => []
  | c :: cs => if size = 0 then c :: cs else dropBytes (size - c.utf8Size) cs

def erase (t : Typed) : Typed :=
  match t.sizes with
  | [] => t
  | size :: sizes => ⟨dropBytes size.toNat t.chars, sizes⟩

/-- A backspace stands alone in its cluster. -/
def enter (t : Typed) (cluster : List Char) : Typed :=
  if cluster = [backspace] then t.erase
  else ⟨cluster.reverse ++ t.chars, clusterSize cluster :: t.sizes⟩

/-- What is left of a text after its backspaces. -/
def result (s : String) : String :=
  String.ofList ((Cluster.split s.toList).foldl enter empty).chars.reverse

end Typed

end LazyDecl
