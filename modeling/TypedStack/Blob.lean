import Std.Data.HashMap

/-! Constant data of a module. Equal data with equal alignment is stored once; tokens number
the data in the order in which it was first asked for. `BlobStore` keeps a map and a counter;
`BlobTable` is what emission sees of it, the data in the order of the tokens. Requests are taken
one after the other, also where several bodies make them; lengths and alignments are unbounded. -/
namespace TypedStack

structure BlobToken where
  index : Nat
  deriving DecidableEq, Repr

def BlobToken.text (t : BlobToken) : String := s!"blob#{t.index}"

structure Blob where
  bytes : List UInt8
  alignment : Nat
  deriving DecidableEq, Hashable, Repr

structure BlobTable where
  blobs : Array Blob
  deriving DecidableEq, Repr

namespace BlobTable

def empty : BlobTable := ⟨#[]⟩

def size (t : BlobTable) : Nat := t.blobs.size

def intern (t : BlobTable) (b : Blob) : BlobToken × BlobTable :=
  match t.blobs.findIdx? (· == b) with
  | some i => (⟨i⟩, t)
  | none => (⟨t.size⟩, ⟨t.blobs.push b⟩)

def entries (t : BlobTable) : List (BlobToken × Blob) :=
  t.blobs.toList.zipIdx.map fun (b, i) => (⟨i⟩, b)

end BlobTable

/-- Nothing in the type ties the counter to the map: a token may be given out twice, or without
being stored. -/
structure BlobStore where
  tokens : Std.HashMap Blob BlobToken
  next : UInt32

namespace BlobStore

def empty : BlobStore := ⟨∅, 0⟩

/-- The token stored for a blob; for a new one, the counter, which wraps around. -/
def request (s : BlobStore) (b : Blob) : BlobToken × BlobStore :=
  match s.tokens[b]? with
  | some token => (token, s)
  | none =>
    let token : BlobToken := ⟨s.next.toNat⟩
    (token, ⟨s.tokens.insert b token, s.next + 1⟩)

def count (s : BlobStore) : Nat := s.tokens.size

/-- The map has no order of its own: its entries are sorted by their tokens. -/
def entries (s : BlobStore) : List (BlobToken × Blob) :=
  (s.tokens.toList.map Prod.swap).mergeSort fun x y => x.1.index ≤ y.1.index

end BlobStore

end TypedStack
