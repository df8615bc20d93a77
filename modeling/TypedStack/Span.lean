/-! Places in the source text. A span without a line stands for code that no text was written
for. Positions have no bound, and a span that ends before it starts is of length zero. -/
namespace TypedStack

structure Span where
  start : Nat
  stop : Nat
  line : Nat
  column : Nat
  deriving DecidableEq, Repr

namespace Span

def synthesized : Span := ⟨0, 0, 0, 0⟩

def length (s : Span) : Nat := s.stop - s.start

def isEmpty (s : Span) : Bool := s.start == s.stop

def isSynthesized (s : Span) : Bool := s.line == 0

/-- The least span over both; line and column are those of the one that starts first. -/
def merge (s t : Span) : Span :=
  let first := if s.start ≤ t.start then s else t
  ⟨min s.start t.start, max s.stop t.stop, first.line, first.column⟩

def mergeAll : List Span → List Span
  | [] => []
  | s :: rest => s :: go s rest
where
  go (acc : Span) : List Span → List Span
    | [] => []
    | s :: rest => acc.merge s :: go (acc.merge s) rest

def text (s : Span) : String :=
  if s.isSynthesized then "<synthesized>" else s!"{s.line}:{s.column}"

end Span

end TypedStack
