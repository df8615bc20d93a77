import TypedStack.Instr

/-! The instructions of one body in order, with the stack depth along the way. Depths and label
numbers have no bound; 32-bit counters agree with them up to 2 ^ 31. -/
namespace TypedStack

structure Stream where
  code : Array Instr
  depth : Int
  peak : Int
  labels : Nat
  deriving DecidableEq, Repr

namespace Stream

def empty : Stream := ⟨#[], 0, 0, 0⟩

/-- Account for a change of depth that the order of the instructions does not show, such as the
value left by a branch that jumped away. -/
def adjust (s : Stream) (d : Int) : Stream :=
  { s with depth := s.depth + d, peak := max s.peak (s.depth + d) }

def emit (s : Stream) (i : Instr) : Stream :=
  { s.adjust i.delta with code := s.code.push i }

def newLabel (s : Stream) : Label × Stream := (⟨s.labels⟩, { s with labels := s.labels + 1 })

def since (s : Stream) (position : Nat) : List Instr := s.code.toList.drop position

end Stream

end TypedStack
