import TypedStack.Diagnostic
import TypedStack.Fault
import TypedStack.Home
import TypedStack.Stream
import TypedStack.Symbols

/-! The steps every piece of emission is made of. A failed step keeps what was emitted,
allocated and reported before it. An assertion is a step that fails in checked builds. -/
namespace TypedStack

structure Env extends Surroundings where
  blobInitializers : Bool
  symbols : Symbols
  /-- A checked build stops where something does not hold that is taken for granted. -/
  assertions : Bool

/-- What emission writes: the body's own code and slots, and the tables all bodies share. -/
structure State where
  stream : Stream
  slots : SlotPool
  blobs : BlobTable
  reports : Reports

abbrev Emit := EStateM Failure State

namespace Emit

def fail {α : Type} (fault : Fault) (span : Span) : Emit α := throw ⟨fault, span⟩

def ensure (c : Bool) (fault : Fault) (span : Span) : Emit Unit :=
  if c then pure () else fail fault span

def assert (env : Env) (c : Bool) : Emit Unit :=
  ensure (!env.assertions || c) .assertionFailed .synthesized

def when (c : Bool) (m : Emit Unit) : Emit Unit := if c then m else pure ()

def instr (i : Instr) : Emit Unit := modify fun s => { s with stream := s.stream.emit i }

def instrs (is : List Instr) : Emit Unit := is.forM instr

def adjust (d : Int) : Emit Unit := modify fun s => { s with stream := s.stream.adjust d }

def newLabel : Emit Label :=
  modifyGet fun s => (s.stream.newLabel.1, { s with stream := s.stream.newLabel.2 })

def define (l : Local) : Emit Slot :=
  modifyGet fun s =>
    let r := s.slots.define l
    (r.1, { s with slots := r.2 })

def allocate (ty : Ty) (byRef : Bool) : Emit Slot :=
  modifyGet fun s =>
    let r := s.slots.allocate ty byRef
    (r.1, { s with slots := r.2 })

def free (slot : Slot) : Emit Unit := modify fun s => { s with slots := s.slots.free slot }

def retire (slot : Slot) : Emit Unit := modify fun s => { s with slots := s.slots.retire slot }

def intern (b : Blob) : Emit BlobToken :=
  modifyGet fun s =>
    let r := s.blobs.intern b
    (r.1, { s with blobs := r.2 })

def report (d : Diagnostic) : Emit Unit :=
  modify fun s => { s with reports := s.reports.push d }

def popUnless (used : Bool) : Emit Unit := when (!used) (instr .pop)

def loadThrough (ty : Ty) : Emit Unit := instr (.ldind (.load ty))

def int (v : Int32) : Emit Unit := instr (.ldcI4 v)

/-- Two ways to one result. The test decides: on true the code of `taken` runs, else that of
`other`. Where they leave something, only one of them has left it when the other starts. -/
def branch {α : Type} (leaves : Bool) (test : Emit Unit) (other taken : Emit α) :
    Emit (α × α) := do
  let takenLabel ← newLabel
  let done ← newLabel
  test
  instr (.brtrue takenLabel)
  let a ← other
  instr (.br done)
  when leaves (adjust (-1))
  instr (.label takenLabel)
  let b ← taken
  instr (.label done)
  return (a, b)

end Emit

end TypedStack
