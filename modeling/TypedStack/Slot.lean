import Std.Data.TreeMap
import TypedStack.Symbol

/-! The local slots of one body. A declared local keeps its slot for the whole body. A temporary
goes back to the pool when it is freed, and is set aside for good when it is retired, because a
reference to it may still be alive. Slot numbers are 16-bit words and wrap. -/
namespace TypedStack

structure Slot where
  index : UInt16
  deriving DecidableEq, Repr

def Slot.text (s : Slot) : String := s!"V_{s.index.toNat}"

inductive SlotState where
  | declared
  | inUse
  | free
  | retired
  deriving DecidableEq, Repr

structure SlotEntry where
  ty : Ty
  /-- The slot holds a reference to a `ty`. -/
  byRef : Bool
  state : SlotState
  deriving DecidableEq, Repr

structure SlotPool where
  entries : Array SlotEntry
  declared : Std.TreeMap LocalId Slot

namespace SlotPool

def empty : SlotPool := ⟨#[], ∅⟩

def size (p : SlotPool) : Nat := p.entries.size

def numberOf (position : Nat) : Slot := ⟨UInt16.ofNat position⟩

def entry? (p : SlotPool) (s : Slot) : Option SlotEntry := p.entries[s.index.toNat]?

def slotOf? (p : SlotPool) (id : LocalId) : Option Slot := p.declared[id]?

def push (p : SlotPool) (e : SlotEntry) : Slot × SlotPool :=
  (numberOf p.size, { p with entries := p.entries.push e })

/-- The slot of a declared local, made on first use. -/
def define (p : SlotPool) (l : Local) : Slot × SlotPool :=
  match p.slotOf? l.id with
  | some s => (s, p)
  | none =>
    let (s, p) := p.push ⟨l.ty, l.mode.isByRef, .declared⟩
    (s, { p with declared := p.declared.insert l.id s })

/-- A temporary for a `ty` or for a reference to one: the first free one that fits, else a new
one. -/
def allocate (p : SlotPool) (ty : Ty) (byRef : Bool) : Slot × SlotPool :=
  match p.entries.findIdx? (· == ⟨ty, byRef, .free⟩) with
  | some i => (numberOf i, { p with entries := p.entries.setIfInBounds i ⟨ty, byRef, .inUse⟩ })
  | none => p.push ⟨ty, byRef, .inUse⟩

/-- Only a temporary in use changes its state. -/
def settle (p : SlotPool) (s : Slot) (state : SlotState) : SlotPool :=
  { p with
    entries := p.entries.modify s.index.toNat fun e =>
      if e.state = .inUse then { e with state } else e }

def free (p : SlotPool) (s : Slot) : SlotPool := p.settle s .free
def retire (p : SlotPool) (s : Slot) : SlotPool := p.settle s .retired

inductive Request where
  | define (l : Local)
  | allocate (ty : Ty) (byRef : Bool)
  | free (s : Slot)
  | retire (s : Slot)

def serve (p : SlotPool) : Request → Option Slot × SlotPool
  | .define l => let (s, p) := p.define l; (some s, p)
  | .allocate ty byRef => let (s, p) := p.allocate ty byRef; (some s, p)
  | .free s => (none, p.free s)
  | .retire s => (none, p.retire s)

def serveAll (p : SlotPool) (requests : List Request) : Option Slot × SlotPool :=
  requests.foldl (fun (_, p) r => p.serve r) (none, p)

end SlotPool

end TypedStack
