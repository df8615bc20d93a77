import TypedStack.Proofs.Bytes
import TypedStack.Proofs.Blocks

/-! A machine with memory in bytes. It knows the instructions that blocks are made and filled with;
at all others, and at every access outside of a block, it stops. Code that belongs to the entries
of a block is not looked into: it pushes the value of its entry. -/
namespace TypedStack

inductive Region where
  | block (index : Nat)
  | data (t : BlobToken)
  deriving DecidableEq

structure Pointer where
  region : Region
  offset : Int
  deriving DecidableEq

inductive Value where
  | int32 (v : Int32)
  | int64 (v : Int64)
  | native (v : Int)
  | pointer (p : Pointer)
  | slotAddress (s : Slot)
  | handle (t : BlobToken)
  | view (t : BlobToken)
  deriving DecidableEq

namespace Value

def ofNumber (size : Nat) (z : Int) : Value :=
  if size = 8 then int64 (.ofInt z) else int32 (.ofInt z)

/-- The bytes that a store of this width takes from the value. -/
def stored? : Width → Value → Option (List UInt8)
  | .i1, int32 v => some (lowBytes 1 v.toInt)
  | .i2, int32 v => some (lowBytes 2 v.toInt)
  | .i4, int32 v => some (lowBytes 4 v.toInt)
  | .i8, int64 v => some (lowBytes 8 v.toInt)
  | _, _ => none

end Value

structure Memory where
  stack : List Value
  slots : Slot → Option Value
  /-- Bytes that were never written have no value. -/
  blocks : List (List (Option UInt8))

namespace Memory

def push (x : Memory) (v : Value) : Memory := { x with stack := v :: x.stack }

/-- Bytes put in place of what a block holds from an offset on. -/
def overwrite (block : List (Option UInt8)) (offset : Nat) (bytes : List UInt8) :
    List (Option UInt8) :=
  block.take offset ++ bytes.map some ++ block.drop (offset + bytes.length)

def write (x : Memory) (p : Pointer) (bytes : List UInt8) : Option Memory :=
  match p.region with
  | .data _ => none
  | .block b => do
    let block ← x.blocks[b]?
    if 0 ≤ p.offset ∧ p.offset + bytes.length ≤ block.length then
      some { x with blocks := x.blocks.set b (overwrite block p.offset.toNat bytes) }
    else none

end Memory

/-- What a run finds in the module: its data, and the helper that shows data as a view. -/
structure Runtime where
  blobs : BlobTable
  view? : Option BlobView

namespace Runtime

def read (r : Runtime) (p : Pointer) (count : Nat) : Option (List UInt8) :=
  match p.region with
  | .block _ => none
  | .data t => do
    let blob ← r.blobs.blobs[t.index]?
    if 0 ≤ p.offset ∧ p.offset + count ≤ blob.bytes.length then
      some ((blob.bytes.drop p.offset.toNat).take count)
    else none

/-- One instruction. Products of addresses must fit in 32 bits, so that they are the same on every
machine. A view of data, once pinned, is the address of the data. -/
def exec (r : Runtime) (i : Instr) (x : Memory) : Option Memory :=
  match i, x.stack with
  | .dup, v :: st => some { x with stack := v :: v :: st }
  | .ldcI4 v, _ => some (x.push (.int32 v))
  | .ldcI8 v, _ => some (x.push (.int64 v))
  | .conv .i .unchecked, .int32 v :: st => some { x with stack := .native v.toInt :: st }
  | .conv .u .unchecked, .int32 v :: st =>
    some { x with stack := .native v.toUInt32.toNat :: st }
  | .mul, .int32 b :: .native a :: st =>
    if -2 ^ 31 ≤ a * b.toInt ∧ a * b.toInt < 2 ^ 31 then
      some { x with stack := .native (a * b.toInt) :: st }
    else none
  | .add, .int32 d :: .pointer p :: st =>
    some { x with stack := .pointer { p with offset := p.offset + d.toInt } :: st }
  | .add, .native d :: .pointer p :: st =>
    some { x with stack := .pointer { p with offset := p.offset + d } :: st }
  | .localloc, .native n :: st =>
    if 0 ≤ n then
      some { x with
        stack := .pointer ⟨.block x.blocks.length, 0⟩ :: st
        blocks := x.blocks ++ [List.replicate n.toNat none] }
    else none
  | .stind w, v :: .pointer p :: st => do
    let bytes ← v.stored? w
    { x with stack := st }.write p bytes
  | .initblk, .int32 n :: .int32 b :: .pointer p :: st =>
    { x with stack := st }.write p (List.replicate n.toUInt32.toNat b.toUInt32.toUInt8)
  | .cpblk _, .int32 n :: .pointer source :: .pointer p :: st => do
    let bytes ← r.read source n.toUInt32.toNat
    { x with stack := st }.write p bytes
  | .blobAddress t, _ => some (x.push (.pointer ⟨.data t, 0⟩))
  | .blobHandle t, _ => some (x.push (.handle t))
  | .slot .store s, v :: st =>
    some { x with stack := st, slots := fun n => if n = s then some v else x.slots n }
  | .slot .address s, _ => some (x.push (.slotAddress s))
  | .call m, .handle t :: st =>
    if r.view?.any (·.create == m) then some { x with stack := .view t :: st } else none
  | .call m, .slotAddress s :: st =>
    match x.slots s with
    | some (.view t) =>
      if r.view?.any (·.pin == m) then some { x with stack := .pointer ⟨.data t, 0⟩ :: st }
      else none
    | _ => none
  | _, _ => none

section

variable {r : Runtime} {x : Memory} {st : List Value} {p : Pointer}

theorem exec_dup {v : Value} (h : x.stack = v :: st) :
    r.exec .dup x = some { x with stack := v :: v :: st } := by
  unfold exec
  rw [h]

theorem exec_conv {v : Int32} (h : x.stack = .int32 v :: st) :
    r.exec (.conv .i .unchecked) x = some { x with stack := .native v.toInt :: st } := by
  unfold exec
  rw [h]

theorem exec_mul {a : Int} {b : Int32} (h : x.stack = .int32 b :: .native a :: st)
    (hfits : -2 ^ 31 ≤ a * b.toInt ∧ a * b.toInt < 2 ^ 31) :
    r.exec .mul x = some { x with stack := .native (a * b.toInt) :: st } := by
  unfold exec
  rw [h]
  exact if_pos hfits

theorem exec_add_int32 {d : Int32} (h : x.stack = .int32 d :: .pointer p :: st) :
    r.exec .add x =
      some { x with stack := .pointer { p with offset := p.offset + d.toInt } :: st } := by
  unfold exec
  rw [h]

theorem exec_add_native {d : Int} (h : x.stack = .native d :: .pointer p :: st) :
    r.exec .add x = some { x with stack := .pointer { p with offset := p.offset + d } :: st } := by
  unfold exec
  rw [h]

theorem exec_localloc {n : Nat} (h : x.stack = .native n :: st) :
    r.exec .localloc x = some { x with
      stack := .pointer ⟨.block x.blocks.length, 0⟩ :: st
      blocks := x.blocks ++ [List.replicate n none] } := by
  unfold exec
  rw [h]
  exact if_pos (Int.natCast_nonneg n)

theorem exec_stind {w : Width} {v : Value} {bytes : List UInt8}
    (h : x.stack = v :: .pointer p :: st) (hv : v.stored? w = some bytes) :
    r.exec (.stind w) x = { x with stack := st }.write p bytes := by
  unfold exec
  rw [h]
  exact congrArg (Option.bind · _) hv

theorem exec_initblk {n b : Int32} (h : x.stack = .int32 n :: .int32 b :: .pointer p :: st) :
    r.exec .initblk x =
      { x with stack := st }.write p (List.replicate n.toUInt32.toNat b.toUInt32.toUInt8) := by
  unfold exec
  rw [h]

theorem exec_cpblk {unaligned : Option Nat} {n : Int32} {source : Pointer} {bytes : List UInt8}
    (h : x.stack = .int32 n :: .pointer source :: .pointer p :: st)
    (hread : r.read source n.toUInt32.toNat = some bytes) :
    r.exec (.cpblk unaligned) x = { x with stack := st }.write p bytes := by
  unfold exec
  rw [h]
  exact congrArg (Option.bind · _) hread

theorem exec_store {s : Slot} {v : Value} (h : x.stack = v :: st) :
    r.exec (.slot .store s) x =
      some { x with stack := st, slots := fun n => if n = s then some v else x.slots n } := by
  unfold exec
  rw [h]

theorem exec_create {v : BlobView} (hv : r.view? = some v) {t : BlobToken}
    (h : x.stack = .handle t :: st) :
    r.exec (.call v.create) x = some { x with stack := .view t :: st } := by
  unfold exec
  rw [h]
  exact if_pos (by simp [hv])

theorem exec_pin {v : BlobView} (hv : r.view? = some v) {s : Slot} {t : BlobToken}
    (h : x.stack = .slotAddress s :: st) (hs : x.slots s = some (.view t)) :
    r.exec (.call v.pin) x = some { x with stack := .pointer ⟨.data t, 0⟩ :: st } := by
  unfold exec
  rw [h]
  dsimp only
  rw [hs]
  exact if_pos (by simp [hv])

end

end Runtime

/-- Code in pieces: single instructions, and the code of an entry as a whole. -/
inductive Piece where
  | instr (i : Instr)
  | entry (index : Nat) (code : List Instr)
  deriving DecidableEq

namespace Piece

def code : Piece → List Instr
  | instr i => [i]
  | entry _ c => c

def index? : Piece → Option Nat
  | instr _ => none
  | entry k _ => some k

def run (r : Runtime) (values : Nat → Value) (x : Memory) : Piece → Option Memory
  | instr i => r.exec i x
  | entry k _ => some (x.push (values k))

def runAll (r : Runtime) (values : Nat → Value) (ps : List Piece) (x : Memory) : Option Memory :=
  ps.foldlM (run r values) x

end Piece

end TypedStack
