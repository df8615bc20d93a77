import TypedStack.Blob
import TypedStack.Constant
import TypedStack.Slot

/-! The instructions of the machine and their effect on the depth of the evaluation stack. -/
namespace TypedStack

structure Label where
  id : Nat
  deriving DecidableEq, Repr

def Label.text (l : Label) : String := s!"L{l.id}"

/-- What a `conv` instruction converts to: an integer of some width, an address-sized integer,
a float, or a float from an integer read as unsigned. -/
inductive ConvTarget where
  | i1 | i2 | i4 | i8 | u1 | u2 | u4 | u8 | i | u | r4 | r8 | rUn
  deriving DecidableEq, Repr

inductive Overflow where
  | unchecked
  /-- Fails when the source, read as signed, does not fit. -/
  | checked
  /-- Fails when the source, read as unsigned, does not fit. -/
  | checkedUnsigned
  deriving DecidableEq, Repr

inductive Width where
  | i1 | u1 | i2 | u2 | i4 | u4 | i8 | i | r4 | r8
  | reference
  | whole (ty : Ty)
  deriving DecidableEq, Repr

namespace Width

def ofPrim : Prim → Width
  | .i8 => i1
  | .bool | .u8 => u1
  | .i16 => i2
  | .char | .u16 => u2
  | .i32 => i4
  | .u32 => u4
  | .i64 | .u64 => i8
  | .nint | .nuint => i
  | .f32 => r4
  | .f64 => r8

def load (ty : Ty) : Width :=
  match ty.primitive? with
  | some p => ofPrim p
  | none =>
    if ty.isPointer then i
    else if ty.isVerifierReference then reference
    else whole ty

/-- Stores do not tell signed from unsigned. -/
def store (ty : Ty) : Width :=
  match load ty with
  | u1 => i1
  | u2 => i2
  | u4 => i4
  | w => w

end Width

inductive Access where
  | load
  | address
  | store
  deriving DecidableEq, Repr

inductive Instr where
  | dup
  | pop
  | ldcI4 (value : Int32)
  | ldcI8 (value : Int64)
  | ldcR4 (bits : UInt32)
  | ldcR8 (bits : UInt64)
  | ldnull
  | arg (access : Access) (index : Nat)
  | slot (access : Access) (s : Slot)
  | field (access : Access) (f : Field)
  | staticField (access : Access) (f : Field)
  | blobAddress (t : BlobToken)
  | blobHandle (t : BlobToken)
  | ldelem (ty : Ty)
  /-- A `readonly` element address skips the check that the array holds just this type. -/
  | ldelema (ty : Ty) (readonly : Bool)
  | stelem (ty : Ty)
  | ldind (width : Width)
  | stind (width : Width)
  | initobj (ty : Ty)
  | box (ty : Ty)
  | unboxAny (ty : Ty)
  | castclass (ty : Ty)
  | conv (target : ConvTarget) (overflow : Overflow)
  | add
  | mul
  | mulOvfUn
  /-- Says of the call that follows that its receiver is the address of a `ty`. -/
  | constrained (ty : Ty)
  | call (m : Method)
  | callvirt (m : Method)
  | newobj (m : Method)
  | ldftn (m : Method)
  | ldvirtftn (m : Method)
  | localloc
  | initblk
  | cpblk (unaligned : Option Nat)
  | sizeof (ty : Ty)
  | refanyval (ty : Ty)
  | throw
  | br (l : Label)
  | brtrue (l : Label)
  | brfalse (l : Label)
  | label (l : Label)
  deriving DecidableEq, Repr

namespace Instr

def delta : Instr → Int
  | dup | ldcI4 _ | ldcI8 _ | ldcR4 _ | ldcR8 _ | ldnull => 1
  | arg .store _ | slot .store _ | staticField .store _ => -1
  | arg .. | slot .. | staticField .. => 1
  | field .store _ => -2
  | field .. => 0
  | blobAddress _ | blobHandle _ | ldftn _ | sizeof _ => 1
  | ldind _ | box _ | unboxAny _ | castclass _ | conv .. | ldvirtftn _ | localloc | refanyval _
  | constrained _ | br _ | label _ => 0
  | pop | ldelem _ | ldelema .. | initobj _ | add | mul | mulOvfUn | throw | brtrue _
  | brfalse _ => -1
  | stind _ => -2
  | stelem _ | initblk | cpblk _ => -3
  | call m | callvirt m => (if m.returnsValue then 1 else 0) - m.inputs
  | newobj m => 1 - m.params.length

end Instr

end TypedStack
