import TypedStack.Emit.Plan

/-! Assignments of values and of references. -/
namespace TypedStack

inductive Use where
  | unused
  | value
  | address
  deriving DecidableEq, Repr

def Use.ofUsed (used : Bool) : Use := if used then .value else .unused

namespace Emit

/-- The address a reference is bound to: a read-only one must still be the place itself. The
reference may live on, so its temporary is never given back. -/
def bindReference (mode : RefKind) (right : Plan) : Emit Unit := do
  let temp ← right.address (if mode.isReadonly then .readonlyStrict else .writable)
  temp.forM retire

/-- Keep a copy of what is stored. Where the store takes operands from below it, the copy waits
in a temporary. -/
def keepCopy (place : Place) (ty : Ty) (isRef : Bool) (use : Use) : Emit (Option Slot) :=
  match use, place.takesOperands with
  | .unused, _ => return none
  | _, false => do
    instr .dup
    return none
  | _, true => do
    instr .dup
    let temp ← allocate ty isRef
    instr (.slot .store temp)
    return some temp

def takeCopy (temp : Slot) : Emit Unit := do
  instr (.slot .load temp)
  free temp

def pushAssigned (left right : Plan) (isRef : Bool) : Emit Unit :=
  if isRef then bindReference left.expr.mode right else right.value true

def assign (i : Info) (left right : Plan) (isRef : Bool) (use : Use) : Emit Unit := do
  ensure (isRef || use != .address) .addressOfValueAssignment i.span
  let target ← left.target isRef
  pushAssigned left right isRef
  let copy ← keepCopy target.place left.ty isRef use
  target.place.store
  copy.forM takeCopy
  target.temp.forM free
  when (isRef && use == .value) (loadThrough left.ty)

def assignLoad (i : Info) (left right : Plan) (isRef used : Bool) : Emit Unit :=
  assign i left right isRef (.ofUsed used)

def assignLocate (i : Info) (left right : Plan) (isRef : Bool) (_ : AddressKind) :
    Emit (Option Slot) := do
  assign i left right isRef .address
  return none

end Emit

end TypedStack
