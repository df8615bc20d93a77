import TypedStack.Emit.Plan

/-! Locals, parameters, `this`, elements, fields and what lies behind pointers: each loaded,
located and stored to. -/
namespace TypedStack.Emit

def literalLoad (i : Info) (_ : Bool) : Emit Unit := fail (.literalWithoutValue i.ty) i.span

/-! ### Locals -/

/-- Leave what the slot holds, or its address. A resident local lies on the stack already. -/
def pushLocal (env : Env) (l : Local) (access : Access) : Emit Unit :=
  if env.isResident l.id then pure ()
  else do
    let s ← define l
    instr (.slot access s)

def localLoad (env : Env) (l : Local) (used : Bool) : Emit Unit :=
  when used do
    pushLocal env l .load
    when l.mode.isByRef (loadThrough l.ty)

def localLocate (env : Env) (i : Info) (l : Local) (_ : AddressKind) : Emit (Option Slot) := do
  ensure (!(env.isResident l.id && l.mode == .byValue)) (.addressOfResident l.id) i.span
  pushLocal env l (if l.mode.isByRef then .load else .address)
  return none

def localTarget (env : Env) (l : Local) (isRef : Bool) : Emit Target :=
  if l.mode.isByRef && !isRef then do
    pushLocal env l .load
    return ⟨.indirect l.ty, none⟩
  else if env.isResident l.id then return ⟨.stack, none⟩
  else do
    let s ← define l
    return ⟨.slot s, none⟩

/-! ### Parameters -/

def numbered (env : Env) (p : Parameter) : Emit Unit := assert env (env.method.numbers p)

def paramLoad (env : Env) (p : Parameter) (used : Bool) : Emit Unit :=
  when used do
    numbered env p
    instr (.arg .load (env.method.argument p))
    when p.mode.isByRef (loadThrough p.ty)

def paramLocate (env : Env) (p : Parameter) (_ : AddressKind) : Emit (Option Slot) := do
  numbered env p
  instr (.arg (if p.mode.isByRef then .load else .address) (env.method.argument p))
  return none

def paramTarget (env : Env) (p : Parameter) (isRef : Bool) : Emit Target := do
  numbered env p
  if p.mode.isByRef && !isRef then
    instr (.arg .load (env.method.argument p))
    return ⟨.indirect p.ty, none⟩
  else return ⟨.arg (env.method.argument p), none⟩

/-! ### The receiver of the body; that of a value type is a reference -/

def thisLoad (i : Info) (used : Bool) : Emit Unit :=
  when used do
    instr (.arg .load 0)
    when i.ty.isValueType (loadThrough i.ty)

def thisLocate (i : Info) (_ : AddressKind) : Emit (Option Slot) := do
  instr (.arg (if i.ty.isValueType then .load else .address) 0)
  return none

/-! ### Values that lie on the stack -/

/-- A reference is read even when the value is not used, so that a null reference is noticed. -/
def duplicateLoad (i : Info) (mode : RefKind) (used : Bool) : Emit Unit :=
  when (used || mode.isByRef) do
    instr .dup
    when mode.isByRef (loadThrough i.ty)
    popUnless used

def duplicateLocate (_ : AddressKind) : Emit (Option Slot) := do
  instr .dup
  return none

def heldLocate (_ : AddressKind) : Emit (Option Slot) := pure none

/-! ### Array elements -/

def elementOperands (array index : Plan) : Emit Unit := do
  array.value true
  index.value true

def elementLoad (i : Info) (array index : Plan) (used : Bool) : Emit Unit := do
  elementOperands array index
  instr (.ldelem i.ty)
  popUnless used

def elementLocate (i : Info) (array index : Plan) (kind : AddressKind) :
    Emit (Option Slot) := do
  elementOperands array index
  instr (.ldelema i.ty ((kind == .constrained || kind.isReadonly) && !i.ty.isValueType))
  return none

def elementTarget (i : Info) (array index : Plan) (_ : Bool) : Emit Target := do
  elementOperands array index
  return ⟨.element i.ty, none⟩

/-! ### Behind pointers and typed references -/

def derefLoad (i : Info) (pointer : Plan) (used : Bool) : Emit Unit := do
  pointer.value true
  loadThrough i.ty
  popUnless used

def derefLocate (pointer : Plan) (_ : AddressKind) : Emit (Option Slot) := do
  pointer.value true
  return none

def derefTarget (i : Info) (pointer : Plan) (_ : Bool) : Emit Target := do
  pointer.value true
  return ⟨.indirect i.ty, none⟩

def typedRefAddress (i : Info) (operand : Plan) : Emit Unit := do
  operand.value true
  instr (.refanyval i.ty)

def typedRefLoad (i : Info) (operand : Plan) (used : Bool) : Emit Unit := do
  typedRefAddress i operand
  loadThrough i.ty
  popUnless used

def typedRefLocate (i : Info) (operand : Plan) (_ : AddressKind) : Emit (Option Slot) := do
  typedRefAddress i operand
  return none

/-! ### Fields -/

/-- Leave what an instance field is loaded from: an address where the receiver has one to give,
else its value. -/
def fieldSource (env : Env) (receiver : Plan) : Emit (Option Slot) :=
  if receiver.ty.isVerifierReference then do
    receiver.value true
    return none
  else do
    assert env (env.asserted receiver.expr .readonly)
    if env.hasHome receiver.expr .readonly then receiver.address .readonly
    else
      receiver.value true
      return none

def staticFieldLoad (f : Field) (used : Bool) : Emit Unit :=
  when used do
    instr (.staticField .load f)
    when f.mode.isByRef (loadThrough f.ty)

/-- Loading from a value cannot fail, so nothing is loaded from one if nothing is used. -/
def instanceFieldLoad (env : Env) (receiver : Plan) (f : Field) (used : Bool) : Emit Unit :=
  if !used && !receiver.ty.isVerifierReference then receiver.value false
  else do
    let temp ← fieldSource env receiver
    instr (.field .load f)
    temp.forM free
    when f.mode.isByRef (loadThrough f.ty)
    popUnless used

def fieldLoad (env : Env) (i : Info) (receiver : Option Plan) (f : Field) (used : Bool) :
    Emit Unit :=
  if f.isStatic then staticFieldLoad f used
  else match receiver with
    | none => fail (.fieldWithoutReceiver f) i.span
    | some r => instanceFieldLoad env r f used

def fieldAccess (f : Field) : Access := if f.mode.isByRef then .load else .address

/-- A call on a field may change the field and so its receiver. -/
def fieldReceiverKind (kind : AddressKind) : AddressKind :=
  if kind = .constrained then .writable else kind

def fieldLocate (i : Info) (receiver : Option Plan) (f : Field) (kind : AddressKind) :
    Emit (Option Slot) :=
  if f.isStatic then do
    instr (.staticField (fieldAccess f) f)
    return none
  else match receiver with
    | none => fail (.fieldWithoutReceiver f) i.span
    | some r => do
      let temp ← r.receiver (fieldReceiverKind kind)
      instr (.field (fieldAccess f) f)
      return temp

def fieldTarget (i : Info) (receiver : Option Plan) (f : Field) (isRef : Bool) : Emit Target :=
  let through := f.mode.isByRef && !isRef
  if f.isStatic then do
    when through (instr (.staticField .load f))
    return ⟨if through then .indirect f.ty else .staticField f, none⟩
  else match receiver with
    | none => fail (.storeWithoutReceiver f) i.span
    | some r => do
      let temp ← r.receiver .writable
      when through (instr (.field .load f))
      return ⟨if through then .indirect f.ty else .field f, temp⟩

end TypedStack.Emit
