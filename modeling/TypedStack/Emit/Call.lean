import TypedStack.Emit.Assign
import TypedStack.Escape

/-! Calls. Temporaries made for arguments go back to the pool after the call, unless the callee
could have kept a reference to one. -/
namespace TypedStack.Emit

structure Dispatch where
  temp : Option Slot
  receiverKind : Option AddressKind
  constrained : Option Ty
  isVirtual : Bool

/-- A receiver of type-parameter type is passed by address and the machine picks the method. -/
def passReceiver (receiver : Option Plan) (m : Method) (nonVirtual : Bool) (span : Span) :
    Emit Dispatch :=
  if m.isStatic then return ⟨none, none, none, false⟩
  else match receiver with
    | none => fail (.callWithoutReceiver m) span
    | some r =>
      if r.ty.isVerifierReference then do
        r.value true
        return ⟨none, none, none, !nonVirtual⟩
      else do
        let kind : AddressKind := if m.isReadonly then .readonly else .constrained
        let temp ← r.address kind
        return ⟨temp, some kind, if r.ty.isValueType then none else some r.ty,
          !r.ty.isValueType⟩

def passArgument (a : Plan) (mode : RefKind) : Emit (Option Slot) :=
  match mode with
  | .byValue => do
    a.value true
    return none
  | .ref | .output => a.address .writable
  | .input | .refReadonly | .refReadonlyParam => a.address .readonlyStrict

def passArguments : List (Plan × Parameter) → Emit (List Slot)
  | [] => return []
  | (a, p) :: rest => do
    let temp ← passArgument a p.mode
    let temps ← passArguments rest
    return temp.toList ++ temps

def releaseTemps (m : Method) (use : Use) (receiverKind : Option AddressKind)
    (temps : List Slot) : Emit Unit :=
  if Escape.callMightEscape m (use != .unused) receiverKind then temps.forM retire
  else temps.forM free

def takeResult (m : Method) (use : Use) (span : Span) : Emit Unit :=
  when m.returnsValue <|
    match use with
    | .unused => instr .pop
    | .value => when m.resultMode.isByRef (loadThrough m.result)
    | .address => ensure m.resultMode.isByRef (.addressOfResult m) span

def call (receiver : Option Plan) (m : Method) (args : List Plan) (nonVirtual : Bool) (use : Use)
    (span : Span) : Emit Unit := do
  ensure (args.length == m.params.length)
    (.argumentCount m args.length m.params.length) span
  let dispatch ← passReceiver receiver m nonVirtual span
  let temps ← passArguments (args.zip m.params)
  dispatch.constrained.forM fun ty => instr (.constrained ty)
  instr (if dispatch.isVirtual then .callvirt m else .call m)
  releaseTemps m use dispatch.receiverKind (dispatch.temp.toList ++ temps)
  takeResult m use span

def callLoad (i : Info) (receiver : Option Plan) (m : Method) (args : List Plan)
    (nonVirtual used : Bool) : Emit Unit :=
  call receiver m args nonVirtual (.ofUsed used) i.span

def callLocate (i : Info) (receiver : Option Plan) (m : Method) (args : List Plan)
    (nonVirtual : Bool) (_ : AddressKind) : Emit (Option Slot) := do
  call receiver m args nonVirtual .address i.span
  return none

end TypedStack.Emit
