import TypedStack.Emit.Convert

/-! Delegates: a target object and a pointer to a method, handed to the delegate type's
constructor. -/
namespace TypedStack.Emit

/-- Takes an object and an address-sized integer that is no enum. -/
def isDelegateConstructor (m : Method) : Bool :=
  match m.params with
  | [object, handle] =>
    object.ty.isObject && !handle.ty.isEnum &&
      (handle.ty.primitive? == some .nint || handle.ty.primitive? == some .nuint)
  | _ => false

def delegateConstructor? (env : Env) (ty : Ty) : Option Method :=
  (env.symbols.constructorsOf ty).find? isDelegateConstructor

def badDelegate (ty : Ty) (span : Span) : Diagnostic :=
  (((Diagnostic.plain .error ("delegate '" ++ ty.name ++ "' does not have a valid constructor")
    span).withCode .badDelegateConstructor).withRemark span "delegate created here" true)

def delegateTarget : Option Plan → Emit Unit
  | none => instr .ldnull
  | some r => do
    r.value true
    boxValue r.ty

def methodPointer (m : Method) (nonVirtual : Bool) : Emit Unit :=
  if m.isVirtual && !m.owner.isDelegate && !nonVirtual then do
    instr .dup
    instr (.ldvirtftn m)
  else instr (.ldftn m)

/-- Without a constructor to call, the delegate is still counted as made. -/
def construct (env : Env) (ty : Ty) (span : Span) : Emit Unit :=
  match delegateConstructor? env ty with
  | some m => instr (.newobj m)
  | none => do
    report (badDelegate ty span)
    adjust (-1)

def delegateLoad (env : Env) (i : Info) (receiver : Option Plan) (m : Method)
    (nonVirtual used : Bool) : Emit Unit :=
  let receiver := if m.isStatic then none else receiver
  if used then do
    delegateTarget receiver
    methodPointer m nonVirtual
    construct env i.ty i.span
  else receiver.forM fun r => r.value false

end TypedStack.Emit
