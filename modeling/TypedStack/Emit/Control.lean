import TypedStack.Emit.Plan

/-! Sequences, throws and choices between two expressions. -/
namespace TypedStack.Emit

/-! ### Sequences -/

def sequenceStart (env : Env) (locals : List Local) (effects : List Plan) : Emit Unit := do
  (locals.filter fun l => !env.isResident l.id).forM fun l => discard (define l)
  effects.forM fun p => p.value false

def sequenceLoad (env : Env) (locals : List Local) (effects : List Plan) (value : Plan)
    (used : Bool) : Emit Unit := do
  sequenceStart env locals effects
  value.value used

def sequenceLocate (env : Env) (locals : List Local) (effects : List Plan) (value : Plan)
    (kind : AddressKind) : Emit (Option Slot) := do
  sequenceStart env locals effects
  value.address kind

/-! ### Throws, counted as leaving the value that is never made -/

def throwLoad (exception : Plan) (used : Bool) : Emit Unit := do
  exception.value true
  instr .throw
  when used (adjust 1)

def throwLocate (exception : Plan) (_ : AddressKind) : Emit (Option Slot) := do
  throwLoad exception true
  return none

/-! ### Conditionals -/

def conditionalLoad (condition consequence alternative : Plan) (used : Bool) : Emit Unit :=
  discard (branch used (condition.value true) (alternative.value used) (consequence.value used))

/-- Either temporary may be what the address refers to. -/
def conditionalLocate (condition consequence alternative : Plan) (kind : AddressKind) :
    Emit (Option Slot) := do
  let (a, c) ← branch true (condition.value true) (alternative.address kind)
    (consequence.address kind)
  a.forM retire
  c.forM retire
  return none

/-! ### Receivers of type-parameter type -/

/-- The default value in a box, which is null just for reference types. -/
def boxedDefault (ty : Ty) : Emit Unit := do
  let temp ← allocate ty false
  instr (.slot .address temp)
  instr (.initobj ty)
  instr (.slot .load temp)
  instr (.box ty)
  free temp

def eitherLoad (i : Info) (value reference : Plan) (used : Bool) : Emit Unit :=
  discard (branch used (boxedDefault i.ty) (reference.value used) (value.value used))

def setAside (address : Emit (Option Slot)) : Emit Unit := do
  let temp ← address
  temp.forM retire

def eitherLocate (i : Info) (value reference : Plan) (kind : AddressKind) :
    Emit (Option Slot) := do
  discard (branch true (boxedDefault i.ty) (setAside (reference.address kind))
    (setAside (value.receiver kind)))
  return none

end TypedStack.Emit
