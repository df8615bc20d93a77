import TypedStack.Emit.Load

/-! Plans. What a parent does with an operand depends on the parent: it may want the value, an
address, or a place to store to. A plan holds all three, so that the plan of a tree is built
from the plans of its parts. -/
namespace TypedStack

/-- Where an assignment stores, once everything the store takes besides the value lies on the
stack. -/
inductive Place where
  /-- The value stays on the stack. -/
  | stack
  | slot (s : Slot)
  | arg (index : Nat)
  | staticField (f : Field)
  | field (f : Field)
  | element (ty : Ty)
  | indirect (ty : Ty)
  deriving DecidableEq, Repr

namespace Place

def takesOperands : Place → Bool
  | field _ | element _ | indirect _ => true
  | _ => false

def store : Place → Emit Unit
  | stack => pure ()
  | slot s => Emit.instr (.slot .store s)
  | arg n => Emit.instr (.arg .store n)
  | staticField f => Emit.instr (.staticField .store f)
  | field f => Emit.instr (.field .store f)
  | element ty => Emit.instr (.stelem ty)
  | indirect ty => Emit.instr (.stind (.store ty))

end Place

structure Target where
  place : Place
  temp : Option Slot

structure Plan where
  expr : Expr
  /-- Leave the value on the stack if it is used, else only the effects happen. -/
  value : (used : Bool) → Emit Unit
  /-- Leave an address; the temporary that had to be made for it is the caller's to give back. -/
  address : AddressKind → Emit (Option Slot)
  /-- Leave what a store needs below the value. -/
  target : (isRef : Bool) → Emit Target

namespace Emit

/-- The value of a node: a folded one is loaded as the constant it is. -/
def valueOf (i : Info) (load : Bool → Emit Unit) (used : Bool) : Emit Unit :=
  match i.constant with
  | some c => when used (constant c i.ty i.span)
  | none => load used

/-- Copy a value to a new temporary and leave the address of the copy. -/
def spill (ty : Ty) (value : Emit Unit) : Emit (Option Slot) := do
  value
  let temp ← allocate ty false
  instr (.slot .store temp)
  instr (.slot .address temp)
  return some temp

def noPlace (i : Info) (_ : AddressKind) : Emit (Option Slot) :=
  fail (.addressWithoutHome i.ty) i.span

def throughAddress (i : Info) (address : AddressKind → Emit (Option Slot)) (isRef : Bool) :
    Emit Target := do
  ensure (!isRef) (.rebindOfNonReference i.ty) i.span
  let temp ← address .writable
  return ⟨.indirect i.ty, temp⟩

end Emit

namespace Plan

def ty (p : Plan) : Ty := p.expr.ty

/-- The plan of a node that is loaded by `load` and located by `locate` where it has a home. -/
def make (env : Env) (e : Expr) (load : Bool → Emit Unit)
    (locate : AddressKind → Emit (Option Slot)) : Plan :=
  let value := Emit.valueOf e.info load
  let address kind := do
    Emit.assert env (env.asserted e kind)
    if env.hasHome e kind then locate kind else Emit.spill e.ty (value true)
  { expr := e, value, address, target := Emit.throughAddress e.info address }

def assignable (env : Env) (e : Expr) (load : Bool → Emit Unit)
    (locate : AddressKind → Emit (Option Slot))
    (target : Bool → Emit Target) : Plan :=
  { make env e load locate with target }

/-- A receiver: a reference is passed as it is, anything else by address. -/
def receiver (p : Plan) (kind : AddressKind) : Emit (Option Slot) :=
  if p.ty.isVerifierReference then do
    p.value true
    return none
  else p.address kind

end Plan

end TypedStack
